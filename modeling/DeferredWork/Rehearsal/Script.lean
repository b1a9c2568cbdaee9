import DeferredWork.Handler
import DeferredWork.Job.Draft
set_option autoImplicit false

/-!
# Scripts

A rehearsal tries out how engines, operators and handlers get along.  What its handlers do, and what
other writers do meanwhile, is written down in scripts: lists of actions on jobs.  An action names a
job by a variable that an earlier action filled.
-/

namespace DeferredWork

/-! ## Writers outside of the transaction -/

/-- What another writer does, at once and for all to see.  Where a write is refused nothing
happens. -/
inductive OutsideAct where
  /-- Changes a stored job. -/
  | save (id : JobId) (edits : List FieldEdit)
  | delete (id : JobId)
  /-- Locks a job at its current revision. -/
  | lock (id : JobId) (owner : Owner) (expiry : Instant)
  | insert (draft : JobDraft)
  /-- Puts the store in or out of reach. -/
  | available (value : Bool)
  /-- Moves the clock by a number of milliseconds. -/
  | advance (millis : Int)
  /-- Makes the store refuse. -/
  | fail (error : StoreError)

/-! ## Actions of a body -/

/-- What a handler or another body does next. -/
inductive Action where
  /-- Reads a job into a variable, or empties the variable. -/
  | find (id : String) (var : Option String)
  | insert (draft : JobDraft)
  /-- Changes the job in a variable and stages it. -/
  | update (var : String) (edits : List FieldEdit)
  | delete (var : String)
  | lock (var : String) (owner : Owner) (expiry : Instant)
  | raise (var : String) (message : String) (details : Option String)
  | forceDelete (id : String)
  | resolve (id : String)
  /-- Notes whether anything is staged. -/
  | pending
  /-- Notes the time of the transaction. -/
  | now
  | sleep (time : Duration)
  | fail (error : HandlerError)
  | contend (reason : String)
  /-- Breaks off, with or without saying why. -/
  | breakOff (reason : Option String)
  /-- Lets another writer act. -/
  | outside (acts : List OutsideAct)

/-- The jobs in variables. -/
abbrev Variables : Type := List (String × Job)

namespace Variables

/-- The job in a variable. -/
def get? (vars : Variables) (name : String) : Option Job := vars.lookup name

/-- Fills or empties a variable. -/
def set (vars : Variables) (name : String) (job : Option Job) : Variables :=
  (job.map fun job => (name, job)).toList ++ vars.filter fun v => v.1 != name

end Variables

/-- What a rehearsal notes. -/
inductive Entry where
  /-- A handler was called for a job, for the `n`-th time. -/
  | called (pattern : String) (id : JobId) (n : Nat)
  /-- A job was looked for, and was found at a revision or not. -/
  | found (id : String) (revision : Option Nat)
  /-- An action found its variable empty. -/
  | absent (action var : String)
  | pending (value : Bool)
  | now (time : Instant)

/-- What a script asks of the rehearsal. -/
inductive Cue : Type → Type where
  | note (entry : Entry) : Cue Unit
  /-- Counts a call of a handler for a job, and says the how manieth it is. -/
  | countCall (pattern : String) (id : JobId) : Cue Nat
  /-- Keeps the variables for later bodies. -/
  | keep (vars : Variables) : Cue Unit
  /-- Lets another writer act; gives the refusal at which it stopped. -/
  | outside (acts : List OutsideAct) : Cue (Option StoreError)

namespace Cue

/-- Gives a cue from within a body. -/
def give {β : Type} (cue : Cue β) : Command Cue β := Command.ask (.foreign cue)

end Cue

/-- Puts the name of a body's own job in the place of each mark. -/
def substitute (self : String) (text : String) : String :=
  String.ofList (text.toList.flatMap fun c => if c = '$' then self.toList else [c])

/-- Makes the job of a draft. -/
def JobDraft.make (draft : JobDraft) (self : String) : Command Cue Job := do
  let id ←
    match draft.id with
    | some id => pure ⟨substitute self id.text⟩
    | none => JobId.ofUuid <$> Command.ask .draw
  let created ←
    match draft.created with
    | some created => pure created
    | none => Command.ask .wallClock
  return draft.build id created

namespace Action

/-- The reason of a body that breaks off without one. -/
def unknownReason : String := "unknown panic payload"

/-- Does something with the job in a variable, or notes that the variable is empty. -/
def withVar (vars : Variables) (action var : String) (use : Job → Command Cue Variables) :
    Command Cue Variables :=
  match vars.get? var with
  | some job => use job
  | none => do
    (Cue.note (.absent action var)).give
    return vars

/-- Does one action for a body whose own job has a name; gives the variables after it. -/
def perform (self : String) (vars : Variables) : Action → Command Cue Variables
  | .find id var => do
    let id := substitute self id
    let job ← Command.find ⟨id⟩
    (Cue.note (.found id (job.map Job.revision))).give
    return vars.set (var.getD id) job
  | .insert draft => do
    Command.stage (.insert (← draft.make self))
    return vars
  | .update var edits =>
    withVar vars "update" var fun job => do
      let job := job.edit edits
      Command.stage (.update job)
      return vars.set var (some job)
  | .delete var =>
    withVar vars "delete" var fun job => do
      Command.stage (.delete job)
      return vars
  | .lock var owner expiry =>
    withVar vars "lock" var fun job => do
      Command.stage (.lock job owner expiry)
      return vars
  | .raise var message details =>
    withVar vars "raise" var fun job => do
      Command.raiseFor job message details
      return vars
  | .forceDelete id => do
    Command.stage (.forceDelete ⟨substitute self id⟩)
    return vars
  | .resolve id => do
    Command.stage (.resolve ⟨substitute self id⟩)
    return vars
  | .pending => do
    (Cue.note (.pending (← Command.ask .hasPending))).give
    return vars
  | .now => do
    (Cue.note (.now (← Command.ask .now))).give
    return vars
  | .sleep time => do
    Command.ask (.spend time)
    return vars
  | .fail error => throw (.failed error)
  | .contend reason => throw (.contention reason)
  | .breakOff reason => Command.abort (reason.getD unknownReason)
  | .outside acts => do
    match ← (Cue.outside acts).give with
    | some error => throw (.ofStore error)
    | none => return vars

/-- Does actions in turn; with `keeps` the variables outlast the body. -/
def performAll (self : String) (keeps : Bool) : Variables → List Action → Command Cue Unit
  | _, [] => return ()
  | vars, action :: actions => do
    let vars ← action.perform self vars
    if keeps then (Cue.keep vars).give
    performAll self keeps vars actions

end Action

/-! ## Handlers -/

/-- The retries that a handler leaves after a failure. -/
inductive RetryRule where
  | usual
  | half
  | exactly (retries : Nat)
  deriving DecidableEq, Repr

/-- The retries that a rule leaves to a job. -/
def RetryRule.apply : RetryRule → Job → Nat
  | .usual, job => job.retries - 1
  | .half, job => job.retries / 2
  | .exactly retries, _ => retries

/-- A handler that follows a script. -/
structure Script where
  pattern : String
  /-- What the handler does in its first call for a job, in the second, and so on; the last is
  repeated. -/
  calls : List (List Action)
  rule : RetryRule
  delay : Option Duration

/-- What the `n`-th call for a job does. -/
def Script.actions (script : Script) (n : Nat) : List Action :=
  ((script.calls[n - 1]?).orElse fun _ => script.calls.getLast?).getD []

/-- The handler of a script. -/
def Script.handler (script : Script) : Handler Cue where
  handle job :=
    Command.toHandling do
      let n ← (Cue.countCall script.pattern job.id).give
      (Cue.note (.called script.pattern job.id n)).give
      Action.performAll job.id.text false [("job", job)] (script.actions n)
  retriesAfter := script.rule.apply
  delayAfter _ _ := script.delay

end DeferredWork

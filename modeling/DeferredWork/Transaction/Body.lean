import DeferredWork.Interaction
import DeferredWork.Transaction.Error
set_option autoImplicit false

/-!
# Transaction bodies

The body of a transaction reads single jobs and stages changes; nothing it stages is visible before
the transaction commits.  A body is an interaction, so that a handler can be any function of the job
and of what it reads, and can do no more than this module's requests allow.  What a handler does to
the rest of the world goes through requests of a kind `ε` that the surroundings answer.
-/

namespace DeferredWork

/-- A change that a body stages. -/
inductive Staged where
  | insert (job : Job)
  /-- Guarded by the revision at which the body first read the job. -/
  | update (job : Job)
  /-- Guarded by the revision at which the body first read the job. -/
  | delete (job : Job)
  /-- Whatever the revision. -/
  | forceDelete (id : JobId)
  /-- Guarded by the revision that the given job carries. -/
  | lock (job : Job) (owner : Owner) (expiry : Instant)
  | raise (incident : Incident)
  | resolve (id : JobId)

/-- What a body may ask. -/
inductive Request (ε : Type → Type) : Type → Type 1 where
  /-- Reads a job and notes its revision. -/
  | find (id : JobId) : Request ε (Except TransactionError (Option Job))
  /-- The time of the transaction. -/
  | now : Request ε Instant
  /-- Whether anything is staged so far. -/
  | hasPending : Request ε Bool
  | stage (change : Staged) : Request ε Unit
  /-- Draws an identifier. -/
  | draw : Request ε Uuid
  /-- The time on the wall, which is not the time of the transaction. -/
  | wallClock : Request ε Instant
  /-- Lets time pass that counts against the limit of the transaction. -/
  | spend (time : Duration) : Request ε Unit
  | foreign {β : Type} (question : ε β) : Request ε β

/-- A body that ends with a value or a failure. -/
abbrev Command (ε : Type → Type) (α : Type) : Type 1 :=
  ExceptT TransactionError (Interaction (Request ε)) α

/-- What a handler does with a job: a body that ends well or with a failure of the handler. -/
abbrev Handling (ε : Type → Type) : Type 1 := ExceptT HandlerError (Interaction (Request ε)) Unit

namespace Command

variable {ε : Type → Type} {α : Type}

/-- Asks one question. -/
def ask (q : Request ε α) : Command ε α := ExceptT.lift (Interaction.query q)

/-- Reads a job and notes its revision. -/
def find (id : JobId) : Command ε (Option Job) := ExceptT.mk (Interaction.query (.find id))

/-- Stages a change. -/
def stage (change : Staged) : Command ε Unit := ask (.stage change)

/-- Breaks off. -/
def abort (reason : String) : Command ε α := ExceptT.mk (.abort reason)

/-- Stages a first incident of a job at the time of the transaction. -/
def raiseFor (job : Job) (message : String) (details : Option String) : Command ε Unit := do
  let now ← ask .now
  let id ← ask .draw
  stage (.raise (Incident.forJob id job message details now))

/-- Does what a handler does; its failure is a failure of the transaction. -/
def ofHandling (handling : Handling ε) : Command ε Unit :=
  ExceptT.mk <| handling.run.bind fun
    | .ok () => .done (.ok ())
    | .error e => .done (.error (.failed e))

/-- Does what a command does; its failure is a failure of the handler. -/
def toHandling (command : Command ε Unit) : Handling ε :=
  ExceptT.mk <| command.run.bind fun
    | .ok () => .done (.ok ())
    | .error e => .done (.error e.toHandlerError)

end Command

end DeferredWork

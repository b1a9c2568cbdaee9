import DeferredWork.Engine.Metrics
import DeferredWork.Interaction
import DeferredWork.Store.Query
set_option autoImplicit false

/-!
# Routines

A routine is what an engine or an operator does, one call at a time: calls of the shared store, and
calls of what is the engine's own, its tokens, its pool and its counters.  Between two calls anybody
else may act.  The module also says how the store answers a call when nobody interferes.
-/

namespace DeferredWork

/-! ## Calls of the store -/

/-- The calls of the store that routines make, with the type of the answer. -/
inductive StoreCall : Type → Type where
  | get (id : JobId) : StoreCall (Option Job)
  | findDue (now : Instant) (limit : Nat) : StoreCall (List Job)
  | apply (writes : List Write) : StoreCall (List Job)

/-- The kinds of calls of the store. -/
inductive StorePoint where
  | get
  | findDue
  | apply
  deriving DecidableEq, Repr

/-- The kind of a call. -/
def StoreCall.point {β : Type} : StoreCall β → StorePoint
  | .get _ => .get
  | .findDue _ _ => .findDue
  | .apply _ => .apply

/-- The answer to a call, and the store after it. -/
def Store.perform {β : Type} (s : Store) : StoreCall β → Except StoreError β × Store
  | .get id => (s.get id, s)
  | .findDue now limit => (s.findDue now limit, s)
  | .apply writes =>
    match s.apply writes with
    | .ok (rows, s) => (.ok rows, s)
    | .error e => (.error e, s)

/-- Why a call of the store gave no answer. -/
inductive Fault where
  | refused (error : StoreError)
  /-- The caller itself broke off during the call. -/
  | crashed (reason : String)
  deriving DecidableEq, Repr

/-! ## What an engine has of its own -/

/-- A locked job on its way to a worker, with the token it carries. -/
structure Dispatched where
  job : Job
  token : Option ScopeId
  deriving DecidableEq

/-- Where an acquisition cycle stands. -/
inductive CyclePhase where
  | idle
  | polling
  | locking
  | dispatched
  deriving DecidableEq, Repr

/-- The name of a phase in a report. -/
def CyclePhase.name : CyclePhase → String
  | .idle => "idle"
  | .polling => "polling"
  | .locking => "locking"
  | .dispatched => "dispatched"

/-! ## Routines -/

/-- The calls of a routine. -/
inductive Call (ε : Type → Type) : Type → Type 1 where
  | store {β : Type} (call : StoreCall β) : Call ε (Except Fault β)
  /-- The time of the shared clock. -/
  | clock : Call ε Instant
  /-- Draws an identifier. -/
  | draw : Call ε Uuid
  /-- The time on the wall. -/
  | wallClock : Call ε Instant
  /-- Takes a token; `false` if it is given out. -/
  | takeToken (scope : ScopeId) : Call ε Bool
  | giveToken (scope : ScopeId) : Call ε Unit
  /-- Hands a job to the pool; `false` if the pool has no room. -/
  | dispatch (job : Dispatched) : Call ε Bool
  | enter (phase : CyclePhase) : Call ε Unit
  | count (counter : Counter) (n : Nat) : Call ε Unit
  /-- Tells the operators of an incident. -/
  | notify (incident : Incident) : Call ε Unit
  /-- Wakes the acquisition up. -/
  | wake : Call ε Unit
  /-- Whatever else a handler asks; the handler may break off. -/
  | foreign {β : Type} (question : ε β) : Call ε (Except String β)

/-- What an engine or an operator does, one call at a time. -/
abbrev Routine (ε : Type → Type) (α : Type) : Type 1 := Interaction (Call ε) α

namespace Routine

variable {ε : Type → Type}

/-- Counts one event. -/
def count (counter : Counter) : Routine ε Unit := Interaction.query (.count counter 1)

/-- Gives a token back, if there is one. -/
def giveBack : Option ScopeId → Routine ε Unit
  | none => .done ()
  | some scope => Interaction.query (.giveToken scope)

/-- Tells the operators of several incidents, in order. -/
def notifyAll : List Incident → Routine ε Unit
  | [] => .done ()
  | incident :: incidents => .ask (.notify incident) fun _ => notifyAll incidents

/-- Calls the store; a crash breaks the routine off. -/
def callStore {β : Type} (call : StoreCall β) : Routine ε (Except StoreError β) :=
  .ask (.store call) fun
    | .ok b => .done (.ok b)
    | .error (.refused e) => .done (.error e)
    | .error (.crashed reason) => .abort reason

end Routine

end DeferredWork

import DeferredWork.Engine.Basic
set_option autoImplicit false

/-!
# Acquisition

In an acquisition cycle an engine polls the store for due jobs and tries to lock and dispatch each of
them in turn.  An exclusive job needs the token of its scope first, and one job per scope is tried
in a cycle.  A job that another writer was faster to lock is passed over.  A job that the pool
refuses is unlocked again and ends the cycle, since the pool has no room for others either.
-/

namespace DeferredWork

/-- What a cycle did. -/
structure CycleReport where
  /-- Jobs that the poll found. -/
  polled : Nat := 0
  /-- Jobs that another writer was faster to lock, to change or to delete. -/
  lostRaces : Nat := 0
  /-- Exclusive jobs left for later because their scope is busy. -/
  deferred : Nat := 0
  dispatched : Nat := 0
  /-- Jobs that the pool refused. -/
  rejected : Nat := 0
  deriving DecidableEq, Repr

/-- The poll found no job. -/
def CycleReport.foundNothing (report : CycleReport) : Bool := report.polled == 0

/-- Why a cycle failed. -/
inductive AcquisitionError where
  /-- The store was out of reach. -/
  | storeUnavailable (reason : String)
  /-- The store refused a question. -/
  | store (error : StoreError)
  /-- A transaction failed. -/
  | transaction (error : TransactionError)
  deriving DecidableEq

namespace AcquisitionError

/-- The wording of a failed cycle. -/
def message : AcquisitionError → String
  | .storeUnavailable reason => s!"job store unavailable: {reason}"
  | .store error => s!"acquisition failed: {error.message}"
  | .transaction error => s!"acquisition command failed: {error.message}"

/-- The failure of a cycle whose question the store refused. -/
def ofStore : StoreError → AcquisitionError
  | .unavailable reason => .storeUnavailable reason
  | error => .store error

/-- The failure of a cycle whose transaction failed. -/
def ofTransaction : TransactionError → AcquisitionError
  | .storeUnavailable reason => .storeUnavailable reason
  | error => .transaction error

end AcquisitionError

/-- What became of a job in a cycle. -/
inductive Fate where
  | lost
  | dispatched
  | rejected
  deriving DecidableEq, Repr

namespace Engine

variable {ε : Type → Type}

/-- Takes the token that a job needs: `none` if the job has to wait for a later cycle. -/
def takeTokenFor (tried : List ScopeId) (job : Job) : Routine ε (Option (Option ScopeId)) :=
  match job.exclusivityScope with
  | none => pure (some none)
  | some scope =>
    if scope ∈ tried then pure none
    else do
      if ← Interaction.query (.takeToken scope) then return some (some scope) else return none

/-- Locks a polled job and reads it again; `none` if another writer was faster. -/
def lock (engine : Engine ε) (job : Job) : Routine ε (Except AcquisitionError (Option Job)) := do
  match ← engine.transact (.lockJob job engine.owner engine.lockDuration) with
  | .error error =>
    return if error.isContention then .ok none else .error (.ofTransaction error)
  | .ok () =>
    match ← Routine.callStore (.get job.id) with
    | .error error => return .error (.ofStore error)
    | .ok found => return .ok (found.filter fun job => job.isLockedBy engine.owner)

/-- Releases the lock of a job that the pool refused. -/
def unlock (engine : Engine ε) (id : JobId) : Routine ε (Except AcquisitionError Unit) := do
  match ← engine.transact (.releaseLock id engine.owner) with
  | .ok _ => return .ok ()
  | .error error => return if error.isContention then .ok () else .error (.ofTransaction error)

/-- Locks and dispatches a polled job that has its token. -/
def offer (engine : Engine ε) (job : Job) (token : Option ScopeId) :
    Routine ε (Except AcquisitionError Fate) :=
  Interaction.onAbort (Routine.giveBack token) do
    match ← engine.lock job with
    | .error error =>
      Routine.giveBack token
      return .error error
    | .ok none =>
      Routine.giveBack token
      return .ok .lost
    | .ok (some locked) =>
      if ← Interaction.query (.dispatch ⟨locked, token⟩) then
        Interaction.query (.enter .dispatched)
        Routine.count .acquired
        return .ok .dispatched
      else
        Routine.count .rejected
        let released ← engine.unlock locked.id
        Routine.giveBack token
        return released.map fun () => .rejected

/-- Tries polled jobs in turn, after the scopes tried before and on top of what was done so far. -/
def offerAll (engine : Engine ε) :
    List Job → List ScopeId → CycleReport → Routine ε (Except AcquisitionError CycleReport)
  | [], _, report => pure (.ok report)
  | job :: jobs, tried, report => do
    let trying := job.exclusivityScope.toList ++ tried
    match ← takeTokenFor tried job with
    | none => offerAll engine jobs trying { report with deferred := report.deferred + 1 }
    | some token =>
      match ← engine.offer job token with
      | .error error => return .error error
      | .ok .lost => offerAll engine jobs trying { report with lostRaces := report.lostRaces + 1 }
      | .ok .dispatched =>
        offerAll engine jobs trying { report with dispatched := report.dispatched + 1 }
      | .ok .rejected => return .ok { report with rejected := report.rejected + 1 }

/-- Polls and tries what the poll found. -/
def runCycle (engine : Engine ε) (batch : Nat) :
    Routine ε (Except AcquisitionError CycleReport) := do
  Interaction.query (.enter .polling)
  let now ← Interaction.query .clock
  match ← Routine.callStore (.findDue now (max batch 1)) with
  | .error error => return .error (.ofStore error)
  | .ok [] => return .ok {}
  | .ok jobs =>
    Interaction.query (.enter .locking)
    engine.offerAll jobs [] { polled := jobs.length }

/-- One acquisition cycle. -/
def acquire (engine : Engine ε) (batch : Nat) :
    Routine ε (Except AcquisitionError CycleReport) := do
  Routine.count .cycles
  let result ← engine.runCycle batch
  Interaction.query (.enter .idle)
  match result with
  | .error error =>
    Routine.count .storeErrors
    return .error error
  | .ok report => return .ok report

end Engine

end DeferredWork

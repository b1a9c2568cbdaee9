import DeferredWork.Engine.Basic
set_option autoImplicit false

/-!
# Execution

An engine executes a locked job in one transaction: the handler's writes, the end of the job and, for
a recurring job, its next run are committed together or not at all.  A second transaction settles
what did not go well: after contention the lock is released and no retry is lost, after a failure
the failure is recorded.  The token of the job comes back and the acquisition is woken up in every
case.
-/

namespace DeferredWork

/-- How a job ended. -/
inductive Completion where
  | deleted
  /-- Its next run took its place. -/
  | rescheduled (next : JobId) (due : Instant)
  deriving DecidableEq

/-- How an execution ended. -/
inductive ExecutionOutcome where
  | committed (completion : Completion)
  /-- The job changed hands, changed or vanished meanwhile. -/
  | contention
  | handlerFailed (error : HandlerError)
  deriving DecidableEq

/-- When a recurring job runs next: an interval after its due date if that is still to come, or else
an interval from now. -/
def Job.nextOccurrence (job : Job) (now : Instant) (interval : Duration) : Instant :=
  match (job.due.getD now).after? interval with
  | some next => if now < next then next else now.afterOrLast interval
  | none => now.afterOrLast interval

namespace Command

variable {ε : Type → Type}

/-- Ends a job that was executed. -/
def complete (job : Job) : Command ε Completion := do
  match job.interval with
  | some interval =>
    let now ← ask .now
    let due := job.nextOccurrence now interval
    let next := job.nextRun (.ofUuid (← ask .draw)) due now
    stage (.delete job)
    stage (.insert next)
    return .rescheduled next.id due
  | none =>
    stage (.delete job)
    return .deleted

/-- Executes a job that an owner locked, unless the stored job is another one by now. -/
def executeJob (job : Job) (owner : Owner) (handler : Handler ε) : Command ε Completion := do
  match ← find job.id with
  | none => contention s!"job {job.id.text} was deleted"
  | some current =>
    if current.revision = job.revision ∧ current.isLockedBy owner then
      ofHandling (handler.handle current)
      complete current
    else
      contention
        s!"job {current.id.text} changed since it was locked (revision {job.revision} -> {current.revision})"

end Command

namespace Engine

variable {ε : Type → Type}

/-- Executes a locked job.  An error means that the store itself failed. -/
def execute (engine : Engine ε) (job : Job) :
    Routine ε (Except TransactionError ExecutionOutcome) :=
  match engine.handlers.resolve job.kind with
  | none =>
    pure <| .ok <| .handlerFailed { message := s!"no handler registered for job type '{job.kind}'" }
  | some handler => do
    match ← engine.transact (.executeJob job engine.owner handler) with
    | .ok completion => return .ok (.committed completion)
    | .error (.contention _) => return .ok .contention
    | .error (.failed error) => return .ok (.handlerFailed error)
    | .error (.timedOut limit) =>
      return .ok (.handlerFailed (TransactionError.timedOut limit).toHandlerError)
    | .error error => return .error error

/-- Releases the engine's lock on a job whose execution met contention. -/
def settleContention (engine : Engine ε) (job : Job) : Routine ε (Except TransactionError Unit) := do
  Routine.count .contention
  match ← engine.transact (.releaseLock job.id engine.owner) with
  | .ok _ => return .ok ()
  | .error error => return if error.isContention then .ok () else .error error

/-- Records the failure of a job. -/
def settleFailure (engine : Engine ε) (job : Job) (error : HandlerError) :
    Routine ε (Except TransactionError Unit) := do
  Routine.count .failed
  let handler := engine.handlers.resolve job.kind
  match ← engine.transact (.recordFailure job.id engine.owner error handler engine.backoff) with
  | .ok .incidentRaised =>
    Routine.count .incidents
    return .ok ()
  | .ok _ => return .ok ()
  | .error error =>
    if error.isContention then
      Routine.count .contention
      return .ok ()
    else return .error error

/-- Settles an execution. -/
def settle (engine : Engine ε) (job : Job) :
    ExecutionOutcome → Routine ε (Except TransactionError Unit)
  | .committed _ => do
    Routine.count .executed
    return .ok ()
  | .contention => engine.settleContention job
  | .handlerFailed error => engine.settleFailure job error

/-- Executes a job and settles the execution. -/
def executeAndSettle (engine : Engine ε) (job : Job) :
    Routine ε (Except TransactionError ExecutionOutcome) := do
  match ← engine.execute job with
  | .error error => return .error error
  | .ok outcome =>
    match ← engine.settle job outcome with
    | .error error => return .error error
    | .ok () => return .ok outcome

/-- Runs a dispatched job to its end, gives its token back and wakes the acquisition up. -/
def runJob (engine : Engine ε) (dispatched : Dispatched) :
    Routine ε (Except TransactionError ExecutionOutcome) := do
  let result ← Interaction.onAbort (Routine.giveBack dispatched.token)
    (engine.executeAndSettle dispatched.job)
  Routine.giveBack dispatched.token
  if engine.wakes then Interaction.query .wake
  return result

/-- Runs a dispatched job as the pool's workers do: a store that fails is only counted, and the lock
is left to expire. -/
def work (engine : Engine ε) (dispatched : Dispatched) : Routine ε Unit := do
  match ← engine.runJob dispatched with
  | .ok _ => return ()
  | .error _ => Routine.count .storeErrors

end Engine

end DeferredWork

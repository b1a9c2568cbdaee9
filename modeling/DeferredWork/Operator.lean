import DeferredWork.Transaction.Commit
set_option autoImplicit false

/-!
# Operators

Operators schedule, cancel, suspend and activate jobs and set their retries.  Each change is a
transaction, so that operators contend with engines on revisions like any other writer.  A job
without retries is stored with an open incident; to give it retries again resolves the incident.
-/

namespace DeferredWork

/-- An operator: the limits of its transactions and the retries of the jobs it makes. -/
structure Operator where
  /-- The limit on the time of one transaction. -/
  limit : Duration
  defaultRetries : Nat

namespace Operator

variable {ε : Type → Type} {α : Type}

/-- The message of an incident that an operator opens. -/
def noRetriesLeft : String := "retries set to 0"

/-- A new job with the operator's retries. -/
def job (operator : Operator) (id : JobId) (kind : String) (created : Instant) : Job :=
  (Job.new id kind created).withRetries operator.defaultRetries

/-- Runs a command as one transaction of the operator. -/
def transact (operator : Operator) (command : Command ε α) :
    Routine ε (Except TransactionError α) :=
  Transaction.run operator.limit command

/-- Wakes the acquisition up if a job can be acquired. -/
def wakeIf (acquirable : Bool) : Routine ε Unit :=
  if acquirable then Interaction.query .wake else pure ()

/-! ## Commands -/

/-- Stores a job, with an incident if it has no retries. -/
def scheduleCommand (job : Job) : Command ε Unit := do
  if job.isParked then Command.raiseFor job noRetriesLeft none
  Command.stage (.insert job)

/-- Deletes a job at whatever revision; `false` if there is none. -/
def cancelCommand (id : JobId) : Command ε Bool := do
  match ← Command.find id with
  | none => return false
  | some _ =>
    Command.stage (.forceDelete id)
    return true

/-- Stores a changed form of a job and gives it back as stored. -/
def update (id : JobId) (change : Job → Command ε Job) : Command ε Job := do
  match ← Command.find id with
  | none => throw (.rejected (.notFound id))
  | some job =>
    let job ← change job
    Command.stage (.update job)
    return { job with revision := job.revision + 1 }

/-- Sets the retries of a job that was read: the incident of a parked job is resolved, and a job
that is parked by it gets one. -/
def changeRetries (retries : Nat) (job : Job) : Command ε Job := do
  let changed := { job with retries := retries }
  if 0 < retries ∧ job.isParked then Command.stage (.resolve job.id)
  else if retries = 0 ∧ ¬ job.isParked then Command.raiseFor changed noRetriesLeft none
  return changed

/-! ## Operations -/

/-- Stores a new job; the acquisition is woken up if the job can be acquired at once. -/
def schedule (operator : Operator) (job : Job) : Routine ε (Except TransactionError JobId) := do
  let now ← Interaction.query .clock
  match ← operator.transact (scheduleCommand job) with
  | .error error => return .error error
  | .ok () =>
    wakeIf (job.isAcquirable now)
    return .ok job.id

/-- Deletes a job; `false` if it is gone already. -/
def cancel (operator : Operator) (id : JobId) : Routine ε (Except TransactionError Bool) := do
  match ← operator.transact (cancelCommand id) with
  | .error error => return if error.isContention then .ok false else .error error
  | .ok removed => return .ok removed

/-- Sets the retries of a job; the acquisition is woken up if the job can be acquired then. -/
def setRetries (operator : Operator) (id : JobId) (retries : Nat) :
    Routine ε (Except TransactionError Job) := do
  match ← operator.transact (update id (changeRetries retries)) with
  | .error error => return .error error
  | .ok job =>
    wakeIf (job.isAcquirable (← Interaction.query .clock))
    return .ok job

/-- Keeps a job from being acquired. -/
def suspend (operator : Operator) (id : JobId) : Routine ε (Except TransactionError Job) :=
  operator.transact (update id fun job => pure { job with suspended := true })

/-- Lets a job be acquired again, and wakes the acquisition up. -/
def activate (operator : Operator) (id : JobId) : Routine ε (Except TransactionError Job) := do
  match ← operator.transact (update id fun job => pure { job with suspended := false }) with
  | .error error => return .error error
  | .ok job =>
    wakeIf true
    return .ok job

/-- Reads a job. -/
def get (id : JobId) : Routine ε (Except StoreError (Option Job)) := Routine.callStore (.get id)

end Operator

end DeferredWork

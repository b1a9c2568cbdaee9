import DeferredWork.Job.Incident
set_option autoImplicit false

/-!
# Writes

What a writer may ask of the store, and why the store may refuse.  Updates, deletions and locks name
the revision they were based on; a refusal that only means that another writer was faster is called
contention.
-/

namespace DeferredWork

/-- One change of the store. -/
inductive Write where
  /-- A new row; its revision starts at one. -/
  | insert (job : Job)
  /-- A new content for a row. -/
  | update (job : Job) (expected : Expected)
  /-- The lock on a row, up to `expiry`, as seen at `now`. -/
  | lock (id : JobId) (revision : Nat) (owner : Owner) (expiry now : Instant)
  /-- No row any more. -/
  | delete (id : JobId) (expected : Expected)
  /-- A new incident, or one more occurrence of the open one of its job. -/
  | raise (incident : Incident)
  /-- The end of all open incidents of a job. -/
  | resolve (id : JobId) (now : Instant)
  deriving DecidableEq

/-- The name of the job that a write is about. -/
def Write.target : Write → JobId
  | .insert job => job.id
  | .update job _ => job.id
  | .lock id .. => id
  | .delete id _ => id
  | .raise incident => incident.jobId
  | .resolve id _ => id

/-- Why the store refuses. -/
inductive StoreError where
  | notFound (id : JobId)
  | alreadyExists (id : JobId)
  | conflict (id : JobId) (expected : Expected) (actual : Nat)
  | alreadyLocked (id : JobId) (owner : Owner)
  | scopeBusy (id : JobId) (scope : ScopeId)
  | unavailable (reason : String)
  deriving DecidableEq, Repr

namespace StoreError

/-- The wording of a refusal. -/
def message : StoreError → String
  | .notFound id => s!"job not found: {id.text}"
  | .alreadyExists id => s!"job already exists: {id.text}"
  | .conflict id expected actual =>
    s!"stale revision for job {id.text}: expected {expected.describe}, found {actual}"
  | .alreadyLocked id owner => s!"job {id.text} is already locked by {owner.text}"
  | .scopeBusy id scope => s!"exclusive scope {scope.text} is busy, job {id.text} must wait"
  | .unavailable reason => s!"job store unavailable: {reason}"

/-- The refusal means that another writer was faster, which is expected now and then. -/
def isContention : StoreError → Bool
  | .notFound _ => true
  | .conflict .. => true
  | .alreadyLocked .. => true
  | .scopeBusy .. => true
  | .alreadyExists _ => false
  | .unavailable _ => false

end StoreError

end DeferredWork

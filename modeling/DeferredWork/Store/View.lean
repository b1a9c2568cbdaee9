import DeferredWork.Store.Table
import DeferredWork.Store.Write
set_option autoImplicit false

/-!
# What a write decides

A job write looks at the row that it names and, if it takes a lock, at the other jobs of the scope;
from that alone it decides what becomes of the rows, or is refused.  The module says so for any view
of the rows, whether a view of the table itself or of a batch that is still being checked.
-/

namespace DeferredWork

/-- The job runs exclusively in the scope, and is not the one excepted. -/
def Job.occupies (job : Job) (scope : ScopeId) (except : JobId) (now : Instant) : Bool :=
  job.id != except && job.exclusivityScope == some scope && job.hasLiveLock now

/-- The rows as a write sees them. -/
structure View where
  /-- The row of a name. -/
  find? : JobId → Option Job
  /-- Another exclusive job of the scope holds a live lock. -/
  isScopeBusy : ScopeId → JobId → Instant → Bool

/-- What a write does to the rows. -/
inductive Change where
  | put (row : Job)
  | erase (id : JobId)
  /-- Incident writes leave the rows alone. -/
  | keep
  deriving DecidableEq

/-- The table after a change. -/
def JobTable.change (t : JobTable) : Change → JobTable
  | .put row => t.put row
  | .erase id => t.erase id
  | .keep => t

/-- The row that a change leaves, if it leaves one. -/
def Change.row? : Change → Option Job
  | .put row => some row
  | .erase _ => none
  | .keep => none

namespace View

/-- The row of a name at an expected revision. -/
def current (v : View) (id : JobId) (expected : Expected) : Except StoreError Job :=
  match v.find? id with
  | none => .error (.notFound id)
  | some job =>
    if expected.matches job.revision then .ok job
    else .error (.conflict id expected job.revision)

/-- The exclusivity scope that keeps a row from being locked, if there is one. -/
def busyScope? (v : View) (job : Job) (now : Instant) : Option ScopeId :=
  match job.exclusivityScope with
  | none => none
  | some scope => if v.isScopeBusy scope job.id now then some scope else none

/-- The locked form of a row, unless a live lock stands against it. -/
def locked (v : View) (job : Job) (owner : Owner) (expiry now : Instant) :
    Except StoreError Job :=
  match job.hasLiveLock now, v.busyScope? job now with
  | true, _ => .error (.alreadyLocked job.id (job.owner.getD ⟨"unknown"⟩))
  | false, some scope => .error (.scopeBusy job.id scope)
  | false, none => .ok { job.lockedBy owner expiry with revision := job.revision + 1 }

/-- What a write does to the rows, or why it is refused. -/
def judge (v : View) : Write → Except StoreError Change
  | .insert job =>
    match v.find? job.id with
    | some _ => .error (.alreadyExists job.id)
    | none => .ok (.put { job with revision := 1 })
  | .update job expected =>
    match v.current job.id expected with
    | .error e => .error e
    | .ok before => .ok (.put { job with revision := before.revision + 1 })
  | .lock id revision owner expiry now =>
    match v.current id (.exactly revision) with
    | .error e => .error e
    | .ok before =>
      match v.locked before owner expiry now with
      | .error e => .error e
      | .ok row => .ok (.put row)
  | .delete id expected =>
    match v.current id expected with
    | .error e => .error e
    | .ok _ => .ok (.erase id)
  | .raise _ => .ok .keep
  | .resolve _ _ => .ok .keep

end View

end DeferredWork

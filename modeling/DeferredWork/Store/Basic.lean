import DeferredWork.Store.Overlay
set_option autoImplicit false

/-!
# The store

The store holds the table of jobs and the list of incidents, and can be out of reach.  Writers
change it by batches: all writes of a batch take effect or none does.  A batch first stages its job
writes over the table, each seeing those before it; only a batch without a refusal then changes the
table, and after it the list of incidents.
-/

namespace DeferredWork

/-! ## Incident writes -/

namespace Incident

/-- The incidents after one is raised: the open incident of its job counts it, or it is added. -/
def raiseAmong (incident : Incident) : List Incident → List Incident
  | [] => [incident]
  | i :: is =>
    if i.jobId == incident.jobId && i.isOpen then i.bumped incident :: is
    else i :: raiseAmong incident is

/-- The incidents after all open ones of a job are resolved. -/
def resolveAmong (id : JobId) (now : Instant) (incidents : List Incident) : List Incident :=
  incidents.map fun i => if i.jobId == id && i.isOpen then i.resolvedAt now else i

/-- The incidents after one write.  Job writes leave them alone. -/
def writeAmong (incidents : List Incident) : Write → List Incident
  | .raise incident => raiseAmong incident incidents
  | .resolve id now => resolveAmong id now incidents
  | _ => incidents

end Incident

/-! ## The store -/

/-- Jobs and incidents, shared by all writers. -/
structure Store where
  jobs : JobTable
  /-- In the order in which they were first raised. -/
  incidents : List Incident
  /-- While the store is out of reach, every call fails. -/
  available : Bool
  deriving DecidableEq

namespace Store

/-- A store in reach without jobs and incidents. -/
def empty : Store := ⟨.empty, [], true⟩

instance : Inhabited Store := ⟨empty⟩

/-- The refusal of a store out of reach. -/
def outOfReach : StoreError := .unavailable "in-memory store switched off"

/-- The rows that a batch leaves, in order, and the store after it; walks through the rows visit in
the given orders.  A batch without writes succeeds even out of reach. -/
def applyIn (orders : Nat → Visiting) (s : Store) (writes : List Write) :
    Except StoreError (List Job × Store) :=
  match writes with
  | [] => .ok ([], s)
  | _ =>
    if s.available then
      match (Overlay.unstaged s.jobs).writeAll orders writes with
      | .error e => .error e
      | .ok (overlay, rows) =>
        .ok (rows, { s with
          jobs := overlay.commit (orders writes.length)
          incidents := writes.foldl Incident.writeAmong s.incidents })
    else .error outOfReach

/-- The rows that a batch leaves, in order, and the store after it. -/
def apply (s : Store) (writes : List Write) : Except StoreError (List Job × Store) :=
  s.applyIn (fun _ => .asKept) writes

/-! ## Single writes -/

/-- The row that a single write leaves, and the store after it. -/
def applyOne (s : Store) (write : Write) : Except StoreError (Job × Store) :=
  match s.apply [write] with
  | .error e => .error e
  | .ok (row :: _, s) => .ok (row, s)
  | .ok ([], _) => .error (.notFound write.target)

/-- Stores a new job. -/
def insert (s : Store) (job : Job) : Except StoreError (Job × Store) := s.applyOne (.insert job)

/-- Replaces the job that was read at the job's revision. -/
def save (s : Store) (job : Job) : Except StoreError (Job × Store) :=
  s.applyOne (.update job (.exactly job.revision))

/-- Tries to lock a job; `false` if another writer was faster. -/
def tryLock (s : Store) (id : JobId) (revision : Nat) (owner : Owner) (expiry now : Instant) :
    Except StoreError (Bool × Store) :=
  match s.apply [.lock id revision owner expiry now] with
  | .ok (_, s) => .ok (true, s)
  | .error e => if e.isContention then .ok (false, s) else .error e

/-- Deletes a job. -/
def delete (s : Store) (id : JobId) (expected : Expected) : Except StoreError Store :=
  match s.apply [.delete id expected] with
  | .ok (_, s) => .ok s
  | .error e => .error e

end Store

end DeferredWork

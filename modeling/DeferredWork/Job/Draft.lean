import DeferredWork.Job.Basic
set_option autoImplicit false

/-!
# Drafts of jobs

A draft says how a job is to be made: its name and creation time, if they are chosen and not drawn or
read off the wall, and the fields that differ from those of a new job.  The same list of fields also
serves to change a job that exists.
-/

namespace DeferredWork

/-- A new value for one field of a job. -/
inductive FieldEdit where
  | kind (value : String)
  | payload (value : Option String)
  | scope (value : Option ScopeId)
  | exclusive (value : Bool)
  | due (value : Option Instant)
  | owner (value : Option Owner)
  | lockedUntil (value : Option Instant)
  | retries (value : Nat)
  | retriesPerRun (value : Nat)
  | failures (value : Nat)
  | priority (value : Int)
  | suspended (value : Bool)
  | interval (value : Option Duration)
  | failureMessage (value : Option String)
  | failureDetails (value : Option String)
  | revision (value : Nat)
  | created (value : Instant)

/-- The job with a new value of a field. -/
def FieldEdit.apply (job : Job) : FieldEdit → Job
  | .kind value => { job with kind := value }
  | .payload value => { job with payload := value }
  | .scope value => { job with scope := value }
  | .exclusive value => { job with exclusive := value }
  | .due value => { job with due := value }
  | .owner value => { job with owner := value }
  | .lockedUntil value => { job with lockedUntil := value }
  | .retries value => { job with retries := value }
  | .retriesPerRun value => { job with retriesPerRun := value }
  | .failures value => { job with failures := value }
  | .priority value => { job with priority := value }
  | .suspended value => { job with suspended := value }
  | .interval value => { job with interval := value }
  | .failureMessage value => { job with failureMessage := value }
  | .failureDetails value => { job with failureDetails := value }
  | .revision value => { job with revision := value }
  | .created value => { job with created := value }

/-- The job with new values of some fields, the later ones on top. -/
def Job.edit (job : Job) (edits : List FieldEdit) : Job := edits.foldl FieldEdit.apply job

/-- How a job is to be made. -/
structure JobDraft where
  /-- The name, unless one is to be drawn. -/
  id : Option JobId
  kind : String
  /-- The creation time, unless it is to be read off the wall. -/
  created : Option Instant
  edits : List FieldEdit

/-- The job of a draft, given its name and creation time. -/
def JobDraft.build (draft : JobDraft) (id : JobId) (created : Instant) : Job :=
  (Job.new id draft.kind created).edit draft.edits

end DeferredWork

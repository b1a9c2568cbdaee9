import DeferredWork.Identifier
import DeferredWork.Time.Instant
set_option autoImplicit false

/-!
# Jobs

A job is a stored unit of deferred work.  Its lock fields say which engine holds it and until when,
its retries say how many more executions may fail, and its revision counts the writes it has seen.
This module decides when a job can be acquired and what becomes of it when it fails or recurs.
-/

namespace DeferredWork

/-- A stored unit of deferred work. -/
structure Job where
  id : JobId
  /-- Selects the handler. -/
  kind : String
  /-- Read by the handler alone. -/
  payload : Option String
  /-- The group the job belongs to. -/
  scope : Option ScopeId
  /-- The job does not run beside other exclusive jobs of its scope. -/
  exclusive : Bool
  /-- The job is not acquired before this instant. -/
  due : Option Instant
  /-- The engine that holds the job. -/
  owner : Option Owner
  /-- The last instant at which the lock counts. -/
  lockedUntil : Option Instant
  /-- How many more executions may fail; at zero the job is parked with an incident. -/
  retries : Nat
  /-- The retries with which each run of a recurring job starts. -/
  retriesPerRun : Nat
  /-- How many executions have failed. -/
  failures : Nat
  /-- Higher priorities run first. -/
  priority : Int
  /-- A suspended job is not acquired. -/
  suspended : Bool
  /-- A recurring job is replaced by a run this much later. -/
  interval : Option Duration
  failureMessage : Option String
  failureDetails : Option String
  /-- How many writes the stored job has seen. -/
  revision : Nat
  created : Instant
  deriving DecidableEq

namespace Job

/-- The retries of a job for which none are configured. -/
def defaultRetries : Nat := 3

/-- The most failures that are counted. -/
def maxFailures : Nat := 4294967295

/-- A job that is due at once and belongs to no scope. -/
def new (id : JobId) (kind : String) (created : Instant) : Job where
  id := id
  kind := kind
  payload := none
  scope := none
  exclusive := true
  due := none
  owner := none
  lockedUntil := none
  retries := defaultRetries
  retriesPerRun := defaultRetries
  failures := 0
  priority := 0
  suspended := false
  interval := none
  failureMessage := none
  failureDetails := none
  revision := 0
  created := created

/-- The same job with a number of retries for this run and the following ones. -/
def withRetries (job : Job) (retries : Nat) : Job :=
  { job with retries := retries, retriesPerRun := retries }

/-- The next run of a recurring job: the same definition under a new name, with fresh retries and
neither lock nor failures. -/
def nextRun (job : Job) (id : JobId) (due now : Instant) : Job :=
  { job with
    id := id
    due := some due
    owner := none
    lockedUntil := none
    retries := job.retriesPerRun
    failures := 0
    failureMessage := none
    failureDetails := none
    revision := 0
    created := now }

/-- The scope in which the job claims to run alone, if it does. -/
def exclusivityScope (job : Job) : Option ScopeId := if job.exclusive then job.scope else none

/-- The job need not wait any longer. -/
def isDue (job : Job) (now : Instant) : Bool :=
  match job.due with
  | none => true
  | some due => decide (due ≤ now)

/-- Some engine holds a lock on the job that still counts. -/
def hasLiveLock (job : Job) (now : Instant) : Bool :=
  job.owner.isSome &&
    match job.lockedUntil with
    | none => false
    | some expiry => decide (now ≤ expiry)

/-- The job carries this owner's name, whether or not the lock still counts. -/
def isLockedBy (job : Job) (owner : Owner) : Bool := job.owner == some owner

/-- The job has used up its retries. -/
def isParked (job : Job) : Bool := job.retries == 0

/-- The job can be acquired: due, active, with retries left and not held by a live lock. -/
def isAcquirable (job : Job) (now : Instant) : Bool :=
  job.isDue now && !job.suspended && decide (0 < job.retries) && !job.hasLiveLock now

/-- The job without a lock. -/
def released (job : Job) : Job := { job with owner := none, lockedUntil := none }

/-- The job locked by an owner up to an instant. -/
def lockedBy (job : Job) (owner : Owner) (expiry : Instant) : Job :=
  { job with owner := some owner, lockedUntil := some expiry }

/-- The job after one more failure. -/
def failed (job : Job) (message : String) (details : Option String) : Job :=
  { job with
    failures := min (job.failures + 1) maxFailures
    failureMessage := some message
    failureDetails := details }

/-! ## Laws of the lock -/

theorem isLockedBy_lockedBy (job : Job) (owner : Owner) (expiry : Instant) :
    (job.lockedBy owner expiry).isLockedBy owner = true := by
  simp [isLockedBy, lockedBy]

end Job

end DeferredWork

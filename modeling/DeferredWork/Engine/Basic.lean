import DeferredWork.Handler
import DeferredWork.Retry.Failure
import DeferredWork.Transaction.Commit
set_option autoImplicit false

/-!
# Engines

An engine locks due jobs in its own name and executes them with its handlers.  What it does is
written as routines, so that any number of engines can be run side by side, one call at a time.

An engine takes the lock on a job at the revision at which it polled the job, and releases a lock
only while the job still carries its name.
-/

namespace DeferredWork

/-- An engine: the name in which it locks, its limits and its handlers. -/
structure Engine (ε : Type → Type) : Type 1 where
  owner : Owner
  /-- How long a lock counts. -/
  lockDuration : Duration
  /-- The limit on the time of one transaction. -/
  limit : Duration
  backoff : Backoff
  handlers : Registry (Handler ε)
  /-- The end of each execution wakes the acquisition up. -/
  wakes : Bool := true

namespace Engine

variable {ε : Type → Type} {α : Type}

/-- Runs a command as one transaction of the engine. -/
def transact (engine : Engine ε) (command : Command ε α) :
    Routine ε (Except TransactionError α) :=
  Transaction.run engine.limit command

end Engine

/-! ## Taking and releasing locks -/

/-- The reason that a duration too long for a step of time is refused. -/
def Duration.tooLong : String := "Source duration value is out of range for the target type"

/-- The reason that a step of time breaks off when it leaves the calendar. -/
def Instant.overflow : String := "\x60DateTime + TimeDelta\x60 overflowed"

namespace Command

variable {ε : Type → Type}

/-- Locks a job at the revision that the given job carries, for a duration from now on. -/
def lockJob (job : Job) (owner : Owner) (duration : Duration) : Command ε Unit := do
  let now ← ask .now
  if Instant.maxStep < duration.nanos then
    throw (.failed { message := s!"invalid lock duration: {Duration.tooLong}" })
  else
    match now.after? duration with
    | none => abort Instant.overflow
    | some expiry => stage (.lock job owner expiry)

/-- Releases an owner's lock on a job; `false` if the owner does not hold it. -/
def releaseLock (id : JobId) (owner : Owner) : Command ε Bool := do
  match ← find id with
  | none => return false
  | some job =>
    if job.isLockedBy owner then
      stage (.update job.released)
      return true
    else return false

end Command

end DeferredWork

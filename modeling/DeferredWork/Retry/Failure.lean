import DeferredWork.Handler
import DeferredWork.Retry.Policy
set_option autoImplicit false

/-!
# Recording failures

A failed execution costs a retry.  While retries are left the job becomes due again after a wait;
with the last one gone it is parked and an incident is raised.  The record is a transaction of its
own, made after the failed one had no effect, and only by the engine that holds the job.
-/

namespace DeferredWork

/-- The wait after a number of failures.  Like what a handler says of a failure, it is there always and
at once: a record of a failure that breaks off or takes too long on their account is not described. -/
abbrev Backoff : Type := Nat → Duration

/-- What becomes of a job that failed. -/
inductive FailureDecision where
  | retry (retries : Nat) (due : Instant)
  | incident
  deriving DecidableEq

/-- How recording a failure ended. -/
inductive FailureOutcome where
  | rescheduled (retries : Nat) (due : Instant)
  | incidentRaised
  /-- The job was gone. -/
  | vanished
  deriving DecidableEq

namespace Job

variable {ε : Type → Type}

/-- The retries left after a failure: one fewer, or as many as the handler says if that is less. -/
def retriesAfterFailure (job : Job) (handler : Option (Handler ε)) : Nat :=
  let usual := job.retries - 1
  match handler with
  | none => usual
  | some handler => min (handler.retriesAfter job) usual

/-- The wait before the next attempt of a job that carries its failure: the handler's, or else that
of the backoff. -/
def delayAfterFailure (job : Job) (backoff : Backoff) (handler : Option (Handler ε))
    (error : HandlerError) : Duration :=
  ((handler.bind fun handler => handler.delayAfter job error)).getD (backoff job.failures)

/-- What becomes of a job that carries its failure. -/
def decideFailure (job : Job) (backoff : Backoff) (handler : Option (Handler ε))
    (error : HandlerError) (now : Instant) : FailureDecision :=
  let retries := job.retriesAfterFailure handler
  if retries = 0 then .incident
  else .retry retries (now.afterOrLast (job.delayAfterFailure backoff handler error))

theorem retriesAfterFailure_le (job : Job) (handler : Option (Handler ε)) :
    job.retriesAfterFailure handler ≤ job.retries - 1 := by
  unfold retriesAfterFailure
  split
  · exact Nat.le_refl _
  · exact Nat.min_le_right _ _

end Job

namespace Command

variable {ε : Type → Type}

/-- Breaks off as contention. -/
def contention {α : Type} (reason : String) : Command ε α := throw (.contention reason)

/-- Records the failure of a job that an owner holds. -/
def recordFailure (id : JobId) (owner : Owner) (error : HandlerError) (handler : Option (Handler ε))
    (backoff : Backoff) : Command ε FailureOutcome := do
  match ← find id with
  | none => return .vanished
  | some job =>
    if job.isLockedBy owner then
      let now ← ask .now
      let job := (job.failed error.message error.details).released
      match job.decideFailure backoff handler error now with
      | .retry retries due =>
        stage (.update { job with retries := retries, due := some due })
        return .rescheduled retries due
      | .incident =>
        let job := { job with retries := 0 }
        stage (.update job)
        raiseFor job error.message error.details
        return .incidentRaised
    else contention s!"job {job.id.text} is no longer locked by {owner.text}"

end Command

end DeferredWork

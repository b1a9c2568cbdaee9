import DeferredWork.Job.Basic
set_option autoImplicit false

/-!
# Incidents

An incident records that a job has used up its retries and needs an operator.  It is open until it
is resolved; a job that is raised again while its incident is open adds to the count of the open one.
-/

namespace DeferredWork

/-- The record of a job that needs an operator. -/
structure Incident where
  id : Uuid
  jobId : JobId
  kind : String
  scope : Option ScopeId
  message : String
  details : Option String
  created : Instant
  updated : Instant
  /-- How often the job was raised while this incident stayed open. -/
  occurrences : Nat
  resolved : Option Instant
  deriving DecidableEq

namespace Incident

/-- A first incident of a job. -/
def forJob (id : Uuid) (job : Job) (message : String) (details : Option String) (now : Instant) :
    Incident where
  id := id
  jobId := job.id
  kind := job.kind
  scope := job.scope
  message := message
  details := details
  created := now
  updated := now
  occurrences := 1
  resolved := none

/-- Nobody has resolved the incident yet. -/
def isOpen (incident : Incident) : Bool := incident.resolved.isNone

/-- The open incident after the job was raised once more. -/
def bumped (incident again : Incident) : Incident :=
  { incident with
    message := again.message
    details := again.details
    updated := again.updated
    occurrences := incident.occurrences + 1 }

/-- The incident resolved at an instant. -/
def resolvedAt (incident : Incident) (now : Instant) : Incident :=
  { incident with resolved := some now, updated := now }

end Incident

end DeferredWork

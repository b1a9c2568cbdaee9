import DeferredWork.Job.Incident
import DeferredWork.Json.Record
set_option autoImplicit false

/-!
# Jobs and incidents in JSON

A job and an incident are records: their fields in order, `null` for what is absent, names as
strings, times as timestamps, durations as seconds and nanoseconds.
-/

namespace DeferredWork

open Json

/-- The JSON form of a job name. -/
def JobId.toJson (id : JobId) : Json := .string id.text

/-- The JSON form of a scope name. -/
def ScopeId.toJson (id : ScopeId) : Json := .string id.text

/-- The JSON form of an owner name. -/
def Owner.toJson (owner : Owner) : Json := .string owner.text

namespace Job

/-- The fields of a job, in order. -/
def shape : RecordShape :=
  { names := ["id", "job_type", "handler_configuration", "scope_id", "exclusive", "due_date",
      "lock_owner", "lock_expiration_time", "retries_remaining", "configured_retries",
      "failed_attempts", "priority", "suspended", "repeat_interval", "last_failure_message",
      "last_failure_details", "revision", "created_at"] }

/-- The values of the fields of a job, in order. -/
def fieldValues (job : Job) : List Json :=
  [job.id.toJson, .string job.kind, ofOption .string job.payload, ofOption ScopeId.toJson job.scope,
    .bool job.exclusive, ofOption Instant.toJson job.due, ofOption Owner.toJson job.owner,
    ofOption Instant.toJson job.lockedUntil, .ofNat job.retries, .ofNat job.retriesPerRun,
    .ofNat job.failures, .ofInt job.priority, .bool job.suspended,
    ofOption Duration.toJson job.interval, ofOption .string job.failureMessage,
    ofOption .string job.failureDetails, .ofNat job.revision, job.created.toJson]

/-- The JSON form of a job. -/
def toJson (job : Job) : Json := .object (shape.names.zip job.fieldValues)

/-- The job that a JSON value stands for. -/
def ofJson? (j : Json) : Option Job := do
  match ← j.fields? shape with
  | [id, kind, payload, scope, exclusive, due, owner, lockedUntil, retries, retriesPerRun, failures,
      priority, suspended, interval, failureMessage, failureDetails, revision, created] => do
    let id ← required text? id
    let kind ← required text? kind
    let payload ← optional text? payload
    let scope ← optional text? scope
    let exclusive ← required bool? exclusive
    let due ← optional Instant.ofJson? due
    let owner ← optional text? owner
    let lockedUntil ← optional Instant.ofJson? lockedUntil
    let retries ← required (natOfBits? 32) retries
    let retriesPerRun ← required (natOfBits? 32) retriesPerRun
    let failures ← required (natOfBits? 32) failures
    let priority ← required (intOfBits? 64) priority
    let suspended ← required bool? suspended
    let interval ← optional Duration.ofJson? interval
    let failureMessage ← optional text? failureMessage
    let failureDetails ← optional text? failureDetails
    let revision ← required (natOfBits? 64) revision
    let created ← required Instant.ofJson? created
    some { id := ⟨id⟩, kind, payload, scope := scope.map .mk, exclusive, due, owner := owner.map .mk,
           lockedUntil, retries, retriesPerRun, failures, priority, suspended, interval,
           failureMessage, failureDetails, revision, created }
  | _ => none

end Job

namespace Incident

/-- The fields of an incident, in order. -/
def shape : RecordShape :=
  { names := ["id", "job_id", "job_type", "scope_id", "message", "details", "created_at",
      "updated_at", "occurrences", "resolved_at"] }

/-- The values of the fields of an incident, in order. -/
def fieldValues (incident : Incident) : List Json :=
  [.string incident.id.text, incident.jobId.toJson, .string incident.kind,
    ofOption ScopeId.toJson incident.scope, .string incident.message,
    ofOption .string incident.details, incident.created.toJson, incident.updated.toJson,
    .ofNat incident.occurrences, ofOption Instant.toJson incident.resolved]

/-- The JSON form of an incident. -/
def toJson (incident : Incident) : Json := .object (shape.names.zip incident.fieldValues)

/-- The identifier that a JSON value stands for. -/
def uuid? (j : Json) : Option Uuid := do
  let s ← j.text?
  Uuid.read? s.toList

/-- The incident that a JSON value stands for. -/
def ofJson? (j : Json) : Option Incident := do
  match ← j.fields? shape with
  | [id, jobId, kind, scope, message, details, created, updated, occurrences, resolved] => do
    let id ← required uuid? id
    let jobId ← required text? jobId
    let kind ← required text? kind
    let scope ← optional text? scope
    let message ← required text? message
    let details ← optional text? details
    let created ← required Instant.ofJson? created
    let updated ← required Instant.ofJson? updated
    let occurrences ← required (natOfBits? 32) occurrences
    let resolved ← optional Instant.ofJson? resolved
    some { id, jobId := ⟨jobId⟩, kind, scope := scope.map .mk, message, details, created, updated,
           occurrences, resolved }
  | _ => none

end Incident

end DeferredWork

import DeferredWork.Json.Basic
import DeferredWork.Store.Query
set_option autoImplicit false

/-!
# Reports on the store

How many jobs stand where at an instant, and the JSON form of these counts.
-/

namespace DeferredWork

/-- How many jobs stand where. -/
structure JobStats where
  total : Nat
  due : Nat
  scheduled : Nat
  locked : Nat
  suspended : Nat
  withIncident : Nat
  openIncidents : Nat
  deriving DecidableEq, Repr

/-- How many jobs stand where at an instant. -/
def Store.stats (s : Store) (now : Instant) : Except StoreError JobStats :=
  let count (p : Job → Bool) : Nat := s.jobs.rows.countP p
  s.answer
    { total := s.jobs.rows.length
      due := count fun job => job.isAcquirable now
      scheduled := count fun job => !job.isAcquirable now && !job.isDue now
      locked := count fun job => job.hasLiveLock now
      suspended := count fun job => job.suspended
      withIncident := count Job.isParked
      openIncidents := s.incidents.countP Incident.isOpen }

/-- The JSON form of the counts. -/
def JobStats.toJson (s : JobStats) : Json :=
  .object [("total", .ofNat s.total), ("due", .ofNat s.due), ("scheduled", .ofNat s.scheduled),
    ("locked", .ofNat s.locked), ("suspended", .ofNat s.suspended),
    ("with_incident", .ofNat s.withIncident), ("open_incidents", .ofNat s.openIncidents)]

end DeferredWork

import DeferredWork.Json.Basic
set_option autoImplicit false

/-!
# Metrics

The counters an engine keeps for its operators.
-/

namespace DeferredWork

/-- What is counted. -/
inductive Counter where
  | acquired
  | executed
  | failed
  | rejected
  | incidents
  | contention
  | storeErrors
  | cycles
  deriving DecidableEq, Repr

namespace Counter

/-- All counters, in the order of a report. -/
def all : List Counter :=
  [.acquired, .executed, .failed, .rejected, .incidents, .contention, .storeErrors, .cycles]

/-- The name of a counter in a report. -/
def name : Counter → String
  | .acquired => "jobs_acquired"
  | .executed => "jobs_executed"
  | .failed => "jobs_failed"
  | .rejected => "jobs_rejected"
  | .incidents => "incidents_created"
  | .contention => "contention_events"
  | .storeErrors => "store_errors"
  | .cycles => "acquisition_cycles"

end Counter

/-- The state of all counters.  A counter is a word of 64 bits and goes round after its greatest
value. -/
structure Metrics where
  acquired : UInt64 := 0
  executed : UInt64 := 0
  failed : UInt64 := 0
  rejected : UInt64 := 0
  incidents : UInt64 := 0
  contention : UInt64 := 0
  storeErrors : UInt64 := 0
  cycles : UInt64 := 0
  deriving DecidableEq, Repr, Inhabited

namespace Metrics

/-- The word of one counter. -/
def word (m : Metrics) : Counter → UInt64
  | .acquired => m.acquired
  | .executed => m.executed
  | .failed => m.failed
  | .rejected => m.rejected
  | .incidents => m.incidents
  | .contention => m.contention
  | .storeErrors => m.storeErrors
  | .cycles => m.cycles

/-- The number that a counter shows. -/
def get (m : Metrics) (counter : Counter) : Nat := (m.word counter).toNat

/-- The counters after `n` more events of one kind. -/
def add (m : Metrics) (n : Nat) : Counter → Metrics
  | .acquired => { m with acquired := m.acquired + .ofNat n }
  | .executed => { m with executed := m.executed + .ofNat n }
  | .failed => { m with failed := m.failed + .ofNat n }
  | .rejected => { m with rejected := m.rejected + .ofNat n }
  | .incidents => { m with incidents := m.incidents + .ofNat n }
  | .contention => { m with contention := m.contention + .ofNat n }
  | .storeErrors => { m with storeErrors := m.storeErrors + .ofNat n }
  | .cycles => { m with cycles := m.cycles + .ofNat n }

/-- The JSON form of a report. -/
def toJson (m : Metrics) : Json := .object (Counter.all.map fun c => (c.name, .ofNat (m.get c)))

end Metrics

end DeferredWork

import DeferredWork.Engine.Acquisition
import DeferredWork.Engine.Backpressure
import DeferredWork.Engine.Idle
set_option autoImplicit false

/-!
# Pacing and health

Between two acquisition cycles an engine waits.  Only a full batch of which something was dispatched
is followed by the next cycle at once; a cycle that found nothing or met a full pool is followed by
an idle wait.  An engine is healthy while it runs and its last cycles did not all fail.
-/

namespace DeferredWork

/-- What an engine knows of its load. -/
structure Pacing where
  idle : IdleBackoff
  pressure : Backpressure

namespace Pacing

/-- The pacing of an engine that starts. -/
def start (policy : BackpressurePolicy) (batch : Nat) (interval maxIdle : Duration) : Pacing where
  idle := .new interval maxIdle
  pressure := .start policy batch interval

/-- The wait after a good cycle, and the pacing from there on; none if the engine breaks off. -/
def afterCycle (overflow : Overflow) (pacing : Pacing) (report : CycleReport) (utilization : Float)
    (time : Nat) : Option (Duration × Pacing) := do
  let pressure ← pacing.pressure.observeOn overflow ⟨utilization, report.rejected, time⟩
  if report.foundNothing || decide (0 < report.rejected) then
    let (wait, idle) := pacing.idle.next
    return (max wait pressure.interval, ⟨idle, pressure⟩)
  else
    let full := decide (0 < report.dispatched) && decide (pressure.batch ≤ report.polled) &&
      !pressure.isThrottled
    return (if full then .zero else pressure.interval, ⟨pacing.idle.reset, pressure⟩)

/-- The wait after a failed cycle, and the pacing from there on. -/
def afterFailure (pacing : Pacing) : Duration × Pacing :=
  let (wait, idle) := pacing.idle.next
  (wait, { pacing with idle := idle })

/-- The pacing of an engine that was woken up. -/
def woken (pacing : Pacing) : Pacing := { pacing with idle := pacing.idle.reset }

end Pacing

/-! ## Health -/

/-- The health of an engine. -/
structure Health where
  running : Bool
  /-- How many cycles have failed since the last good one, as a word of 32 bits shows it. -/
  failures : Nat
  /-- How many failures in a row make an engine unhealthy. -/
  threshold : Nat
  deriving DecidableEq, Repr

namespace Health

/-- The health of an engine that does not run yet.  A threshold of zero counts as one. -/
def new (threshold : Nat) : Health := ⟨false, 0, max threshold 1⟩

/-- The engine runs and has not failed too often. -/
def isHealthy (h : Health) : Bool := h.running && decide (h.failures < h.threshold)

/-- The health of an engine that was started. -/
def started (h : Health) : Health := { h with running := true }

/-- The health after a good cycle. -/
def succeeded (h : Health) : Health := { h with failures := 0 }

/-- The health after a failed cycle.  The count of failures goes round after the greatest word. -/
def failed (h : Health) : Health := { h with failures := (h.failures + 1) % 4294967296 }

end Health

end DeferredWork

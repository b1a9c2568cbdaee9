import DeferredWork.Time.Duration
set_option autoImplicit false

/-!
# Idle waits and wake-ups

An engine that finds nothing to do waits longer and longer, up to a cap, and starts afresh as soon as
there is work.  A trigger cuts a wait short; wake-ups that nobody has received yet coalesce into one.
Main statement: a wait lies between the base and the cap.
-/

namespace DeferredWork

/-- The waits of an engine without work. -/
structure IdleBackoff where
  base : Duration
  cap : Duration
  /-- The wait that comes next. -/
  current : Duration
  base_le : base ≤ current
  le_cap : current ≤ cap

namespace IdleBackoff

/-- The shortest base. -/
def shortest : Duration := .ofMillis 1

/-- Waits from a base of at least a millisecond up to a cap of at least the base. -/
def new (base cap : Duration) : IdleBackoff where
  base := max base shortest
  cap := max cap (max base shortest)
  current := max base shortest
  base_le := Nat.le_refl _
  le_cap := by
    rw [Duration.le_def, Duration.nanos_max cap]
    exact Nat.le_max_right _ _

/-- The waits after one more: twice as long, up to the cap. -/
def advanced (idle : IdleBackoff) : IdleBackoff where
  base := idle.base
  cap := idle.cap
  current := min idle.current.doubled idle.cap
  base_le := by
    have h₁ := Duration.le_def.1 idle.base_le
    have h₂ := Duration.le_def.1 idle.le_cap
    have h₃ := idle.current.nanos_le
    rw [Duration.le_def, Duration.nanos_min, Duration.doubled, Duration.nanos_ofNanos]
    omega
  le_cap := by
    rw [Duration.le_def, Duration.nanos_min]
    exact Nat.min_le_right _ _

/-- The wait to apply now, and the waits after it. -/
def next (idle : IdleBackoff) : Duration × IdleBackoff := (idle.current, idle.advanced)

/-- The waits from the base on. -/
def reset (idle : IdleBackoff) : IdleBackoff where
  base := idle.base
  cap := idle.cap
  current := idle.base
  base_le := Nat.le_refl _
  le_cap := Nat.le_trans idle.base_le idle.le_cap

end IdleBackoff

/-! ## Wake-ups -/

/-- A trigger with at most one wake-up that nobody has received yet. -/
structure Trigger where
  pending : Bool := false
  deriving DecidableEq, Repr, Inhabited

namespace Trigger

/-- The trigger after a wake-up. -/
def fire (_ : Trigger) : Trigger := ⟨true⟩

/-- Whether a wake-up was pending, and the trigger without it. -/
def receive (t : Trigger) : Bool × Trigger := (t.pending, ⟨false⟩)

end Trigger

end DeferredWork

import DeferredWork.Text.Digits
set_option autoImplicit false

/-!
# Durations

A duration is a length of time, counted in nanoseconds and bounded by `2^64` seconds.  Sums and
multiples that leave this range stop at its end, so every operation is total.  The module also
writes a duration for a reader: in the largest unit whose whole part is not zero.
-/

namespace DeferredWork

/-- The number of nanoseconds in the longest duration. -/
def Duration.maxNanos : Nat := 18446744073709551616 * 1000000000 - 1

/-- A length of time in whole nanoseconds. -/
structure Duration where
  nanos : Nat
  nanos_le : nanos ≤ Duration.maxNanos
  deriving DecidableEq

namespace Duration

/-- The duration of `n` nanoseconds, or the longest one if there is none so long. -/
def ofNanos (n : Nat) : Duration := ⟨min n maxNanos, Nat.min_le_right _ _⟩

/-- The duration of `n` milliseconds, or the longest one if there is none so long. -/
def ofMillis (n : Nat) : Duration := ofNanos (n * 1000000)

/-- The duration of `n` seconds, or the longest one if there is none so long. -/
def ofSeconds (n : Nat) : Duration := ofNanos (n * 1000000000)

/-- The duration of the given seconds and nanoseconds, if there is one so long. -/
def ofParts? (seconds nanos : Nat) : Option Duration :=
  if h : seconds * 1000000000 + nanos ≤ maxNanos then some ⟨_, h⟩ else none

/-- No time at all. -/
def zero : Duration := ofNanos 0

instance : Inhabited Duration := ⟨zero⟩

/-- Whole seconds. -/
def seconds (d : Duration) : Nat := d.nanos / 1000000000

/-- Nanoseconds beyond the whole seconds. -/
def subsecond (d : Duration) : Nat := d.nanos % 1000000000

/-- Whole milliseconds. -/
def millis (d : Duration) : Nat := d.nanos / 1000000

/-- Both durations one after the other, or the longest duration. -/
def plus (d e : Duration) : Duration := ofNanos (d.nanos + e.nanos)

/-- Twice the duration, or the longest duration. -/
def doubled (d : Duration) : Duration := ofNanos (2 * d.nanos)

instance : LE Duration := ⟨fun d e => d.nanos ≤ e.nanos⟩
instance : LT Duration := ⟨fun d e => d.nanos < e.nanos⟩
instance (d e : Duration) : Decidable (d ≤ e) := inferInstanceAs (Decidable (d.nanos ≤ e.nanos))
instance (d e : Duration) : Decidable (d < e) := inferInstanceAs (Decidable (d.nanos < e.nanos))
instance : Min Duration := minOfLe
instance : Max Duration := maxOfLe

theorem le_def {d e : Duration} : d ≤ e ↔ d.nanos ≤ e.nanos := Iff.rfl

theorem lt_def {d e : Duration} : d < e ↔ d.nanos < e.nanos := Iff.rfl

@[ext]
theorem ext {d e : Duration} (h : d.nanos = e.nanos) : d = e := by
  cases d; cases e; simpa using h

theorem nanos_ofNanos (n : Nat) : (ofNanos n).nanos = min n maxNanos := rfl

theorem nanos_min (d e : Duration) : (min d e).nanos = min d.nanos e.nanos := by
  show (if d.nanos ≤ e.nanos then d else e).nanos = _
  split <;> omega

theorem nanos_max (d e : Duration) : (max d e).nanos = max d.nanos e.nanos := by
  show (if d.nanos ≤ e.nanos then e else d).nanos = _
  split <;> omega

/-- The digits of a number of whole units, the decimals behind them, and the unit. -/
def inUnit (whole width rest : Nat) (unit : String) : String :=
  String.ofList (Text.digits whole ++ Text.decimals width rest) ++ unit

/-- The duration for a reader: in the largest of `s`, `ms`, `µs` and `ns` with a whole part that is
not zero, the rest as decimals without trailing zeros. -/
def describe (d : Duration) : String :=
  if 1000000000 ≤ d.nanos then inUnit d.seconds 9 d.subsecond "s"
  else if 1000000 ≤ d.nanos then inUnit (d.nanos / 1000000) 6 (d.nanos % 1000000) "ms"
  else if 1000 ≤ d.nanos then inUnit (d.nanos / 1000) 3 (d.nanos % 1000) "µs"
  else inUnit d.nanos 0 0 "ns"

end Duration

end DeferredWork

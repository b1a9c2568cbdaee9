import DeferredWork.Time.Duration
set_option autoImplicit false

/-!
# Retry policies

A retry policy says how long to wait before the next attempt of a failed job: always the same time,
twice as long after each failure, or longer by the same amount.  A cap bounds this wait, and a jitter
then spreads the attempts of jobs that failed together; it is derived from the number of the attempt, so
equal failures wait equally long.  Delays are computed in milliseconds, in an arithmetic that is a
parameter of the formula; the policy computes in doubles.
-/

namespace DeferredWork

/-- How the wait grows from one failure to the next. -/
inductive Strategy where
  | fixed
  | exponential
  | linear
  deriving DecidableEq, Repr

namespace Strategy

/-- All strategies. -/
def all : List Strategy := [.fixed, .exponential, .linear]

/-- The name of a strategy in a configuration. -/
def name : Strategy → String
  | .fixed => "fixed"
  | .exponential => "exponential"
  | .linear => "linear"

/-- The strategy of a name. -/
def ofName? (name : String) : Option Strategy := all.find? fun s => s.name == name

theorem ofName?_name (s : Strategy) : ofName? s.name = some s := by
  cases s <;> rfl

end Strategy

/-! ## The formula -/

/-- An arithmetic in which delays can be computed. -/
structure Arithmetic (α : Type) where
  ofNat : Nat → α
  add : α → α → α
  sub : α → α → α
  mul : α → α → α
  div : α → α → α
  less : α → α → Bool
  /-- The whole part of a number above zero, and zero for all others. -/
  whole : α → Nat

namespace Arithmetic

variable {α : Type} (A : Arithmetic α)

/-- The smaller of two numbers. -/
def least (a b : α) : α := if A.less b a then b else a

/-- The larger of two numbers. -/
def greatest (a b : α) : α := if A.less a b then b else a

/-- Doubles, rounded to nearest.  The whole part stays below `2^64`. -/
def doubles : Arithmetic Float where
  ofNat := Float.ofNat
  add := (· + ·)
  sub := (· - ·)
  mul := (· * ·)
  div := (· / ·)
  less a b := a < b
  whole a := if 0 < a then a.toUInt64.toNat else 0

/-- Rational numbers, without rounding. -/
def rationals : Arithmetic Rat where
  ofNat n := (n : Rat)
  add := (· + ·)
  sub := (· - ·)
  mul := (· * ·)
  div := (· / ·)
  less a b := decide (a < b)
  whole a := a.floor.toNat

end Arithmetic

namespace Delay

variable {α : Type} (A : Arithmetic α)

/-- The most doublings of the wait. -/
def maxDoublings : Nat := 62

/-- The wait without jitter, in milliseconds. -/
def nominal (strategy : Strategy) (base cap attempt : Nat) : α :=
  let base := A.ofNat base
  let cap := A.greatest (A.ofNat cap) base
  match strategy with
  | .fixed => base
  | .exponential => A.least (A.mul base (A.ofNat (Nat.pow 2 (min (attempt - 1) maxDoublings)))) cap
  | .linear => A.least (A.mul base (A.ofNat attempt)) cap

/-- Where an attempt lies between the shortest and the longest wait, from zero to almost one. -/
def position (attempt : Nat) : α := A.div (A.ofNat (attempt * 17 % 100)) (A.ofNat 100)

/-- The deviation from a nominal wait, at most the jitter's share of it to either side. -/
def deviation (nominal jitter : α) (attempt : Nat) : α :=
  let range := A.mul nominal jitter
  if A.less (A.ofNat 0) range then
    let half := A.div (A.ofNat 1) (A.ofNat 2)
    A.mul (A.mul range (A.sub (position A attempt) half)) (A.ofNat 2)
  else A.ofNat 0

/-- The wait before an attempt, in whole milliseconds. -/
def millis (strategy : Strategy) (base cap : Nat) (jitter : α) (attempt : Nat) : Nat :=
  let wait := nominal A strategy base cap attempt
  A.whole (A.add wait (deviation A wait jitter attempt))

end Delay

/-! ## Policies -/

/-- How long to wait before the next attempt of a failed job. -/
structure RetryPolicy where
  base : Duration
  cap : Duration
  strategy : Strategy
  /-- The share of the wait by which attempts are spread to either side. -/
  jitter : Float

namespace RetryPolicy

/-- Always the same wait. -/
def fixed (wait : Duration) : RetryPolicy := ⟨wait, wait, .fixed, 0⟩

/-- Twice as long after each failure, spread by a tenth. -/
def exponential (base cap : Duration) : RetryPolicy :=
  ⟨base, cap, .exponential, Float.ofScientific 1 true 1⟩

/-- Longer by the base after each failure. -/
def linear (base cap : Duration) : RetryPolicy := ⟨base, cap, .linear, 0⟩

/-- Ten seconds after each failure. -/
def default : RetryPolicy := fixed (Duration.ofSeconds 10)

instance : Inhabited RetryPolicy := ⟨default⟩

/-- The same policy with a jitter, brought between zero and one. -/
def withJitter (policy : RetryPolicy) (jitter : Float) : RetryPolicy :=
  { policy with jitter := if jitter < 0 then 0 else if 1 < jitter then 1 else jitter }

/-- The wait after the given number of failures, none before the first, computed in some
arithmetic. -/
def delayIn {α : Type} (A : Arithmetic α) (jitter : α) (policy : RetryPolicy) (attempt : Nat) :
    Duration :=
  if attempt = 0 then .zero
  else
    .ofMillis <|
      Delay.millis A policy.strategy policy.base.millis policy.cap.millis jitter attempt

/-- The wait after the given number of failures. -/
def delay (policy : RetryPolicy) (attempt : Nat) : Duration :=
  policy.delayIn .doubles policy.jitter attempt

end RetryPolicy

end DeferredWork

import DeferredWork.Time.Duration
set_option autoImplicit false

/-!
# Backpressure

An engine whose pool refuses jobs asks for fewer at a time and less often: sustained rejections halve
the batch and double the interval between polls.  Once the pool is quiet the batch grows back step by
step and the interval returns to its base at once.

Counts are words of 64 bits, and two sums of them may be too large for a word: the rejections that
count, and the batch with a step.  An observation is described with exact sums (`Backpressure.observe`)
and as an engine makes it, in words (`Backpressure.observeOn`).
-/

namespace DeferredWork

/-- How many numbers a word of 64 bits can hold. -/
def wordSize : Nat := 18446744073709551616

/-- What a program does with a sum that has no room in a word; that depends on how it was built. -/
inductive Overflow where
  /-- It goes on with the rest that the word holds. -/
  | wraps
  /-- It breaks off. -/
  | breaksOff
  deriving DecidableEq, Repr

/-- A number as a word; none if the program breaks off. -/
def Overflow.word? (overflow : Overflow) (n : Nat) : Option Nat :=
  if n < wordSize then some n
  else
    match overflow with
    | .wraps => some (n % wordSize)
    | .breaksOff => none

/-- How an engine reacts to rejections. -/
structure BackpressurePolicy where
  /-- The batch never shrinks below this. -/
  minBatch : Nat := 1
  /-- How many rejections inside the window count as sustained. -/
  threshold : Nat := 1
  window : Duration := .ofSeconds 10
  /-- The utilization below which the pool counts as quiet. -/
  lowWater : Float := 0.5
  /-- How much the batch grows at a time. -/
  step : Nat := 1
  /-- The longest interval between polls. -/
  maxInterval : Duration := .ofSeconds 5
  deriving Inhabited

/-- What an engine observes after an acquisition cycle. -/
structure PressureSample where
  /-- Busy workers and waiting jobs per worker. -/
  utilization : Float
  /-- How many jobs the pool refused in the cycle. -/
  rejected : Nat
  /-- The time of the observation, in nanoseconds from a fixed start. -/
  time : Nat

/-- The state of the control loop. -/
structure Backpressure where
  policy : BackpressurePolicy
  /-- The batch of an engine without pressure. -/
  fullBatch : Nat
  /-- The interval of an engine without pressure. -/
  baseInterval : Duration
  batch : Nat
  interval : Duration
  /-- The times and sizes of the rejections that still count, in the order of observation. -/
  rejections : List (Nat × Nat)

namespace Backpressure

/-- A control loop without pressure. -/
def start (policy : BackpressurePolicy) (batch : Nat) (interval : Duration) : Backpressure where
  policy := policy
  fullBatch := max (max batch policy.minBatch) 1
  baseInterval := interval
  batch := max (max batch policy.minBatch) 1
  interval := interval
  rejections := []

/-- How many rejections count now. -/
def recentRejections (b : Backpressure) : Nat := b.rejections.foldr (fun r n => r.2 + n) 0

/-- The engine asks for less than it could. -/
def isThrottled (b : Backpressure) : Bool :=
  decide (b.batch < b.fullBatch) || decide (b.baseInterval < b.interval)

/-- A time lies further back than the window reaches.  A time still to come does not. -/
def isStale (b : Backpressure) (now : Nat) (rejection : Nat × Nat) : Bool :=
  decide (b.policy.window.nanos < now - rejection.1)

/-- The rejections that count after an observation.  The oldest are forgotten first, so one that is
not stale keeps those after it. -/
def counted (b : Backpressure) (sample : PressureSample) : List (Nat × Nat) :=
  b.rejections.dropWhile (b.isStale sample.time) ++
    if sample.rejected = 0 then [] else [(sample.time, sample.rejected)]

/-- Half the batch and twice the interval, within their bounds. -/
def throttled (b : Backpressure) : Backpressure :=
  { b with
    batch := max (max (b.batch / 2) b.policy.minBatch) 1
    interval :=
      min (max b.interval (.ofMillis 1)).doubled (max b.policy.maxInterval b.baseInterval) }

/-- The state with the rejections that count after an observation. -/
def noting (b : Backpressure) (sample : PressureSample) : Backpressure :=
  { b with rejections := b.counted sample }

/-- A batch of the given size, if that is not beyond the full one, and the base interval. -/
def grown (b : Backpressure) (batch : Nat) : Backpressure :=
  { b with
    batch := min batch b.fullBatch
    interval := b.baseInterval }

/-- One step towards the full batch, and the base interval. -/
def relaxed (b : Backpressure) : Backpressure := b.grown (b.batch + b.policy.step)

/-- The state after an observation, with exact sums. -/
def observe (b : Backpressure) (sample : PressureSample) : Backpressure :=
  let b := b.noting sample
  if 0 < sample.rejected ∧ b.policy.threshold ≤ b.recentRejections then b.throttled
  else if sample.utilization < b.policy.lowWater ∧ b.recentRejections = 0 then b.relaxed
  else b

/-! ## In words -/

/-- How many rejections count now, added up in words. -/
def recentRejectionsOn (overflow : Overflow) (b : Backpressure) : Option Nat :=
  b.rejections.foldlM (fun total r => overflow.word? (total + r.2)) 0

/-- The observation has rejections, and enough of them count to throttle the engine. -/
def isPressed (overflow : Overflow) (b : Backpressure) (sample : PressureSample) : Option Bool :=
  if 0 < sample.rejected then
    (b.recentRejectionsOn overflow).map fun total => decide (b.policy.threshold ≤ total)
  else some false

/-- The utilization is below the low water, and no rejection counts. -/
def isQuiet (overflow : Overflow) (b : Backpressure) (sample : PressureSample) : Option Bool :=
  if sample.utilization < b.policy.lowWater then
    (b.recentRejectionsOn overflow).map fun total => total == 0
  else some false

/-- The state after an observation in a program that counts in words; none if it breaks off.  While
the sums have room in words, it is the state with exact sums. -/
def observeOn (overflow : Overflow) (b : Backpressure) (sample : PressureSample) :
    Option Backpressure := do
  let b := b.noting sample
  if ← b.isPressed overflow sample then return b.throttled
  else if ← b.isQuiet overflow sample then
    return b.grown (← overflow.word? (b.batch + b.policy.step))
  else return b

end Backpressure

end DeferredWork

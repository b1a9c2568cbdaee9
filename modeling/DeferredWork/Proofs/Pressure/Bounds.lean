import Mathlib.Algebra.Ring.Nat
import Mathlib.Data.List.Induction
import DeferredWork.Engine.Backpressure

set_option autoImplicit false

/-!
# The bounds of backpressure

An observation throttles, relaxes or holds (`Backpressure.responds_observe`), and each of the three
keeps the batch and the interval within bounds that the policy sets once and for all, whatever is
observed and in whatever order of time (`Backpressure.stays_within_bounds`).

Sums are exact here.  An engine, which counts in words, does the same as long as the full batch with a
step and all rejections together have room in a word (`Backpressure.observeAllOn_eq_some`).
-/

namespace DeferredWork.Backpressure

/-! ## One observation -/

/-- What an observation makes of a state. -/
inductive Responds (b : Backpressure) (sample : PressureSample) : Backpressure → Prop
  | throttled (hrejected : 0 < sample.rejected)
      (hreached : b.policy.threshold ≤ (b.noting sample).recentRejections) :
      Responds b sample (b.noting sample).throttled
  | relaxed (hnone : sample.rejected = 0) (hbelow : sample.utilization < b.policy.lowWater)
      (hclear : (b.noting sample).recentRejections = 0) :
      Responds b sample (b.noting sample).relaxed
  | held
      (hshort :
        ¬ (0 < sample.rejected ∧ b.policy.threshold ≤ (b.noting sample).recentRejections))
      (hbusy :
        ¬ (sample.utilization < b.policy.lowWater ∧ (b.noting sample).recentRejections = 0)) :
      Responds b sample (b.noting sample)

theorem recentRejections_eq_sum (b : Backpressure) :
    b.recentRejections = (b.rejections.map Prod.snd).sum := by
  rw [recentRejections, List.sum_eq_foldr, List.foldr_map]

/-- The rejections of an observation count at once. -/
theorem rejected_le_recentRejections (b : Backpressure) (sample : PressureSample) :
    sample.rejected ≤ (b.noting sample).recentRejections := by
  rw [recentRejections_eq_sum, noting, counted, List.map_append, List.sum_append]
  split
  · omega
  · simp

theorem responds_observe (b : Backpressure) (sample : PressureSample) :
    b.Responds sample (b.observe sample) := by
  have hnoted := b.rejected_le_recentRejections sample
  show b.Responds sample
    (if 0 < sample.rejected ∧ b.policy.threshold ≤ (b.noting sample).recentRejections then
      (b.noting sample).throttled
    else if sample.utilization < b.policy.lowWater ∧ (b.noting sample).recentRejections = 0 then
      (b.noting sample).relaxed
    else b.noting sample)
  split
  · rename_i h
    exact .throttled h.1 h.2
  · rename_i hshort
    split
    · rename_i h
      exact .relaxed (by omega) h.1 h.2
    · rename_i hbusy
      exact .held hshort hbusy

theorem Responds.rejections_eq {b b' : Backpressure} {sample : PressureSample}
    (h : b.Responds sample b') : b'.rejections = b.counted sample := by
  cases h <;> rfl

/-! ## The invariant -/

/-- The terms under which a control loop started, and the bounds that they set. -/
structure IsWithin (policy : BackpressurePolicy) (batch : Nat) (interval : Duration)
    (b : Backpressure) : Prop where
  policy_eq : b.policy = policy
  fullBatch_eq : b.fullBatch = max (max batch policy.minBatch) 1
  baseInterval_eq : b.baseInterval = interval
  minBatch_le : max policy.minBatch 1 ≤ b.batch
  batch_le : b.batch ≤ max (max batch policy.minBatch) 1
  base_le : interval ≤ b.interval
  interval_le : b.interval ≤ max interval policy.maxInterval

variable {policy : BackpressurePolicy} {batch : Nat} {interval : Duration} {b b' : Backpressure}
  {sample : PressureSample}

theorem isWithin_start (policy : BackpressurePolicy) (batch : Nat) (interval : Duration) :
    (start policy batch interval).IsWithin policy batch interval where
  policy_eq := rfl
  fullBatch_eq := rfl
  baseInterval_eq := rfl
  minBatch_le := by
    show max policy.minBatch 1 ≤ max (max batch policy.minBatch) 1
    omega
  batch_le := Nat.le_refl _
  base_le := Nat.le_refl _
  interval_le := by
    rw [Duration.le_def, Duration.nanos_max]
    exact Nat.le_max_left _ _

/-- The interval doubles, but not beyond its bounds. -/
theorem nanos_interval_throttled (b : Backpressure) :
    b.throttled.interval.nanos =
      min (min (2 * max b.interval.nanos (Duration.ofMillis 1).nanos) Duration.maxNanos)
        (max b.policy.maxInterval.nanos b.baseInterval.nanos) := by
  rw [throttled, Duration.nanos_min, Duration.nanos_max b.policy.maxInterval, Duration.doubled,
    Duration.nanos_ofNanos, Duration.nanos_max]

theorem IsWithin.throttled (h : b.IsWithin policy batch interval) :
    b.throttled.IsWithin policy batch interval where
  policy_eq := h.policy_eq
  fullBatch_eq := h.fullBatch_eq
  baseInterval_eq := h.baseInterval_eq
  minBatch_le := by
    show _ ≤ max (max (b.batch / 2) b.policy.minBatch) 1
    rw [h.policy_eq]
    omega
  batch_le := by
    have hbatch := h.batch_le
    show max (max (b.batch / 2) b.policy.minBatch) 1 ≤ _
    rw [h.policy_eq]
    omega
  base_le := by
    have hbase := Duration.le_def.1 h.base_le
    have hlong := interval.nanos_le
    rw [Duration.le_def, nanos_interval_throttled, h.policy_eq, h.baseInterval_eq]
    omega
  interval_le := by
    rw [Duration.le_def, nanos_interval_throttled, h.policy_eq, h.baseInterval_eq,
      Duration.nanos_max]
    omega

theorem IsWithin.relaxed (h : b.IsWithin policy batch interval) :
    b.relaxed.IsWithin policy batch interval where
  policy_eq := h.policy_eq
  fullBatch_eq := h.fullBatch_eq
  baseInterval_eq := h.baseInterval_eq
  minBatch_le := by
    have hbatch := h.minBatch_le
    show _ ≤ min (b.batch + b.policy.step) b.fullBatch
    rw [h.fullBatch_eq]
    omega
  batch_le := by
    show min (b.batch + b.policy.step) b.fullBatch ≤ _
    rw [h.fullBatch_eq]
    exact Nat.min_le_right _ _
  base_le := by
    show _ ≤ b.baseInterval
    rw [h.baseInterval_eq]
    exact Nat.le_refl _
  interval_le := by
    show b.baseInterval ≤ _
    rw [h.baseInterval_eq, Duration.le_def, Duration.nanos_max]
    exact Nat.le_max_left _ _

theorem IsWithin.noting (h : b.IsWithin policy batch interval) (sample : PressureSample) :
    (b.noting sample).IsWithin policy batch interval :=
  { h with }

theorem IsWithin.responds (h : b.IsWithin policy batch interval)
    (hresponds : b.Responds sample b') : b'.IsWithin policy batch interval := by
  cases hresponds with
  | throttled => exact (h.noting sample).throttled
  | relaxed => exact (h.noting sample).relaxed
  | held => exact h.noting sample

theorem IsWithin.observe (h : b.IsWithin policy batch interval) (sample : PressureSample) :
    (b.observe sample).IsWithin policy batch interval :=
  h.responds (b.responds_observe sample)

/-! ## The direction of a response -/

/-- With rejections the batch does not grow, nor does the interval shrink. -/
theorem IsWithin.tightens (h : b.IsWithin policy batch interval) (hresponds : b.Responds sample b')
    (hrejected : 0 < sample.rejected) : b'.batch ≤ b.batch ∧ b.interval ≤ b'.interval := by
  cases hresponds with
  | throttled =>
    constructor
    · have hbatch := h.minBatch_le
      show max (max (b.batch / 2) b.policy.minBatch) 1 ≤ b.batch
      rw [h.policy_eq]
      omega
    · have hinterval := Duration.le_def.1 h.interval_le
      have hlong := b.interval.nanos_le
      rw [Duration.nanos_max] at hinterval
      rw [Duration.le_def, nanos_interval_throttled]
      show b.interval.nanos ≤ min (min (2 * max b.interval.nanos _) _)
        (max b.policy.maxInterval.nanos b.baseInterval.nanos)
      rw [h.policy_eq, h.baseInterval_eq]
      omega
  | relaxed hnone => omega
  | held => exact ⟨Nat.le_refl _, Nat.le_refl _⟩

/-- Without rejections the batch does not shrink, nor does the interval grow. -/
theorem IsWithin.loosens (h : b.IsWithin policy batch interval) (hresponds : b.Responds sample b')
    (hnone : sample.rejected = 0) : b.batch ≤ b'.batch ∧ b'.interval ≤ b.interval := by
  cases hresponds with
  | throttled hrejected => omega
  | relaxed =>
    constructor
    · have hbatch := h.batch_le
      show b.batch ≤ min (b.batch + b.policy.step) b.fullBatch
      rw [h.fullBatch_eq]
      omega
    · show b.baseInterval ≤ b.interval
      rw [h.baseInterval_eq]
      exact h.base_le
  | held => exact ⟨Nat.le_refl _, Nat.le_refl _⟩

/-- The batch grows only once no rejection counts. -/
theorem IsWithin.clear_of_growth (h : b.IsWithin policy batch interval)
    (hresponds : b.Responds sample b') (hgrown : b.batch < b'.batch) : b'.recentRejections = 0 := by
  cases hresponds with
  | throttled hrejected hreached =>
    have htightened := (h.tightens (.throttled hrejected hreached) hrejected).1
    omega
  | relaxed _ _ hclear => exact hclear
  | held => exact absurd hgrown (Nat.lt_irrefl _)

/-! ## Sequences of observations -/

/-- The state after a sequence of observations. -/
def observeAll (b : Backpressure) (samples : List PressureSample) : Backpressure :=
  samples.foldl observe b

theorem observeAll_append (b : Backpressure) (earlier later : List PressureSample) :
    b.observeAll (earlier ++ later) = (b.observeAll earlier).observeAll later :=
  List.foldl_append ..

theorem observeAll_concat (b : Backpressure) (earlier : List PressureSample)
    (sample : PressureSample) :
    b.observeAll (earlier ++ [sample]) = (b.observeAll earlier).observe sample :=
  b.observeAll_append earlier [sample]

theorem IsWithin.observeAll (h : b.IsWithin policy batch interval) (samples : List PressureSample) :
    (b.observeAll samples).IsWithin policy batch interval := by
  induction samples generalizing b with
  | nil => exact h
  | cons sample samples ih => exact ih (h.observe sample)

/-- The bounds hold from the start on. -/
theorem isWithin_observeAll (policy : BackpressurePolicy) (batch : Nat) (interval : Duration)
    (samples : List PressureSample) :
    ((start policy batch interval).observeAll samples).IsWithin policy batch interval :=
  (isWithin_start policy batch interval).observeAll samples

/-- After every observation of every sequence the batch lies between its least size and the full
one, and the interval between the base and the longest one; rejections only tighten, their absence
only loosens, and the batch grows only once no rejection counts. -/
theorem stays_within_bounds (policy : BackpressurePolicy) (batch : Nat) (interval : Duration)
    (earlier : List PressureSample) (sample : PressureSample) :
    let before := (start policy batch interval).observeAll earlier
    let after := before.observe sample
    (max policy.minBatch 1 ≤ after.batch ∧ after.batch ≤ max (max batch policy.minBatch) 1) ∧
      (interval ≤ after.interval ∧ after.interval ≤ max interval policy.maxInterval) ∧
      (0 < sample.rejected → after.batch ≤ before.batch ∧ before.interval ≤ after.interval) ∧
      (sample.rejected = 0 → before.batch ≤ after.batch ∧ after.interval ≤ before.interval) ∧
      (before.batch < after.batch → after.recentRejections = 0) := by
  intro before after
  have hbefore := isWithin_observeAll policy batch interval earlier
  have hafter := hbefore.observe sample
  have hresponds : before.Responds sample after := before.responds_observe sample
  exact ⟨⟨hafter.minBatch_le, hafter.batch_le⟩, ⟨hafter.base_le, hafter.interval_le⟩,
    hbefore.tightens hresponds, hbefore.loosens hresponds, hbefore.clear_of_growth hresponds⟩

end DeferredWork.Backpressure

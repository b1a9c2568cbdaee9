import DeferredWork.Proofs.Pressure.Window

set_option autoImplicit false

/-!
# Backpressure in words

An engine adds up rejections, and a step to its batch, in words.  Cutting the sums to words on the way
makes no difference to cutting the exact sum (`Backpressure.recentRejectionsOn_eq`), so as long as the
sums have room the engine does what is said of exact ones (`Backpressure.observeAllOn_eq_some`).

Where a sum of rejections has no room, the engine may be throttled or relaxed at another time.  It keeps
the same rejections all the same, since it forgets them by their time (`Backpressure.alike_observeAllOn`),
and stays within its bounds if only its steps have room (`Backpressure.isWithin_observeAllOn`).
-/

namespace DeferredWork

/-! ## Words -/

namespace Overflow

variable {overflow : Overflow} {n : Nat}

theorem word?_of_lt (h : n < wordSize) : overflow.word? n = some n := if_pos h

/-- A number that is too large for a word, but not for two, loses the size of one. -/
theorem add_wordSize_of_word? {w : Nat} (hbig : wordSize ≤ n) (hless : n < 2 * wordSize)
    (h : overflow.word? n = some w) : w + wordSize = n := by
  unfold word? at h
  rw [if_neg (Nat.not_lt.2 hbig)] at h
  cases overflow with
  | wraps =>
    cases h
    rw [Nat.mod_eq_sub_mod hbig, Nat.mod_eq_of_lt (by omega)]
    omega
  | breaksOff => cases h

/-- A summand that is cut to a word first does not change the word of the sum. -/
theorem word?_bind_word? (overflow : Overflow) (m n : Nat) :
    ((overflow.word? m).bind fun w => overflow.word? (w + n)) = overflow.word? (m + n) := by
  by_cases hm : m < wordSize
  · rw [word?_of_lt hm, Option.bind_some]
  · have hsum : ¬ m + n < wordSize := by omega
    cases overflow with
    | breaksOff => rw [word?, if_neg hm, word?, if_neg hsum, Option.bind_none]
    | wraps =>
      rw [word?, if_neg hm, Option.bind_some, word?, word?, if_neg hsum, Nat.mod_add_mod]
      split
      · rename_i hrest
        rw [← Nat.mod_add_mod, Nat.mod_eq_of_lt hrest]
      · rfl

end Overflow

open PressureSample

namespace Backpressure

variable {overflow : Overflow} {policy : BackpressurePolicy} {batch : Nat} {interval : Duration}
  {b b' c : Backpressure} {sample : PressureSample} {samples : List PressureSample}

theorem foldlM_word? (overflow : Overflow) (rejections : List (Nat × Nat)) (total : Nat) :
    ((overflow.word? total).bind fun total =>
      rejections.foldlM (fun total r => overflow.word? (total + r.2)) total) =
      overflow.word? (total + (rejections.map Prod.snd).sum) := by
  induction rejections generalizing total with
  | nil => simp
  | cons r rejections ih =>
    rw [List.map_cons, List.sum_cons, ← Nat.add_assoc, ← ih, ← Overflow.word?_bind_word?,
      Option.bind_assoc]
    rfl

/-- What counts in words is the word of what counts. -/
theorem recentRejectionsOn_eq (overflow : Overflow) (b : Backpressure) :
    b.recentRejectionsOn overflow = overflow.word? b.recentRejections := by
  have hnone : overflow.word? 0 = some 0 := Overflow.word?_of_lt (by decide)
  have hsum := foldlM_word? overflow b.rejections 0
  rwa [hnone, Option.bind_some, Nat.zero_add, ← recentRejections_eq_sum] at hsum

/-! ## While there is room -/

theorem isPressed_eq (hcount : b.recentRejections < wordSize) :
    b.isPressed overflow sample =
      some (decide (0 < sample.rejected ∧ b.policy.threshold ≤ b.recentRejections)) := by
  rw [isPressed, recentRejectionsOn_eq, Overflow.word?_of_lt hcount, Option.map_some]
  split
  · rename_i hrejected
    simp [hrejected]
  · rename_i hnone
    simp [hnone]

theorem isQuiet_eq (hcount : b.recentRejections < wordSize) :
    b.isQuiet overflow sample =
      some (decide (sample.utilization < b.policy.lowWater ∧ b.recentRejections = 0)) := by
  rw [isQuiet, recentRejectionsOn_eq, Overflow.word?_of_lt hcount, Option.map_some]
  split
  · rename_i hbelow
    simp [hbelow, beq_eq_decide]
  · rename_i hbusy
    simp [hbusy]

/-- If the sums have room, an observation is the exact one. -/
theorem observeOn_eq_some (hcount : (b.noting sample).recentRejections < wordSize)
    (hstep : b.batch + b.policy.step < wordSize) :
    b.observeOn overflow sample = some (b.observe sample) := by
  unfold observeOn observe
  simp only [isPressed_eq hcount, isQuiet_eq hcount, Option.bind_eq_bind, Option.bind_some,
    decide_eq_true_eq]
  split
  · rfl
  · split
    · have hword : overflow.word? ((b.noting sample).batch + (b.noting sample).policy.step) =
          some (b.batch + b.policy.step) := Overflow.word?_of_lt hstep
      rw [hword]
      rfl
    · rfl

/-- The rejections that count after an observation are among those before and its own. -/
theorem recentRejections_noting_le (b : Backpressure) (sample : PressureSample) :
    (b.noting sample).recentRejections ≤ b.recentRejections + sample.rejected := by
  have hkept : ((b.rejections.dropWhile (b.isStale sample.time)).map Prod.snd).sum ≤
      (b.rejections.map Prod.snd).sum := by
    conv_rhs => rw [← List.takeWhile_append_dropWhile (p := b.isStale sample.time)
      (l := b.rejections), List.map_append, List.sum_append]
    exact Nat.le_add_left _ _
  rw [recentRejections_eq_sum, recentRejections_eq_sum, noting, counted, List.map_append,
    List.sum_append]
  refine Nat.add_le_add hkept ?_
  split
  · exact Nat.zero_le _
  · simp

/-- What counts was rejected at some time. -/
theorem recentRejections_observeAll_le (policy : BackpressurePolicy) (batch : Nat)
    (interval : Duration) (samples : List PressureSample) :
    ((start policy batch interval).observeAll samples).recentRejections ≤
      (samples.map rejected).sum := by
  induction samples using List.reverseRecOn with
  | nil => exact Nat.le_refl _
  | append_singleton samples sample ih =>
    have hnoted := recentRejections_noting_le ((start policy batch interval).observeAll samples) sample
    have hsame : (((start policy batch interval).observeAll samples).observe sample).recentRejections =
        (((start policy batch interval).observeAll samples).noting sample).recentRejections := by
      rw [recentRejections, (responds_observe _ _).rejections_eq]
      rfl
    rw [observeAll_concat, hsame, List.map_append, List.sum_append, List.map_singleton,
      List.sum_singleton]
    omega

/-! ## Sequences of observations -/

/-- The state after a sequence of observations in words. -/
def observeAllOn (overflow : Overflow) (b : Backpressure) (samples : List PressureSample) :
    Option Backpressure :=
  samples.foldlM (observeOn overflow) b

theorem observeAllOn_append (overflow : Overflow) (b : Backpressure)
    (earlier later : List PressureSample) :
    b.observeAllOn overflow (earlier ++ later) =
      (b.observeAllOn overflow earlier).bind fun b => b.observeAllOn overflow later :=
  List.foldlM_append

theorem observeAllOn_concat (overflow : Overflow) (b : Backpressure) (earlier : List PressureSample)
    (sample : PressureSample) :
    b.observeAllOn overflow (earlier ++ [sample]) =
      (b.observeAllOn overflow earlier).bind fun b => b.observeOn overflow sample := by
  rw [observeAllOn_append]
  simp [observeAllOn]

/-- As long as the full batch with a step has room in a word, and so have all rejections together,
observations are the exact ones. -/
theorem observeAllOn_eq_some
    (hstep : max (max batch policy.minBatch) 1 + policy.step < wordSize)
    (hrejected : (samples.map rejected).sum < wordSize) :
    (start policy batch interval).observeAllOn overflow samples =
      some ((start policy batch interval).observeAll samples) := by
  induction samples using List.reverseRecOn with
  | nil => rfl
  | append_singleton samples sample ih =>
    rw [List.map_append, List.sum_append, List.map_singleton, List.sum_singleton] at hrejected
    have hwithin := isWithin_observeAll policy batch interval samples
    have hbatch := hwithin.batch_le
    have hcount := recentRejections_observeAll_le policy batch interval samples
    have hnoted := recentRejections_noting_le ((start policy batch interval).observeAll samples) sample
    rw [observeAllOn_concat, ih (by omega), Option.bind_some, observeAll_concat]
    refine observeOn_eq_some (by omega) ?_
    rw [hwithin.policy_eq]
    omega

/-! ## Where there is no room -/

/-- What an observation in words can make of a state. -/
theorem observeOn_cases (h : b.observeOn overflow sample = some b') :
    b' = (b.noting sample).throttled ∨ b' = b.noting sample ∨
      ∃ grown, overflow.word? (b.batch + b.policy.step) = some grown ∧
        b' = (b.noting sample).grown grown := by
  unfold observeOn at h
  simp only [Option.bind_eq_bind, Option.bind_eq_some_iff] at h
  obtain ⟨pressed, -, h⟩ := h
  split at h
  · exact .inl (Option.some.inj h).symm
  · obtain ⟨quiet, -, h⟩ := Option.bind_eq_some_iff.1 h
    split at h
    · obtain ⟨grown, hgrown, h⟩ := Option.bind_eq_some_iff.1 h
      exact .inr (.inr ⟨grown, hgrown, (Option.some.inj h).symm⟩)
    · exact .inr (.inl (Option.some.inj h).symm)

/-- Two states that keep the same rejections under the same terms; their batches and intervals may
differ. -/
structure Alike (b c : Backpressure) : Prop where
  policy_eq : b.policy = c.policy
  fullBatch_eq : b.fullBatch = c.fullBatch
  baseInterval_eq : b.baseInterval = c.baseInterval
  rejections_eq : b.rejections = c.rejections

theorem Alike.rejections_noting (h : b.Alike c) (sample : PressureSample) :
    (b.noting sample).rejections = (c.noting sample).rejections := by
  show b.counted sample = c.counted sample
  unfold counted isStale
  rw [h.policy_eq, h.rejections_eq]

theorem Alike.observe (h : b.Alike c) (hobserved : b.observeOn overflow sample = some b') :
    b'.Alike (c.observe sample) := by
  have hkept := h.rejections_noting sample
  have hleft : b'.Alike (b.noting sample) := by
    rcases observeOn_cases hobserved with rfl | rfl | ⟨grown, -, rfl⟩ <;> exact ⟨rfl, rfl, rfl, rfl⟩
  have hright : (c.noting sample).Alike (c.observe sample) := by
    have hresponds := c.responds_observe sample
    generalize c.observe sample = c' at hresponds
    cases hresponds <;> exact ⟨rfl, rfl, rfl, rfl⟩
  exact
    ⟨(hleft.policy_eq.trans h.policy_eq).trans hright.policy_eq,
      (hleft.fullBatch_eq.trans h.fullBatch_eq).trans hright.fullBatch_eq,
      (hleft.baseInterval_eq.trans h.baseInterval_eq).trans hright.baseInterval_eq,
      (hleft.rejections_eq.trans hkept).trans hright.rejections_eq⟩

/-- Whatever becomes of its sums, an engine that does not break off keeps the rejections that it would
keep with exact ones. -/
theorem alike_observeAllOn
    (h : (start policy batch interval).observeAllOn overflow samples = some b) :
    b.Alike ((start policy batch interval).observeAll samples) := by
  induction samples using List.reverseRecOn generalizing b with
  | nil =>
    cases h
    exact ⟨rfl, rfl, rfl, rfl⟩
  | append_singleton samples sample ih =>
    rw [observeAllOn_concat] at h
    obtain ⟨before, hbefore, hobserved⟩ := Option.bind_eq_some_iff.1 h
    rw [observeAll_concat]
    exact (ih hbefore).observe hobserved

theorem IsWithin.observeOn (h : b.IsWithin policy batch interval)
    (hstep : max (max batch policy.minBatch) 1 + policy.step < wordSize)
    (hobserved : b.observeOn overflow sample = some b') : b'.IsWithin policy batch interval := by
  have hnoted := h.noting sample
  rcases observeOn_cases hobserved with rfl | rfl | ⟨grown, hgrown, rfl⟩
  · exact hnoted.throttled
  · exact hnoted
  · have hbatch := h.batch_le
    rw [Overflow.word?_of_lt (by rw [h.policy_eq]; omega)] at hgrown
    cases hgrown
    exact hnoted.relaxed

/-- If the full batch with a step has room in a word, the bounds hold in words, whatever becomes of the
sums of rejections. -/
theorem isWithin_observeAllOn
    (hstep : max (max batch policy.minBatch) 1 + policy.step < wordSize)
    (h : (start policy batch interval).observeAllOn overflow samples = some b) :
    b.IsWithin policy batch interval := by
  induction samples using List.reverseRecOn generalizing b with
  | nil =>
    cases h
    exact isWithin_start policy batch interval
  | append_singleton samples sample ih =>
    rw [observeAllOn_concat] at h
    obtain ⟨before, hbefore, hobserved⟩ := Option.bind_eq_some_iff.1 h
    exact (ih hbefore).observeOn hstep hobserved

end Backpressure

end DeferredWork

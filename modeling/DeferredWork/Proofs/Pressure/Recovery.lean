import DeferredWork.Proofs.Pressure.Words
import DeferredWork.Proofs.Settings.Rules
import DeferredWork.Settings.Node

set_option autoImplicit false

/-!
# How backpressure ends

Quiet observations, made more than a window after the last rejection, bring the interval back at
once and the batch back by one step each (`Backpressure.observeAllOn_quiet`), if the full batch with a
step has room in a word.  So an engine whose settings are accepted comes to rest again, however hard it
was pressed and whatever it does with sums that are too large, exactly if there is this room, and the
step is not zero or the batch cannot shrink in the first place (`Settings.letsGo_iff`).  The rules for
settings demand neither: without a step, a batch that was halved once stays halved
(`Settings.halved_batch_stays_without_step`).
-/

namespace DeferredWork

/-! ## Quiet observations -/

namespace PressureSample

/-- The last observation of rejections. -/
def lastRejection? (samples : List PressureSample) : Option PressureSample :=
  (samples.filter hasRejections).getLast?

/-- Quiet observations follow a history: none has rejections, the utilization is below the low
water, each is made more than a window after the last rejection, and time does not run backwards. -/
structure QuietAfter (policy : BackpressurePolicy) (history quiet : List PressureSample) :
    Prop where
  chronological : Chronological (history ++ quiet)
  none_rejected : ∀ sample ∈ quiet, sample.rejected = 0
  below : ∀ sample ∈ quiet, sample.utilization < policy.lowWater
  late : ∀ sample ∈ quiet, ∀ last, lastRejection? history = some last →
    policy.window.nanos < sample.time - last.time

variable {policy : BackpressurePolicy} {history quiet samples : List PressureSample}
  {sample last : PressureSample}

/-- No rejection is observed later than the last one. -/
theorem time_le_lastRejection (h : Chronological samples) (hmem : sample ∈ samples)
    (hrejected : sample.hasRejections = true) :
    ∃ last, lastRejection? samples = some last ∧ sample.time ≤ last.time := by
  have hfiltered : sample ∈ samples.filter hasRejections := List.mem_filter.2 ⟨hmem, hrejected⟩
  have hne : samples.filter hasRejections ≠ [] := List.ne_nil_of_mem hfiltered
  refine ⟨(samples.filter hasRejections).getLast hne, List.getLast?_eq_some_getLast hne, ?_⟩
  have hsorted : Chronological (samples.filter hasRejections) := h.filter _
  rw [← List.dropLast_concat_getLast hne] at hfiltered hsorted
  rcases List.mem_append.1 hfiltered with hearlier | hlast
  · exact (chronological_concat.1 hsorted).2 sample hearlier
  · exact Nat.le_of_eq (congrArg time (List.mem_singleton.1 hlast))

theorem QuietAfter.init (h : QuietAfter policy history (quiet ++ [sample])) :
    QuietAfter policy history quiet where
  chronological := by
    have hall := h.chronological
    rw [← List.append_assoc] at hall
    exact (chronological_concat.1 hall).1
  none_rejected s hs := h.none_rejected s (List.mem_append_left _ hs)
  below s hs := h.below s (List.mem_append_left _ hs)
  late s hs := h.late s (List.mem_append_left _ hs)

/-- Within a window of a quiet observation nothing was rejected. -/
theorem QuietAfter.rejectedWithin_eq_zero (h : QuietAfter policy history (quiet ++ [sample])) :
    rejectedWithin policy.window sample.time (history ++ quiet ++ [sample]) = 0 := by
  have hlast : sample ∈ quiet ++ [sample] := List.mem_append_right _ List.mem_cons_self
  rw [rejectedWithin, List.append_assoc]
  refine List.sum_eq_zero_iff_forall_eq_nat.2 fun n hn => ?_
  obtain ⟨s, hs, rfl⟩ := List.mem_map.1 hn
  obtain ⟨hs, hwithin⟩ := List.mem_filter.1 hs
  rcases List.mem_append.1 hs with hhistory | hquiet
  · by_contra hrejected
    have hhas : s.hasRejections = true := decide_eq_true (Nat.pos_of_ne_zero hrejected)
    obtain ⟨last, hsome, hle⟩ :=
      time_le_lastRejection (chronological_append.1 h.chronological).1 hhistory hhas
    have hlate := h.late sample hlast last hsome
    have hrecent : sample.time - s.time ≤ policy.window.nanos := of_decide_eq_true hwithin
    omega
  · exact h.none_rejected s hquiet

end PressureSample

open PressureSample

/-! ## Back to rest -/

namespace Backpressure

variable {overflow : Overflow} {policy : BackpressurePolicy} {batch : Nat} {interval : Duration}
  {b : Backpressure} {history quiet : List PressureSample} {sample : PressureSample}

/-- The batch is full, the interval is the base, and the engine is not throttled. -/
def IsAtRest (b : Backpressure) : Prop :=
  b.batch = b.fullBatch ∧ b.interval = b.baseInterval ∧ b.isThrottled = false

theorem isAtRest_of_eq {b : Backpressure} (hbatch : b.batch = b.fullBatch)
    (hinterval : b.interval = b.baseInterval) : b.IsAtRest := by
  refine ⟨hbatch, hinterval, ?_⟩
  rw [isThrottled, hbatch, hinterval]
  simp [Duration.lt_def]

/-- A quiet observation takes a step, whatever becomes of it in a word. -/
theorem observeOn_quiet (h : QuietAfter policy history (quiet ++ [sample]))
    (hb : (start policy batch interval).observeAllOn overflow (history ++ quiet) = some b) :
    b.observeOn overflow sample =
      (overflow.word? (b.batch + policy.step)).map (b.noting sample).grown := by
  have hlast : sample ∈ quiet ++ [sample] := List.mem_append_right _ List.mem_cons_self
  have halike := alike_observeAllOn hb
  have hpolicy : b.policy = policy :=
    halike.policy_eq.trans (isWithin_observeAll policy batch interval (history ++ quiet)).policy_eq
  have hclear : (b.noting sample).recentRejections = 0 := by
    rw [recentRejections, halike.rejections_noting sample]
    have hsorted : Chronological (history ++ quiet ++ [sample]) := by
      rw [List.append_assoc]
      exact h.chronological
    exact (recentRejections_noting hsorted).trans h.rejectedWithin_eq_zero
  have hroom : (b.noting sample).recentRejections < wordSize := by
    rw [hclear]
    decide
  have hnone : ¬ 0 < sample.rejected := Nat.not_lt.2 (Nat.le_of_eq (h.none_rejected sample hlast))
  have hbelow : sample.utilization < (b.noting sample).policy.lowWater :=
    hpolicy ▸ h.below sample hlast
  unfold observeOn
  simp only [isPressed_eq hroom, isQuiet_eq hroom, Option.bind_eq_bind, Option.bind_some, hnone,
    hbelow, hclear, false_and, and_self, decide_false, decide_true, if_true]
  rw [if_neg Bool.false_ne_true, ← hpolicy, Option.map_eq_bind]
  rfl

/-- Over quiet observations the batch grows by a step each, up to the full one, and the first of
them brings the interval back. -/
theorem observeAllOn_quiet
    (hstep : max (max batch policy.minBatch) 1 + policy.step < wordSize)
    (h : QuietAfter policy history quiet)
    (hb : (start policy batch interval).observeAllOn overflow history = some b) :
    ∃ after, (start policy batch interval).observeAllOn overflow (history ++ quiet) = some after ∧
      after.batch = min (b.batch + quiet.length * policy.step) b.fullBatch ∧
      (quiet ≠ [] → after.interval = interval) := by
  have hwithin := isWithin_observeAllOn hstep hb
  -- From the back, since whether the last observation relaxes depends on all those before it.
  induction quiet using List.reverseRecOn with
  | nil =>
    have hbatch := hwithin.batch_le
    refine ⟨b, by rw [List.append_nil, hb], ?_, fun hne => absurd rfl hne⟩
    rw [hwithin.fullBatch_eq, List.length_nil]
    omega
  | append_singleton quiet sample ih =>
    obtain ⟨before, hbefore, hbatch, -⟩ := ih h.init
    have hterms := isWithin_observeAllOn hstep hbefore
    have hroom := hterms.batch_le
    have hword : overflow.word? (before.batch + policy.step) = some (before.batch + policy.step) :=
      Overflow.word?_of_lt (by omega)
    refine ⟨(before.noting sample).grown (before.batch + policy.step), ?_, ?_, fun _ => ?_⟩
    · rw [← List.append_assoc, observeAllOn_concat, hbefore, Option.bind_some,
        observeOn_quiet h hbefore, hword, Option.map_some]
    · show min (before.batch + policy.step) before.fullBatch = _
      rw [hbatch, hterms.fullBatch_eq, ← hwithin.fullBatch_eq, List.length_append, Nat.add_mul,
        List.length_singleton, Nat.one_mul]
      omega
    · exact hterms.baseInterval_eq

/-- Quiet observations bring an engine to rest if they are enough for the batch to be full. -/
theorem isAtRest_of_grown (hroom : max (max batch policy.minBatch) 1 + policy.step < wordSize)
    (h : QuietAfter policy history quiet) (hne : quiet ≠ [])
    (hb : (start policy batch interval).observeAllOn overflow history = some b)
    (hgrown : max (max batch policy.minBatch) 1 ≤ b.batch + quiet.length * policy.step) :
    ∃ after, (start policy batch interval).observeAllOn overflow (history ++ quiet) = some after ∧
      after.IsAtRest := by
  obtain ⟨after, hafter, hbatch, hinterval⟩ := observeAllOn_quiet hroom h hb
  have hterms := isWithin_observeAllOn hroom hafter
  refine ⟨after, hafter, isAtRest_of_eq ?_ ((hinterval hne).trans hterms.baseInterval_eq.symm)⟩
  rw [hbatch, hterms.fullBatch_eq, (isWithin_observeAllOn hroom hb).fullBatch_eq]
  exact Nat.min_eq_right hgrown

/-- After as many quiet observations as the full batch is large, an engine with a step is at
rest. -/
theorem isAtRest_of_step (hroom : max (max batch policy.minBatch) 1 + policy.step < wordSize)
    (h : QuietAfter policy history quiet) (hstep : 0 < policy.step)
    (hlong : max (max batch policy.minBatch) 1 ≤ quiet.length)
    (hb : (start policy batch interval).observeAllOn overflow history = some b) :
    ∃ after, (start policy batch interval).observeAllOn overflow (history ++ quiet) = some after ∧
      after.IsAtRest := by
  have hsteps : quiet.length ≤ quiet.length * policy.step := Nat.le_mul_of_pos_right _ hstep
  have hne : quiet ≠ [] := List.ne_nil_of_length_pos (by omega)
  exact isAtRest_of_grown hroom h hne hb (by omega)

/-- An engine whose batch cannot shrink is at rest after one quiet observation. -/
theorem isAtRest_of_batch_le (hroom : max (max batch policy.minBatch) 1 + policy.step < wordSize)
    (h : QuietAfter policy history quiet) (hfixed : batch ≤ max policy.minBatch 1) (hne : quiet ≠ [])
    (hb : (start policy batch interval).observeAllOn overflow history = some b) :
    ∃ after, (start policy batch interval).observeAllOn overflow (history ++ quiet) = some after ∧
      after.IsAtRest := by
  have hleast := (isWithin_observeAllOn hroom hb).minBatch_le
  exact isAtRest_of_grown hroom h hne hb (by omega)

/-- An engine at rest whose next step has no room in a word does not stay at rest. -/
theorem not_isAtRest_of_no_room {after : Backpressure}
    (hroom : wordSize ≤ max (max batch policy.minBatch) 1 + policy.step)
    (hwords : max (max batch policy.minBatch) 1 < wordSize ∧ policy.step < wordSize)
    (h : QuietAfter policy history (quiet ++ [sample]))
    (hb : (start policy batch interval).observeAllOn overflow (history ++ quiet) = some b)
    (hrest : b.IsAtRest) (hafter : b.observeOn overflow sample = some after) : ¬ after.IsAtRest := by
  have hfull : b.fullBatch = max (max batch policy.minBatch) 1 :=
    (alike_observeAllOn hb).fullBatch_eq.trans (isWithin_observeAll ..).fullBatch_eq
  have hbatch : b.batch = max (max batch policy.minBatch) 1 := hrest.1.trans hfull
  rw [observeOn_quiet h hb, hbatch] at hafter
  obtain ⟨grown, hgrown, rfl⟩ := Option.map_eq_some_iff.1 hafter
  have hless := Overflow.add_wordSize_of_word? hroom (by omega) hgrown
  intro hagain
  have hshrunk : min grown b.fullBatch = b.fullBatch := hagain.1
  omega

-- Where sums wrap, the greatest step takes one job off the batch.
example : ((start { step := wordSize - 1 } 5 .zero).observeOn .wraps ⟨0, 0, 0⟩).map Backpressure.batch =
    some 4 := by
  decide +kernel

/-- Without a step the batch stays as it is over quiet observations. -/
theorem batch_observeAllOn_of_step_eq_zero
    (hroom : max (max batch policy.minBatch) 1 + policy.step < wordSize)
    (h : QuietAfter policy history quiet) (hstep : policy.step = 0)
    (hb : (start policy batch interval).observeAllOn overflow history = some b) :
    ∃ after, (start policy batch interval).observeAllOn overflow (history ++ quiet) = some after ∧
      after.batch = b.batch := by
  obtain ⟨after, hafter, hbatch, -⟩ := observeAllOn_quiet hroom h hb
  have hwithin := isWithin_observeAllOn hroom hb
  have hmost := hwithin.batch_le
  refine ⟨after, hafter, ?_⟩
  rw [hbatch, hstep, hwithin.fullBatch_eq]
  omega

/-- Enough rejections at once halve the batch. -/
theorem batch_observe_of_threshold {b : Backpressure} (hrejected : 0 < sample.rejected)
    (hreached : b.policy.threshold ≤ sample.rejected) :
    (b.observe sample).batch = max (max (b.batch / 2) b.policy.minBatch) 1 := by
  have hnoted := b.rejected_le_recentRejections sample
  have hresponds := b.responds_observe sample
  generalize b.observe sample = after at hresponds
  cases hresponds with
  | throttled => rfl
  | relaxed hnone => omega
  | held hshort => exact absurd ⟨hrejected, Nat.le_trans hreached hnoted⟩ hshort

end Backpressure

/-! ## Settings that let go -/

open Float.Model UnpackedFloat in
/-- Minus one is below every double that is not below zero. -/
theorem neg_one_lt_of_nonneg {x : Float} (h : 0 ≤ x) : -1 < x := by
  have hle : (Float.toModel 0).unpack.le x.toModel.unpack = true := of_decide_eq_true h
  have hzero : (Float.toModel 0).unpack = .zero .positive := rfl
  obtain ⟨m, e, hm, hone⟩ : ∃ m e hm, (Float.toModel (-1)).unpack = .finite .negative m e hm :=
    ⟨_, _, _, rfl⟩
  rw [hzero] at hle
  refine decide_eq_true (show (Float.toModel (-1)).unpack.lt x.toModel.unpack = true from ?_)
  rw [hone]
  cases hx : x.toModel.unpack with
  | notANumber => rw [hx] at hle; cases hle
  | zero s => rfl
  | infinity s =>
    cases s with
    | positive => rfl
    | negative => rw [hx] at hle; cases hle
  | finite s m e hm =>
    cases s with
    | positive => rfl
    | negative => rw [hx] at hle; cases hle

namespace Settings

/-- The counts in the settings are words. -/
structure CountsAreWords (s : Settings) : Prop where
  batch_lt : s.batch < wordSize
  minBatch_lt : s.backpressure.minBatch < wordSize
  threshold_lt : s.backpressure.threshold < wordSize
  step_lt : s.backpressure.step < wordSize

/-- After any history of observations that an engine with these settings gets through, there is a
number of quiet ones that brings it to rest; it stays at rest if there are more. -/
def LetsGo (overflow : Overflow) (s : Settings) : Prop :=
  ∀ history, Chronological history →
    ∀ b, s.pressure.observeAllOn overflow history = some b →
      ∃ k, ∀ quiet, QuietAfter s.backpressure history quiet → k ≤ quiet.length →
        ∃ after, s.pressure.observeAllOn overflow (history ++ quiet) = some after ∧ after.IsAtRest

/-- Rejections that reach the threshold at once. -/
def press (s : Settings) : PressureSample where
  utilization := 1
  rejected := max s.backpressure.threshold 1
  time := 0

/-- Observations of a utilization, without rejections, right after the window. -/
def pause (s : Settings) (utilization : Float) (k : Nat) : List PressureSample :=
  List.replicate k { utilization, rejected := 0, time := s.backpressure.window.nanos + 1 }

variable {overflow : Overflow} {s : Settings} {utilization : Float} {history : List PressureSample}

theorem CountsAreWords.fullBatch_lt (h : s.CountsAreWords) : s.pressure.fullBatch < wordSize :=
  Nat.max_lt.2 ⟨Nat.max_lt.2 ⟨h.batch_lt, h.minBatch_lt⟩, by decide⟩

theorem length_pause (s : Settings) (utilization : Float) (k : Nat) :
    (s.pause utilization k).length = k :=
  List.length_replicate

theorem quietAfter_pause (hbelow : utilization < s.backpressure.lowWater)
    (hearly : ∀ sample ∈ history, sample.time = 0) (k : Nat) :
    QuietAfter s.backpressure history (s.pause utilization k) where
  chronological := by
    refine chronological_append.2 ⟨?_, List.pairwise_replicate.2 (.inr (Nat.le_refl _)), ?_⟩
    · refine List.pairwise_of_forall_mem_list fun earlier hmem later _ => ?_
      rw [hearly earlier hmem]
      exact Nat.zero_le _
    · intro earlier hmem sample _
      rw [hearly earlier hmem]
      exact Nat.zero_le _
  none_rejected sample hsample := by rw [List.eq_of_mem_replicate hsample]
  below sample hsample := by rwa [List.eq_of_mem_replicate hsample]
  late sample hsample last hlast := by
    have hmem : last ∈ history := (List.mem_filter.1 (List.mem_of_getLast? hlast)).1
    rw [List.eq_of_mem_replicate hsample, hearly last hmem]
    exact Nat.lt_succ_self _

theorem early_press (s : Settings) : ∀ sample ∈ [s.press], sample.time = 0 := by
  intro sample hmem
  rw [List.mem_singleton.1 hmem]
  rfl

/-- Rejections that reach the threshold at once halve the batch. -/
theorem observeAllOn_press (hwords : s.CountsAreWords)
    (hroom : s.pressure.fullBatch + s.backpressure.step < wordSize) (overflow : Overflow) :
    ∃ b, s.pressure.observeAllOn overflow [s.press] = some b ∧
      b.batch = max (max (s.pressure.fullBatch / 2) s.backpressure.minBatch) 1 := by
  have hpress : s.press.rejected = max s.backpressure.threshold 1 := rfl
  have hsum : ([s.press].map rejected).sum < wordSize := by
    rw [List.map_singleton, List.sum_singleton, hpress]
    exact Nat.max_lt.2 ⟨hwords.threshold_lt, by decide⟩
  refine ⟨_, Backpressure.observeAllOn_eq_some hroom hsum, ?_⟩
  exact Backpressure.batch_observe_of_threshold
    (Nat.lt_of_lt_of_le Nat.zero_lt_one (Nat.le_max_right _ _)) (Nat.le_max_left _ _)

/-- Without a step the batch stays halved, however long the pause is. -/
theorem batch_pause_of_step_eq_zero (hwords : s.CountsAreWords)
    (hbelow : utilization < s.backpressure.lowWater) (hstep : s.backpressure.step = 0)
    (overflow : Overflow) (k : Nat) :
    ∃ after, s.pressure.observeAllOn overflow ([s.press] ++ s.pause utilization k) = some after ∧
      after.batch = max (max (s.pressure.fullBatch / 2) s.backpressure.minBatch) 1 := by
  have hroom : s.pressure.fullBatch + s.backpressure.step < wordSize :=
    hstep ▸ hwords.fullBatch_lt
  obtain ⟨pressed, hpressed, hhalved⟩ := observeAllOn_press hwords hroom overflow
  obtain ⟨after, hafter, hkept⟩ := Backpressure.batch_observeAllOn_of_step_eq_zero hroom
    (quietAfter_pause hbelow s.early_press k) hstep hpressed
  exact ⟨after, hafter, hkept.trans hhalved⟩

/-- An engine without a step whose batch can shrink is not let go after every history. -/
theorem not_letsGo_of_step_eq_zero (hwords : s.CountsAreWords)
    (hbelow : utilization < s.backpressure.lowWater) (hstep : s.backpressure.step = 0)
    (hshrinks : max s.backpressure.minBatch 1 < s.batch) : ¬ s.LetsGo overflow := by
  intro hletsGo
  have hroom : s.pressure.fullBatch + s.backpressure.step < wordSize :=
    hstep ▸ hwords.fullBatch_lt
  obtain ⟨b, hb, -⟩ := observeAllOn_press hwords hroom overflow
  obtain ⟨k, hk⟩ := hletsGo [s.press] (List.pairwise_singleton _ _) b hb
  obtain ⟨after, hafter, hrest⟩ := hk _ (quietAfter_pause hbelow s.early_press k)
    (Nat.le_of_eq (length_pause s utilization k).symm)
  obtain ⟨halved, hhalved, hbatch⟩ :=
    batch_pause_of_step_eq_zero hwords hbelow hstep overflow k
  cases hafter.symm.trans hhalved
  have hfull : s.pressure.fullBatch = max (max s.batch s.backpressure.minBatch) 1 := rfl
  have hkept : after.fullBatch = max (max s.batch s.backpressure.minBatch) 1 :=
    (Backpressure.alike_observeAllOn hafter).fullBatch_eq.trans
      (Backpressure.isWithin_observeAll ..).fullBatch_eq
  have hback := hrest.1
  omega

/-- An engine whose full batch with a step has no room in a word does not stay at rest, not even
without a rejection. -/
theorem not_letsGo_of_no_room (hwords : s.CountsAreWords)
    (hbelow : utilization < s.backpressure.lowWater)
    (hroom : wordSize ≤ s.pressure.fullBatch + s.backpressure.step) : ¬ s.LetsGo overflow := by
  intro hletsGo
  obtain ⟨k, hk⟩ := hletsGo [] List.Pairwise.nil s.pressure rfl
  have hearly : ∀ sample ∈ ([] : List PressureSample), sample.time = 0 := List.forall_mem_nil _
  have hlonger := quietAfter_pause hbelow hearly (k + 1)
  obtain ⟨b, hb, hrest⟩ := hk _ (quietAfter_pause hbelow hearly k)
    (Nat.le_of_eq (length_pause s utilization k).symm)
  obtain ⟨after, hafter, hagain⟩ := hk _ hlonger
    ((length_pause s utilization (k + 1)).symm ▸ Nat.le_succ k)
  rw [pause, List.replicate_succ', ← pause] at hafter hlonger
  rw [← List.append_assoc, Backpressure.observeAllOn_concat, hb, Option.bind_some] at hafter
  exact Backpressure.not_isAtRest_of_no_room hroom ⟨hwords.fullBatch_lt, hwords.step_lt⟩ hlonger hb
    hrest hafter hagain

/-- An engine whose settings are accepted is let go, whatever it does with sums that are too large,
exactly if its full batch with a step has room in a word, and its batch grows back or cannot
shrink. -/
theorem letsGo_iff (h : s.validate = .ok ()) (hwords : s.CountsAreWords) (overflow : Overflow) :
    s.LetsGo overflow ↔
      s.pressure.fullBatch + s.backpressure.step < wordSize ∧
        (0 < s.backpressure.step ∨ s.batch ≤ max s.backpressure.minBatch 1) := by
  have hbelow := neg_one_lt_of_nonneg (validate_eq_ok_iff.1 h).lowWater_share.1
  constructor
  · intro hletsGo
    refine ⟨Nat.lt_of_not_le fun hroom => not_letsGo_of_no_room hwords hbelow hroom hletsGo, ?_⟩
    by_contra hstuck
    obtain ⟨hstep, hshrinks⟩ := not_or.1 hstuck
    exact not_letsGo_of_step_eq_zero hwords hbelow (Nat.eq_zero_of_not_pos hstep)
      (Nat.lt_of_not_le hshrinks) hletsGo
  · rintro ⟨hroom, hstep | hfixed⟩ history - b hb
    · exact ⟨_, fun quiet hquiet hlong =>
        Backpressure.isAtRest_of_step hroom hquiet hstep hlong hb⟩
    · exact ⟨1, fun quiet hquiet hlong => Backpressure.isAtRest_of_batch_le hroom hquiet hfixed
        (List.ne_nil_of_length_pos hlong) hb⟩

/-- Settings with a large step and a least batch above the usual one. -/
def coarse : Settings where
  batch := 16
  backpressure := { minBatch := 3, threshold := 2, step := 5 }

/-- An engine with coarse settings is let go, and pauses of any length are quiet for it. -/
theorem coarse_settings_let_go :
    coarse.validate = .ok () ∧ coarse.CountsAreWords ∧ (∀ overflow, coarse.LetsGo overflow) ∧
      ∀ k, QuietAfter coarse.backpressure [coarse.press] (coarse.pause 0 k) := by
  have hvalid : coarse.validate = .ok () :=
    validate_eq_ok_iff.2 (flaw?_eq_none_iff.1 (by decide +kernel))
  have hwords : coarse.CountsAreWords := ⟨by decide, by decide, by decide, by decide⟩
  refine ⟨hvalid, hwords, fun overflow => (letsGo_iff hvalid hwords overflow).2 ?_, ?_⟩
  · exact ⟨by decide, .inl (by decide)⟩
  · exact quietAfter_pause (by decide +kernel) coarse.early_press

/-- The usual settings, without a step. -/
def stepless : Settings where
  backpressure := { step := 0 }

/-- Settings without a step are accepted.  One rejection halves the batch of ten, and no pause,
however long and idle, brings it back. -/
theorem halved_batch_stays_without_step :
    stepless.validate = .ok () ∧ stepless.CountsAreWords ∧
      ∀ overflow, ¬ stepless.LetsGo overflow ∧
        ∀ k, QuietAfter stepless.backpressure [stepless.press] (stepless.pause 0 k) ∧
          ∃ after, stepless.pressure.observeAllOn overflow ([stepless.press] ++ stepless.pause 0 k) =
            some after ∧ after.batch = 5 := by
  have hvalid : stepless.validate = .ok () :=
    validate_eq_ok_iff.2 (flaw?_eq_none_iff.1 (by decide +kernel))
  have hwords : stepless.CountsAreWords := ⟨by decide, by decide, by decide, by decide⟩
  have hbelow : 0 < stepless.backpressure.lowWater := by decide +kernel
  refine ⟨hvalid, hwords, fun overflow =>
    ⟨not_letsGo_of_step_eq_zero hwords hbelow rfl (by decide), fun k => ⟨?_, ?_⟩⟩⟩
  · exact quietAfter_pause hbelow stepless.early_press k
  · exact batch_pause_of_step_eq_zero hwords hbelow rfl overflow k

end Settings

end DeferredWork

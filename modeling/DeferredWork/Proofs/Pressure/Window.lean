import DeferredWork.Proofs.Pressure.Bounds

set_option autoImplicit false

/-!
# The window of rejections

Rejections are kept in the order of observation, those of observations without any are not kept, and
only the foremost are forgotten.  While time does not run backwards that is a window all the same:
what counts after an observation is what was rejected at most a window before it
(`Backpressure.rejections_observe`), and by this sum it is decided whether the engine is throttled
(`Backpressure.window_counts_exactly`).
-/

namespace DeferredWork

/-! ## Prefixes that are dropped -/

/-- If those with a property come first in a list, dropping the foremost of them drops them all. -/
theorem dropWhile_eq_filter_not {α : Type} {p : α → Bool} {l : List α}
    (h : l.Pairwise fun a b => p b = true → p a = true) :
    l.dropWhile p = l.filter fun a => !p a := by
  induction l with
  | nil => rfl
  | cons a l ih =>
    obtain ⟨hfirst, hrest⟩ := List.pairwise_cons.1 h
    cases ha : p a with
    | true => rw [List.dropWhile_cons_of_pos ha, ih hrest, List.filter_cons_of_neg (by simp [ha])]
    | false =>
      have hkept : ∀ b ∈ a :: l, (!p b) = true := by
        intro b hb
        rcases List.mem_cons.1 hb with rfl | hb
        · simp [ha]
        · cases hpb : p b with
          | true => rw [hfirst b hb hpb] at ha; cases ha
          | false => rfl
      rw [List.dropWhile_cons_of_neg (by simp [ha]), List.filter_eq_self.2 hkept]

namespace PressureSample

/-- Time does not run backwards from one observation to the next. -/
def Chronological (samples : List PressureSample) : Prop :=
  samples.Pairwise fun earlier later => earlier.time ≤ later.time

/-- The pool refused jobs in the cycle. -/
def hasRejections (sample : PressureSample) : Bool := decide (0 < sample.rejected)

/-- The observation was made at most a window before a time. -/
def isRecent (window : Duration) (now : Nat) (sample : PressureSample) : Bool :=
  decide (now - sample.time ≤ window.nanos)

/-- How many rejections were observed at most a window before a time. -/
def rejectedWithin (window : Duration) (now : Nat) (samples : List PressureSample) : Nat :=
  ((samples.filter (isRecent window now)).map rejected).sum

/-- The times and sizes of the rejections observed at most a window before a time. -/
def rejectionsWithin (window : Duration) (now : Nat) (samples : List PressureSample) :
    List (Nat × Nat) :=
  ((samples.filter (isRecent window now)).filter hasRejections).map
    fun sample => (sample.time, sample.rejected)

variable {window : Duration} {now later : Nat} {samples : List PressureSample}
  {sample : PressureSample}

theorem chronological_append {samples' : List PressureSample} :
    Chronological (samples ++ samples') ↔ Chronological samples ∧ Chronological samples' ∧
      ∀ s ∈ samples, ∀ t ∈ samples', s.time ≤ t.time :=
  List.pairwise_append

theorem chronological_concat :
    Chronological (samples ++ [sample]) ↔
      Chronological samples ∧ ∀ earlier ∈ samples, earlier.time ≤ sample.time := by
  rw [chronological_append]
  simp [Chronological]

theorem isRecent_of_le (h : now ≤ later) (hlater : sample.isRecent window later = true) :
    sample.isRecent window now = true := by
  simp only [isRecent, decide_eq_true_eq] at hlater ⊢
  omega

/-- Observations without rejections add nothing to the sum. -/
theorem sum_rejectionsWithin (window : Duration) (now : Nat) (samples : List PressureSample) :
    ((rejectionsWithin window now samples).map Prod.snd).sum =
      rejectedWithin window now samples := by
  rw [rejectionsWithin, rejectedWithin, List.map_map]
  induction samples.filter (isRecent window now) with
  | nil => rfl
  | cons sample samples ih =>
    by_cases h : 0 < sample.rejected
    · have hrefused : sample.hasRejections = true := decide_eq_true h
      rw [List.filter_cons_of_pos hrefused, List.map_cons, List.map_cons, List.sum_cons,
        List.sum_cons, ih]
      rfl
    · have hrefused : ¬ sample.hasRejections = true := by simpa [hasRejections] using h
      rw [List.filter_cons_of_neg hrefused, ih, List.map_cons, List.sum_cons]
      omega

/-- An observation is within a window of its own time. -/
theorem rejectionsWithin_concat (window : Duration) (samples : List PressureSample)
    (sample : PressureSample) :
    rejectionsWithin window sample.time (samples ++ [sample]) =
      rejectionsWithin window sample.time samples ++
        if sample.rejected = 0 then [] else [(sample.time, sample.rejected)] := by
  have hself : sample.isRecent window sample.time = true := by
    rw [isRecent, Nat.sub_self]
    exact decide_eq_true (Nat.zero_le _)
  rw [rejectionsWithin, rejectionsWithin, List.filter_append, List.filter_append, List.map_append,
    List.filter_cons_of_pos hself, List.filter_nil]
  by_cases h : sample.rejected = 0
  · have hrefused : ¬ sample.hasRejections = true := by simp [hasRejections, h]
    rw [if_pos h, List.filter_cons_of_neg hrefused]
    rfl
  · have hrefused : sample.hasRejections = true := decide_eq_true (Nat.pos_of_ne_zero h)
    rw [if_neg h, List.filter_cons_of_pos hrefused]
    rfl

end PressureSample

namespace Backpressure

open PressureSample

variable {policy : BackpressurePolicy} {batch : Nat} {interval : Duration}

/-- What is forgotten of a window as time goes on is what the later window leaves out. -/
theorem dropWhile_rejectionsWithin {b : Backpressure} {samples : List PressureSample}
    {now later : Nat} (hchronological : Chronological samples) (hle : now ≤ later) :
    (rejectionsWithin b.policy.window now samples).dropWhile (b.isStale later) =
      rejectionsWithin b.policy.window later samples := by
  have hmonotone : (rejectionsWithin b.policy.window now samples).Pairwise
      fun r s => b.isStale later s = true → b.isStale later r = true := by
    refine List.Pairwise.map _ ?_ ((hchronological.filter _).filter _)
    intro r s hrs hstale
    simp only [isStale, decide_eq_true_eq] at hstale ⊢
    omega
  rw [dropWhile_eq_filter_not hmonotone, rejectionsWithin, rejectionsWithin, List.filter_map,
    List.filter_filter, List.filter_filter, List.filter_filter]
  congr 1
  refine List.filter_congr fun sample _ => ?_
  have hwithin : sample.isRecent b.policy.window later = true →
      sample.isRecent b.policy.window now = true := isRecent_of_le hle
  simp only [isRecent, isStale, Function.comp_apply, decide_eq_true_eq] at hwithin ⊢
  grind

/-- What is left of the rejections at a later time is what was rejected within a window of it. -/
theorem dropWhile_rejections_observeAll {samples : List PressureSample} {now : Nat}
    (h : Chronological samples) (hnow : ∀ sample ∈ samples, sample.time ≤ now) :
    let b := (start policy batch interval).observeAll samples
    b.rejections.dropWhile (b.isStale now) = rejectionsWithin policy.window now samples := by
  intro b
  -- From the back, with the later time free: the last observation has already forgotten some, and
  -- what it kept is the window at its own time.
  induction samples using List.reverseRecOn generalizing now with
  | nil => rfl
  | append_singleton samples last ih =>
    obtain ⟨hsamples, hlast⟩ := chronological_concat.1 h
    have hpolicy : b.policy = policy := (isWithin_observeAll ..).policy_eq
    have hkept : b.rejections = rejectionsWithin policy.window last.time (samples ++ [last]) := by
      rw [rejectionsWithin_concat, ← ih hsamples hlast]
      show ((start policy batch interval).observeAll (samples ++ [last])).rejections = _
      rw [observeAll_concat]
      exact (responds_observe _ _).rejections_eq
    rw [hkept, ← hpolicy]
    exact dropWhile_rejectionsWithin h (hnow last (List.mem_append_right _ List.mem_cons_self))

/-- The rejections that count after an observation are those within a window of it. -/
theorem rejections_observe {earlier : List PressureSample} {sample : PressureSample}
    (h : Chronological (earlier ++ [sample])) :
    (((start policy batch interval).observeAll earlier).observe sample).rejections =
      rejectionsWithin policy.window sample.time (earlier ++ [sample]) := by
  obtain ⟨hearlier, hlast⟩ := chronological_concat.1 h
  rw [(responds_observe _ sample).rejections_eq, counted,
    dropWhile_rejections_observeAll hearlier hlast, rejectionsWithin_concat]

/-- What counts after an observation is the sum of the rejections within a window of it. -/
theorem recentRejections_noting {earlier : List PressureSample} {sample : PressureSample}
    (h : Chronological (earlier ++ [sample])) :
    (((start policy batch interval).observeAll earlier).noting sample).recentRejections =
      rejectedWithin policy.window sample.time (earlier ++ [sample]) := by
  have hnoted : (((start policy batch interval).observeAll earlier).noting sample).rejections =
      rejectionsWithin policy.window sample.time (earlier ++ [sample]) :=
    (responds_observe _ sample).rejections_eq.symm.trans (rejections_observe h)
  rw [recentRejections_eq_sum, hnoted, sum_rejectionsWithin]

/-- If time does not run backwards, what counts after an observation is the sum of all rejections
within a window of it.  The batch is halved and the interval doubled exactly if the observation has
a rejection and this sum reaches the threshold; otherwise they are relaxed if the sum is zero and
the utilization below the low water, and left alone if not. -/
theorem window_counts_exactly (policy : BackpressurePolicy) (batch : Nat) (interval : Duration)
    (earlier : List PressureSample) (sample : PressureSample)
    (h : Chronological (earlier ++ [sample])) :
    let before := (start policy batch interval).observeAll earlier
    let after := before.observe sample
    let total := rejectedWithin policy.window sample.time (earlier ++ [sample])
    after.recentRejections = total ∧
      (after.batch, after.interval) =
        if 0 < sample.rejected ∧ policy.threshold ≤ total then
          (max (max (before.batch / 2) policy.minBatch) 1,
            min (max before.interval (.ofMillis 1)).doubled (max policy.maxInterval interval))
        else if sample.utilization < policy.lowWater ∧ total = 0 then
          (min (before.batch + policy.step) (max (max batch policy.minBatch) 1), interval)
        else (before.batch, before.interval) := by
  intro before after total
  have hnoted : (before.noting sample).recentRejections = total := recentRejections_noting h
  have hbefore : before.IsWithin policy batch interval := isWithin_observeAll ..
  have hresponds : before.Responds sample after := before.responds_observe sample
  rw [← hnoted, ← hbefore.fullBatch_eq, ← hbefore.baseInterval_eq, ← hbefore.policy_eq]
  generalize after = b at hresponds
  cases hresponds with
  | throttled hrejected hreached =>
    refine ⟨rfl, ?_⟩
    rw [if_pos ⟨hrejected, hreached⟩]
    rfl
  | relaxed hnone hbelow hclear =>
    refine ⟨rfl, ?_⟩
    rw [if_neg (by omega), if_pos ⟨hbelow, hclear⟩]
    rfl
  | held hshort hbusy =>
    refine ⟨rfl, ?_⟩
    rw [if_neg hshort, if_neg hbusy]
    rfl

/-- Rejections at the start, none after three seconds, and rejections after ten. -/
def surge : List PressureSample := [⟨1, 4, 0⟩, ⟨1, 0, 3000000000⟩, ⟨1, 2, 10000000000⟩]

/-- Twenty seconds after the start the rejections of the tenth second count for the last time, and
those of the start no more: the threshold of five is reached, and the batch is halved again. -/
theorem window_includes_its_edge :
    Chronological (surge ++ [⟨0.5, 3, 20000000000⟩]) ∧
      let before := (start { threshold := 5 } 16 (.ofMillis 100)).observeAll surge
      let after := before.observe ⟨0.5, 3, 20000000000⟩
      after.recentRejections = 5 ∧ before.batch = 8 ∧
        (after.batch, after.interval) = (4, Duration.ofMillis 400) := by
  have h : Chronological (surge ++ [⟨0.5, 3, 20000000000⟩]) := by
    simp [Chronological, surge]
  obtain ⟨hcount, hpace⟩ := window_counts_exactly { threshold := 5 } 16 (.ofMillis 100) surge _ h
  exact ⟨h, hcount, by decide +kernel, hpace.trans (by decide +kernel)⟩

end Backpressure

end DeferredWork

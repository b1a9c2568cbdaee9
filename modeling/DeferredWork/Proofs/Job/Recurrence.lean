import DeferredWork.Engine.Execution

set_option autoImplicit false

/-!
# When a job recurs

The next run of a recurring job is due after the present time, and not later than an interval from
then, unless the calendar ends before that (`Job.nextOccurrence_spec`).  Time is compared by the
order of instants; how far an instant is from another is told in nanoseconds.
-/

namespace DeferredWork

namespace Instant

variable {t u now : Instant} {d : Duration}

theorem ofNanos?_eq_some {n : Int} (h : ofNanos? n = some u) : u.nanos = n ∧ u.nano < 1000000000 := by
  unfold ofNanos? of? at h
  split at h
  · cases h
    have hle := Int.fmod_nonneg_of_pos n (show (0 : Int) < 1000000000 by decide)
    have hlt := Int.fmod_lt_of_pos n (show (0 : Int) < 1000000000 by decide)
    have hsplit := Int.mul_fdiv_add_fmod n 1000000000
    constructor
    · rw [nanos]
      dsimp only
      omega
    · dsimp only
      omega
  · cases h

theorem isSome_of? {second : Int} {nano : Nat} (hge : firstSecond ≤ second)
    (hle : second ≤ lastSecond) (hnano : nano < 2000000000) : (of? second nano).isSome = true := by
  rw [of?, dif_pos ⟨⟨hge, hle⟩, hnano⟩]
  rfl

/-- Up to an instant that is far enough from the end of the calendar, a duration leads to an
instant. -/
theorem isSome_after? {bound : Instant} (hle : t ≤ bound)
    (hroom : bound.second + (d.nanos / 1000000000 : Nat) + 2 ≤ lastSecond) :
    (t.after? d).isSome = true := by
  have hnano := t.nano_lt
  have hnano' := bound.nano_lt
  have hfirst := t.second_ge
  have hsecond : t.second ≤ bound.second := by
    rw [le_def, rank, rank] at hle
    omega
  have hstep : d.nanos ≤ maxStep := by
    simp only [firstSecond, lastSecond, maxStep] at *
    omega
  -- Out of an inserted second or not, at most a second is lost.
  have hreached : ∀ n : Int, t.second * 1000000000 ≤ n → n ≤ t.nanos + d.nanos →
      (ofNanos? n).isSome = true := by
    intro n hge hle
    rw [nanos] at hle
    rw [ofNanos?, Int.fdiv_eq_ediv_of_nonneg _ (by decide),
      Int.fmod_eq_emod_of_nonneg _ (by decide)]
    exact isSome_of? (by omega) (by omega) (by omega)
  rw [after?, if_pos hstep, shift?]
  split
  · exact isSome_of? t.second_ge t.second_le (by omega)
  · split
    · rename_i hinserted
      have hlate := of_decide_eq_true hinserted.1
      exact hreached _ (by rw [nanos]; omega) (by omega)
    · exact hreached _ (by rw [nanos]; omega) (Int.le_refl _)

/-- Where an instant is after some time: within the same inserted second, or in no inserted one. -/
inductive MovesBy (t : Instant) (n : Nat) (u : Instant) : Prop
  | within (inserted : 1000000000 ≤ t.nano) (second : u.second = t.second) (nano : u.nano = t.nano + n)
  | outOf (inserted : 1000000000 ≤ t.nano) (regular : u.nano < 1000000000)
      (far : 2000000000 ≤ t.nano + n) (nanos : u.nanos = t.nanos - 1000000000 + n)
  | regular (regular : t.nano < 1000000000) (regular' : u.nano < 1000000000)
      (nanos : u.nanos = t.nanos + n)

theorem movesBy_of_after? (h : t.after? d = some u) : t.MovesBy d.nanos u := by
  unfold after? at h
  split at h
  · unfold shift? at h
    simp only [isInserted, decide_eq_true_eq] at h
    split at h
    · rename_i hwithin
      unfold of? at h
      split at h
      · cases h
        refine .within hwithin.1 rfl ?_
        dsimp only
        omega
      · cases h
    · rename_i hnot
      split at h
      · rename_i hinserted
        obtain ⟨hnanos, hregular⟩ := ofNanos?_eq_some h
        exact .outOf hinserted.1 hregular (by omega) hnanos
      · rename_i hregular
        obtain ⟨hnanos, hregular'⟩ := ofNanos?_eq_some h
        have hlt := t.nano_lt
        exact .regular (by omega) hregular' hnanos
  · cases h

theorem lt_of_after? (h : t.after? d = some u) (hpos : 0 < d.nanos) : t < u := by
  rw [lt_def, rank, rank]
  have hmoves := movesBy_of_after? h
  cases hmoves with
  | within inserted second nano => omega
  | outOf inserted regular far nanos =>
    rw [Instant.nanos, Instant.nanos] at nanos
    omega
  | regular regular regular' nanos =>
    rw [Instant.nanos, Instant.nanos] at nanos
    omega

/-- What lies some time after an instant up to now, but still ahead, lies no more than that time
ahead. -/
theorem nanos_le_of_after? (h : t.after? d = some u) (hle : t ≤ now) (hlt : now < u) :
    u.nanos ≤ now.nanos + d.nanos := by
  rw [le_def, rank, rank] at hle
  rw [lt_def, rank, rank] at hlt
  have ht := t.nano_lt
  have hnow := now.nano_lt
  have hu := u.nano_lt
  have hmoves := movesBy_of_after? h
  cases hmoves with
  | within inserted second nano =>
    rw [Instant.nanos, Instant.nanos]
    omega
  | outOf inserted regular far nanos =>
    rw [nanos, Instant.nanos, Instant.nanos]
    omega
  | regular regular regular' nanos =>
    rw [nanos, Instant.nanos, Instant.nanos]
    omega

/-- The instant is ahead of now by no more than a duration; or it is the last one of the calendar,
since the calendar has none that far ahead.  The distance is measured on the line of nanoseconds, on
which an inserted second lies on top of the one after it; so next to an inserted second the bound may be
up to a second away from the instant to which a step by the duration leads. -/
def IsWithin (u now : Instant) (d : Duration) : Prop :=
  (now < u ∧ u.nanos ≤ now.nanos + d.nanos) ∨ (u = last ∧ now.after? d = none)

theorem isWithin_afterOrLast (hpos : 0 < d.nanos) : (now.afterOrLast d).IsWithin now d := by
  unfold afterOrLast
  cases h : now.after? d with
  | none => exact .inr ⟨rfl, h⟩
  | some u =>
    have hlt := lt_of_after? h hpos
    exact .inl ⟨hlt, nanos_le_of_after? h (Int.le_refl _) hlt⟩

end Instant

/-- A job that was due by now recurs after now, by an interval at most. -/
theorem Job.nextOccurrence_spec {job : Job} {now : Instant} {interval : Duration}
    (hdue : job.isDue now = true) (hpos : 0 < interval.nanos) :
    (job.nextOccurrence now interval).IsWithin now interval := by
  have hle : job.due.getD now ≤ now := by
    unfold Job.isDue at hdue
    cases hjob : job.due with
    | none => exact Int.le_refl _
    | some due =>
      rw [hjob] at hdue
      exact of_decide_eq_true hdue
  unfold Job.nextOccurrence
  split
  · rename_i next hnext
    split
    · rename_i hlt
      exact .inl ⟨hlt, Instant.nanos_le_of_after? hnext hle hlt⟩
    · exact Instant.isWithin_afterOrLast hpos
  · exact Instant.isWithin_afterOrLast hpos

end DeferredWork

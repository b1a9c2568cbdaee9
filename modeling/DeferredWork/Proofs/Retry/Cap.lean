import Mathlib.Algebra.Order.Field.Rat
import Mathlib.Data.Rat.Cast.Order
import Mathlib.Tactic.Linarith
import Mathlib.Tactic.Positivity
import Mathlib.Tactic.Ring
import DeferredWork.Proofs.Settings.Rules

set_option autoImplicit false

/-!
# How far a wait goes beyond the cap

A wait is cut at the cap before the jitter is added to it, so the cap bounds the waits of an accepted
policy only if the jitter leaves room: the longest wait, stretched as far as the jitter stretches that
of any attempt, has to end within the millisecond after the cap (`Settings.delays_capped_iff`).  The
usual exponential policy leaves no room (`Settings.jittered_wait_exceeds_cap`).  Waits are looked at in
rational numbers, with the exact value of the jitter.
-/

namespace DeferredWork

/-! ## The value of a double -/

namespace Arithmetic

open Float.Model UnpackedFloat

/-- The rational number that a double stands for; zero for a double that is no number. -/
def valueOf (x : Float) : ℚ :=
  match x.toModel.unpack with
  | .finite sign m e _ => (sign.apply m : ℤ) * (2 : ℚ) ^ e
  | _ => 0

/-- The mantissa of a double has 53 bits. -/
theorem mantissa_lt {x : Float} {sign : Sign} {m : Nat} {e : Int} {hm : 0 < m}
    (h : x.toModel.unpack = .finite sign m e hm) : m < 2 ^ 53 := by
  unfold Float.Model.unpack UnpackedFloat.unpack at h
  dsimp only at h
  rcases ite_eq_iff.1 h with ⟨-, h⟩ | ⟨-, h⟩
  · rcases ite_eq_iff.1 h with ⟨-, h⟩ | ⟨-, h⟩ <;> cases h
  · rcases ite_eq_iff.1 h with ⟨-, h⟩ | ⟨-, h⟩
    · rcases dite_eq_iff.1 h with ⟨_, h⟩ | ⟨_, h⟩
      · cases h
      · cases h
        exact Nat.lt_trans (BitVec.isLt _) (by decide)
    · cases h
      exact BitVec.isLt _

theorem unpack_one : ∃ h, (Float.toModel 1).unpack = .finite .positive (2 ^ 52) (-52) h :=
  ⟨_, rfl⟩

/-- The value of a share is a share. -/
theorem valueOf_mem_share {x : Float} (hzero : 0 ≤ x) (hone : x ≤ 1) :
    0 ≤ valueOf x ∧ valueOf x ≤ 1 := by
  have hnonneg : (Float.toModel 0).unpack.le x.toModel.unpack = true := of_decide_eq_true hzero
  have hle : x.toModel.unpack.le (Float.toModel 1).unpack = true := of_decide_eq_true hone
  obtain ⟨hpos, hunit⟩ := unpack_one
  rw [hunit] at hle
  rw [show (Float.toModel 0).unpack = .zero .positive from rfl] at hnonneg
  unfold valueOf
  cases hx : x.toModel.unpack with
  | notANumber => exact ⟨le_refl _, zero_le_one⟩
  | zero sign => exact ⟨le_refl _, zero_le_one⟩
  | infinity sign => exact ⟨le_refl _, zero_le_one⟩
  | finite sign m e hm =>
    rw [hx] at hnonneg hle
    cases sign with
    | negative => cases hnonneg
    | positive =>
      have horder : ((compare e (-52)).then (compare m (2 ^ 52))).isLE = true := hle
      rw [Ordering.isLE_then_iff_or, compare_lt_iff_lt, compare_eq_iff_eq, Nat.isLE_compare]
        at horder
      have hpower : (0 : ℚ) < 2 ^ e := zpow_pos (by norm_num) e
      have hmantissa : (m : ℚ) * 2 ^ e ≤ 1 := by
        rcases horder with hsmaller | ⟨rfl, hsame⟩
        · -- A smaller exponent makes up for any mantissa.
          have hm : (m : ℚ) ≤ 2 ^ 53 := by exact_mod_cast (mantissa_lt hx).le
          have he : (2 : ℚ) ^ e ≤ 2 ^ (-53 : ℤ) := zpow_le_zpow_right₀ (by norm_num) (by omega)
          calc (m : ℚ) * 2 ^ e ≤ 2 ^ 53 * 2 ^ (-53 : ℤ) := by gcongr
            _ = 1 := by norm_num
        · have hm : (m : ℚ) ≤ 2 ^ 52 := by exact_mod_cast hsame
          calc (m : ℚ) * 2 ^ (-52 : ℤ) ≤ 2 ^ 52 * 2 ^ (-52 : ℤ) := by gcongr
            _ = 1 := by norm_num
      have hvalue : ((Sign.positive.apply (m : ℤ) : ℤ) : ℚ) = m := by simp [Sign.apply]
      change 0 ≤ ((Sign.positive.apply (m : ℤ) : ℤ) : ℚ) * 2 ^ e ∧
        ((Sign.positive.apply (m : ℤ) : ℤ) : ℚ) * 2 ^ e ≤ 1
      rw [hvalue]
      exact ⟨by positivity, hmantissa⟩

variable (a b : ℚ)

theorem least_rationals : rationals.least a b = min a b := by
  rw [least, min_comm, min_def_lt]
  exact if_congr (decide_eq_true_iff) rfl rfl

theorem greatest_rationals : rationals.greatest a b = max a b := by
  rw [greatest, max_def_lt]
  exact if_congr (decide_eq_true_iff) rfl rfl

end Arithmetic

/-! ## The wait of one attempt -/

namespace Delay

open Arithmetic

variable {strategy : Strategy} {base cap attempt : Nat} {jitter : ℚ}

/-- The wait without jitter, in whole milliseconds. -/
def wholeWait (strategy : Strategy) (base cap attempt : Nat) : Nat :=
  match strategy with
  | .fixed => base
  | .exponential => min (base * 2 ^ min (attempt - 1) maxDoublings) cap
  | .linear => min (base * attempt) cap

/-- The share of the jitter that an attempt deviates by, longer or shorter. -/
def tilt (attempt : Nat) : ℚ := 2 * ((attempt * 17 % 100 : Nat) / 100) - 1

/-- The wait with jitter, in milliseconds and parts of them. -/
def stretched (strategy : Strategy) (base cap : Nat) (jitter : ℚ) (attempt : Nat) : ℚ :=
  wholeWait strategy base cap attempt * (1 + jitter * tilt attempt)

theorem nominal_rationals (h : base ≤ cap) :
    nominal rationals strategy base cap attempt = (wholeWait strategy base cap attempt : ℚ) := by
  have hcap : rationals.greatest (cap : ℚ) base = cap := by
    rw [greatest_rationals]
    exact max_eq_left (by exact_mod_cast h)
  cases strategy with
  | fixed => rfl
  | exponential =>
    calc nominal rationals .exponential base cap attempt
      _ = rationals.least (base * (2 ^ min (attempt - 1) maxDoublings : Nat))
          (rationals.greatest cap base) := rfl
      _ = _ := by rw [hcap, least_rationals, wholeWait]; push_cast; rfl
  | linear =>
    calc nominal rationals .linear base cap attempt
      _ = rationals.least (base * attempt) (rationals.greatest cap base) := rfl
      _ = _ := by rw [hcap, least_rationals, wholeWait]; push_cast; rfl

theorem deviation_rationals {wait : ℚ} (hwait : 0 ≤ wait) (hjitter : 0 ≤ jitter) :
    deviation rationals wait jitter attempt = wait * (jitter * tilt attempt) := by
  have hrange : 0 ≤ wait * jitter := by positivity
  unfold deviation position tilt
  simp only [rationals, decide_eq_true_eq, Nat.cast_zero]
  split
  · push_cast
    ring
  · rename_i hnone
    rw [← mul_assoc, le_antisymm (not_lt.1 hnone) hrange, zero_mul]

/-- Whole milliseconds are counted, whatever comes after them. -/
theorem millis_le_iff (hcap : base ≤ cap) (hjitter : 0 ≤ jitter) (n : Nat) :
    millis rationals strategy base cap jitter attempt ≤ n ↔
      stretched strategy base cap jitter attempt < n + 1 := by
  have hsum : wholeWait strategy base cap attempt +
      wholeWait strategy base cap attempt * (jitter * tilt attempt) =
      stretched strategy base cap jitter attempt := by rw [stretched]; ring
  have hwhole : millis rationals strategy base cap jitter attempt =
      (stretched strategy base cap jitter attempt).floor.toNat := by
    rw [← hsum]
    unfold millis
    dsimp only
    rw [nominal_rationals hcap, deviation_rationals (Nat.cast_nonneg _) hjitter]
    rfl
  rw [hwhole, Int.toNat_le, ← Int.lt_add_one_iff, Rat.floor_lt_iff]
  push_cast
  rfl

theorem cast_millis_le (hcap : base ≤ cap) (hjitter : 0 ≤ jitter) {bound : ℚ} (hbound : 0 ≤ bound)
    (h : stretched strategy base cap jitter attempt ≤ bound) :
    (millis rationals strategy base cap jitter attempt : ℚ) ≤ bound := by
  have hiff : ∀ n, millis rationals strategy base cap jitter attempt ≤ n ↔
      stretched strategy base cap jitter attempt < n + 1 := millis_le_iff hcap hjitter
  cases hmillis : millis rationals strategy base cap jitter attempt with
  | zero => exact_mod_cast hbound
  | succ n =>
    have hreached : ¬ stretched strategy base cap jitter attempt < n + 1 := by
      rw [← hiff, hmillis]
      omega
    push_cast
    exact (not_lt.1 hreached).trans h

/-! ## The longest wait of all attempts -/

/-- The longest wait without jitter, in whole milliseconds. -/
def longest (strategy : Strategy) (base cap : Nat) : Nat :=
  match strategy with
  | .fixed => base
  | .exponential | .linear => if base = 0 then 0 else cap

theorem longest_le_cap (h : base ≤ cap) : longest strategy base cap ≤ cap := by
  cases strategy with
  | fixed => exact h
  | exponential | linear =>
    rw [longest]
    split <;> omega

theorem wholeWait_le_longest : wholeWait strategy base cap attempt ≤ longest strategy base cap := by
  cases strategy with
  | fixed => exact le_refl base
  | exponential | linear =>
    by_cases hbase : base = 0
    · simp [wholeWait, longest, hbase]
    · rw [wholeWait, longest, if_neg hbase]
      exact Nat.min_le_right _ _

theorem tilt_le (attempt : Nat) : tilt attempt ≤ 49 / 50 := by
  have hpercent : ((attempt * 17 % 100 : Nat) : ℚ) ≤ 99 := by
    exact_mod_cast (by omega : attempt * 17 % 100 ≤ 99)
  rw [tilt]
  linarith

/-- No wait ends later than the longest one would with the largest deviation. -/
theorem stretched_le (hjitter : 0 ≤ jitter) : stretched strategy base cap jitter attempt ≤
    longest strategy base cap * (1 + jitter * (49 / 50)) := by
  have hwait : (wholeWait strategy base cap attempt : ℚ) ≤ longest strategy base cap := by
    exact_mod_cast wholeWait_le_longest
  have hfactor : 1 + jitter * tilt attempt ≤ 1 + jitter * (49 / 50) := by
    have hshare : jitter * tilt attempt ≤ jitter * (49 / 50) :=
      mul_le_mul_of_nonneg_left (tilt_le attempt) hjitter
    linarith
  calc stretched strategy base cap jitter attempt
    _ ≤ wholeWait strategy base cap attempt * (1 + jitter * (49 / 50)) :=
      mul_le_mul_of_nonneg_left hfactor (Nat.cast_nonneg _)
    _ ≤ _ := mul_le_mul_of_nonneg_right hwait (by positivity)

/-- Some attempt waits longest and deviates most.  A wait that grows by the base each time gets there
within a hundred attempts after it has got to the cap. -/
theorem exists_stretched_eq {limit : Nat} (hcap : cap < 2 ^ 53)
    (hlimit : strategy = .linear → base = 0 ∨ cap ≤ base * limit) :
    ∃ attempt, attempt ≠ 0 ∧ attempt < limit + 148 ∧
      stretched strategy base cap jitter attempt =
        longest strategy base cap * (1 + jitter * (49 / 50)) := by
  suffices h : ∃ attempt, attempt < limit + 148 ∧ attempt % 100 = 47 ∧
      wholeWait strategy base cap attempt = longest strategy base cap by
    obtain ⟨attempt, hsoon, hturn, hwait⟩ := h
    have htilt : tilt attempt = 49 / 50 := by
      rw [tilt, show attempt * 17 % 100 = 99 by omega]
      norm_num
    exact ⟨attempt, by omega, hsoon, by rw [stretched, hwait, htilt]⟩
  by_cases hbase : base = 0
  · refine ⟨47, by omega, by decide, ?_⟩
    cases strategy <;> simp [wholeWait, longest, hbase]
  · have hpos : 1 ≤ base := Nat.pos_of_ne_zero hbase
    cases strategy with
    | fixed => exact ⟨47, by omega, by decide, rfl⟩
    | exponential =>
      have hgrown : cap ≤ base * 2 ^ min (147 - 1) maxDoublings :=
        calc cap
          _ ≤ 2 ^ 53 := hcap.le
          _ ≤ 1 * 2 ^ min (147 - 1) maxDoublings := by decide
          _ ≤ _ := Nat.mul_le_mul_right _ hpos
      refine ⟨147, by omega, by decide, ?_⟩
      rw [wholeWait, longest, if_neg hbase, Nat.min_eq_right hgrown]
    | linear =>
      -- The first attempt from the limit on that deviates most.
      have hlate : limit ≤ (limit + 52) / 100 * 100 + 47 := by omega
      have hgrown : cap ≤ base * ((limit + 52) / 100 * 100 + 47) :=
        ((hlimit rfl).resolve_left hbase).trans (Nat.mul_le_mul_left base hlate)
      refine ⟨(limit + 52) / 100 * 100 + 47, by omega, by omega, ?_⟩
      rw [wholeWait, longest, if_neg hbase, Nat.min_eq_right hgrown]

end Delay

/-! ## Policies -/

namespace RetryPolicy

open Arithmetic

variable {policy : RetryPolicy} {attempt : Nat}

/-- The wait after the given number of failures, computed without rounding. -/
def exactDelay (policy : RetryPolicy) (attempt : Nat) : Duration :=
  policy.delayIn rationals (valueOf policy.jitter) attempt

/-- With the jitter that lengthens it most, the longest wait still ends within the millisecond after
the cap. -/
def LeavesRoom (policy : RetryPolicy) : Prop :=
  (Delay.longest policy.strategy policy.base.millis policy.cap.millis : ℚ) *
    (1 + valueOf policy.jitter * (49 / 50)) < policy.cap.millis + 1

/-- The numbers of attempts are words of 32 bits, and there are enough of them for the longest wait: one
that grows by the base each time gets to the cap. -/
def GrowsInTime (policy : RetryPolicy) : Prop :=
  policy.strategy = .linear →
    policy.base.millis = 0 ∨ policy.cap.millis ≤ policy.base.millis * (2 ^ 32 - 148)

theorem exactDelay_le_cap_iff (hbase : policy.base ≤ policy.cap) (hjitter : 0 ≤ valueOf policy.jitter)
    (hrange : policy.cap.millis < 2 ^ 53) (hattempt : attempt ≠ 0) :
    policy.exactDelay attempt ≤ policy.cap ↔
      Delay.stretched policy.strategy policy.base.millis policy.cap.millis (valueOf policy.jitter)
        attempt < policy.cap.millis + 1 := by
  have hmillis : policy.base.millis ≤ policy.cap.millis := Nat.div_le_div_right hbase
  rw [← Delay.millis_le_iff hmillis hjitter, exactDelay, delayIn, if_neg hattempt, Duration.le_def,
    Duration.ofMillis, Duration.nanos_ofNanos]
  unfold Duration.millis at hrange ⊢
  have hlongest : policy.cap.nanos < Duration.maxNanos := by
    rw [Duration.maxNanos]
    omega
  omega

theorem cast_nanos_ofMillis_le (n : Nat) : ((Duration.ofMillis n).nanos : ℚ) ≤ n * 1000000 := by
  rw [Duration.ofMillis, Duration.nanos_ofNanos]
  exact_mod_cast Nat.min_le_left _ _

/-- If the jitter leaves room, no attempt waits longer than the cap. -/
theorem LeavesRoom.exactDelay_le_cap (hroom : policy.LeavesRoom) (hbase : policy.base ≤ policy.cap)
    (hjitter : 0 ≤ valueOf policy.jitter) (hrange : policy.cap.millis < 2 ^ 53) (attempt : Nat) :
    policy.exactDelay attempt ≤ policy.cap := by
  by_cases hzero : attempt = 0
  · rw [exactDelay, delayIn, if_pos hzero]
    exact Nat.zero_le _
  · exact (exactDelay_le_cap_iff hbase hjitter hrange hzero).2
      (lt_of_le_of_lt (Delay.stretched_le hjitter) hroom)

/-- If the attempts that come to the longest wait before long wait no longer than the cap, the jitter
leaves room. -/
theorem leavesRoom_of_capped (limit : Nat) (hbase : policy.base ≤ policy.cap)
    (hjitter : 0 ≤ valueOf policy.jitter) (hrange : policy.cap.millis < 2 ^ 53)
    (hlimit : policy.strategy = .linear →
      policy.base.millis = 0 ∨ policy.cap.millis ≤ policy.base.millis * limit)
    (hcapped : ∀ attempt < limit + 148, policy.exactDelay attempt ≤ policy.cap) :
    policy.LeavesRoom := by
  obtain ⟨attempt, hne, hsoon, hlongest⟩ := Delay.exists_stretched_eq hrange hlimit
  rw [LeavesRoom, ← hlongest]
  exact (exactDelay_le_cap_iff hbase hjitter hrange hne).1 (hcapped attempt hsoon)

/-- Without rounding, a wait goes beyond the cap by no more than the jitter's share of it. -/
theorem nanos_exactDelay_le (hbase : policy.base ≤ policy.cap) (hjitter : 0 ≤ valueOf policy.jitter)
    (attempt : Nat) : ((policy.exactDelay attempt).nanos : ℚ) ≤
      policy.cap.nanos * (1 + valueOf policy.jitter * (49 / 50)) := by
  have hmillis : policy.base.millis ≤ policy.cap.millis := Nat.div_le_div_right hbase
  have hfactor : 0 ≤ 1 + valueOf policy.jitter * (49 / 50) := by positivity
  unfold exactDelay delayIn
  split
  · exact mul_nonneg (Nat.cast_nonneg _) hfactor
  · have hlongest : (Delay.longest policy.strategy policy.base.millis policy.cap.millis : ℚ) ≤
        policy.cap.millis := by
      exact_mod_cast Delay.longest_le_cap hmillis
    have hstretched : Delay.stretched policy.strategy policy.base.millis policy.cap.millis
        (valueOf policy.jitter) attempt ≤
          policy.cap.millis * (1 + valueOf policy.jitter * (49 / 50)) :=
      (Delay.stretched_le hjitter).trans (mul_le_mul_of_nonneg_right hlongest hfactor)
    have hwait := Delay.cast_millis_le hmillis hjitter
      (mul_nonneg (Nat.cast_nonneg _) hfactor) hstretched
    have hcut : (policy.cap.millis : ℚ) * 1000000 ≤ policy.cap.nanos := by
      exact_mod_cast Nat.div_mul_le_self policy.cap.nanos 1000000
    refine (cast_nanos_ofMillis_le _).trans ?_
    calc _
      _ ≤ policy.cap.millis * (1 + valueOf policy.jitter * (49 / 50)) * 1000000 :=
        mul_le_mul_of_nonneg_right hwait (by norm_num)
      _ = policy.cap.millis * 1000000 * (1 + valueOf policy.jitter * (49 / 50)) := by ring
      _ ≤ _ := mul_le_mul_of_nonneg_right hcut hfactor

end RetryPolicy

/-! ## Accepted policies -/

namespace Settings

open Arithmetic RetryPolicy

variable {s : Settings}

/-- **The cap bounds the waits of an accepted policy exactly if the jitter leaves room.**  Let the cap
be shorter than `2^53` milliseconds, so that it is a double, and let the waits be computed without
rounding.  Then no attempt, however many there are, waits longer than the cap exactly if the longest
wait, lengthened by 98 percent of the jitter, still ends within the millisecond after the cap.  The same
holds of the attempts whose number is a word of 32 bits, if the wait has grown to the longest one by
then.  In any case it is this share of the cap by which a wait exceeds it at most. -/
theorem delays_capped_iff (haccepted : s.validate = .ok ())
    (hrange : s.retryPolicy.cap.millis < 2 ^ 53) :
    ((∀ attempt, s.retryPolicy.exactDelay attempt ≤ s.retryPolicy.cap) ↔
      s.retryPolicy.LeavesRoom) ∧
    (s.retryPolicy.GrowsInTime →
      ((∀ attempt < 2 ^ 32, s.retryPolicy.exactDelay attempt ≤ s.retryPolicy.cap) ↔
        s.retryPolicy.LeavesRoom)) ∧
    ∀ attempt, ((s.retryPolicy.exactDelay attempt).nanos : ℚ) ≤
      s.retryPolicy.cap.nanos * (1 + valueOf s.retryPolicy.jitter * (49 / 50)) := by
  have hsound := validate_eq_ok_iff.1 haccepted
  have hbase := hsound.base_le_cap
  have hjitter := (valueOf_mem_share hsound.jitter_share.1 hsound.jitter_share.2).1
  refine ⟨⟨fun hcapped => ?_, fun hroom => hroom.exactDelay_le_cap hbase hjitter hrange⟩,
    fun hgrows => ⟨?_, fun hroom attempt _ => hroom.exactDelay_le_cap hbase hjitter hrange attempt⟩,
    nanos_exactDelay_le hbase hjitter⟩
  · refine leavesRoom_of_capped s.retryPolicy.cap.millis hbase hjitter hrange
      (fun _ => ?_) fun attempt _ => hcapped attempt
    rcases Nat.eq_zero_or_pos s.retryPolicy.base.millis with hzero | hpos
    · exact .inl hzero
    · exact .inr (Nat.le_mul_of_pos_left _ hpos)
  · exact leavesRoom_of_capped (2 ^ 32 - 148) hbase hjitter hrange hgrows

/-- Settings with the usual waits that double from one second up to ten, spread by a tenth. -/
def hasty : Settings := { retryPolicy := .exponential (.ofSeconds 1) (.ofSeconds 10) }

/-- Settings with waits of a second that may be lengthened by half and have a cap of two. -/
def roomy : Settings :=
  { retryPolicy := ⟨.ofSeconds 1, .ofSeconds 2, .fixed, Float.ofScientific 5 true 1⟩ }

theorem roomy_capped : roomy.validate = .ok () ∧ roomy.retryPolicy.cap.millis < 2 ^ 53 ∧
    roomy.retryPolicy.GrowsInTime ∧ roomy.retryPolicy.LeavesRoom ∧
    (∀ attempt, roomy.retryPolicy.exactDelay attempt ≤ roomy.retryPolicy.cap) ∧
    ∀ attempt < 2 ^ 32, roomy.retryPolicy.exactDelay attempt ≤ roomy.retryPolicy.cap := by
  have haccepted : roomy.validate = .ok () :=
    validate_eq_ok_iff.2 (flaw?_eq_none_iff.1 (by decide +kernel))
  have hrange : roomy.retryPolicy.cap.millis < 2 ^ 53 := by decide +kernel
  have hgrows : roomy.retryPolicy.GrowsInTime := fun _ => .inr (by decide +kernel)
  have hroom : roomy.retryPolicy.LeavesRoom := by
    unfold LeavesRoom
    decide +kernel
  obtain ⟨hall, hwords, -⟩ := delays_capped_iff haccepted hrange
  exact ⟨haccepted, hrange, hgrows, hroom, hall.2 hroom, (hwords hgrows).2 hroom⟩

/-- The fifth wait is cut to ten seconds and then lengthened to 10.7, in doubles as in rational
numbers. -/
theorem jittered_wait_exceeds_cap : hasty.validate = .ok () ∧
    hasty.retryPolicy.cap.millis < 2 ^ 53 ∧
    hasty.retryPolicy.cap < hasty.retryPolicy.exactDelay 5 ∧
    hasty.retryPolicy.cap < hasty.retryPolicy.delay 5 := by
  have haccepted : hasty.validate = .ok () :=
    validate_eq_ok_iff.2 (flaw?_eq_none_iff.1 (by decide +kernel))
  exact ⟨haccepted, by decide +kernel, by decide +kernel, by decide +kernel⟩

end Settings

end DeferredWork

import Mathlib.Algebra.Ring.Nat
import Mathlib.Data.List.Induction
import DeferredWork.Engine.Idle

set_option autoImplicit false

/-!
# Idle waits in closed form

However waits and resets follow one another, each wait is the base, doubled once for every wait
since the last reset, up to the cap (`IdleBackoff.nanos_current_after`).  Although the wait that is
kept is cut at each doubling, by the cap and by the longest duration, nothing is lost by it: the power
of two is the exact one.  So waits stay between base and cap, and do not shrink between resets
(`IdleBackoff.waits_follow_closed_form`).
-/

namespace DeferredWork

/-- What an engine does with its idle waits. -/
inductive IdleCall where
  /-- Takes the wait to apply now. -/
  | next
  | reset
  deriving DecidableEq, Repr

namespace IdleCall

/-- How many waits were taken since the last reset, or from the start on. -/
def streak (calls : List IdleCall) : Nat := (calls.reverse.takeWhile (· == .next)).length

@[simp]
theorem streak_concat_next (calls : List IdleCall) :
    streak (calls ++ [.next]) = streak calls + 1 := by
  simp [streak]

@[simp]
theorem streak_concat_reset (calls : List IdleCall) : streak (calls ++ [.reset]) = 0 := by
  simp [streak]

theorem streak_append_replicate (calls : List IdleCall) (n : Nat) :
    streak (calls ++ List.replicate n .next) = streak calls + n := by
  induction n with
  | zero => simp
  | succ n ih =>
    rw [List.replicate_succ', ← List.append_assoc, streak_concat_next, ih, Nat.add_assoc]

end IdleCall

namespace IdleBackoff

open IdleCall

/-- The waits after one call. -/
def call (idle : IdleBackoff) : IdleCall → IdleBackoff
  | .next => idle.next.2
  | .reset => idle.reset

/-- The waits after a sequence of calls. -/
def after (idle : IdleBackoff) (calls : List IdleCall) : IdleBackoff := calls.foldl call idle

/-- The wait in nanoseconds that follows so many others, from a base up to a cap. -/
def closedForm (base cap streak : Nat) : Nat := min (base * 2 ^ streak) cap

variable {idle : IdleBackoff} {streak : Nat}

theorem after_concat (idle : IdleBackoff) (calls : List IdleCall) (c : IdleCall) :
    idle.after (calls ++ [c]) = (idle.after calls).call c := by
  rw [after, List.foldl_append]
  rfl

/-- Base and cap stay as they are. -/
theorem base_after (idle : IdleBackoff) (calls : List IdleCall) :
    (idle.after calls).base = idle.base ∧ (idle.after calls).cap = idle.cap := by
  induction calls using List.reverseRecOn with
  | nil => exact ⟨rfl, rfl⟩
  | append_singleton calls c ih =>
    rw [after_concat]
    cases c <;> exact ih

/-! ## One call -/

/-- A wait that is in closed form is so again when it is doubled: where the doubling reaches the end
of all durations, it has passed the cap before. -/
theorem nanos_current_advanced
    (h : idle.current.nanos = closedForm idle.base.nanos idle.cap.nanos streak) :
    idle.advanced.current.nanos = closedForm idle.base.nanos idle.cap.nanos (streak + 1) := by
  have hlongest := idle.cap.nanos_le
  rw [advanced, Duration.nanos_min, Duration.doubled, Duration.nanos_ofNanos, h, closedForm,
    closedForm, Nat.pow_succ, ← Nat.mul_assoc]
  omega

theorem nanos_current_reset (idle : IdleBackoff) :
    idle.reset.current.nanos = closedForm idle.base.nanos idle.cap.nanos 0 := by
  have hbase : idle.base.nanos ≤ idle.cap.nanos := Nat.le_trans idle.base_le idle.le_cap
  rw [reset, closedForm, Nat.pow_zero, Nat.mul_one, Nat.min_eq_left hbase]

/-! ## Sequences of calls -/

/-- Whatever was called before, the next wait is in closed form. -/
theorem nanos_current_after (base cap : Duration) (calls : List IdleCall) :
    ((new base cap).after calls).current.nanos =
      closedForm (new base cap).base.nanos (new base cap).cap.nanos (IdleCall.streak calls) := by
  induction calls using List.reverseRecOn with
  | nil => exact nanos_current_reset (new base cap)
  | append_singleton calls c ih =>
    obtain ⟨hbase, hcap⟩ := base_after (new base cap) calls
    rw [← hbase, ← hcap] at ih ⊢
    rw [after_concat]
    cases c with
    | next =>
      rw [streak_concat_next]
      exact nanos_current_advanced ih
    | reset =>
      rw [streak_concat_reset]
      exact nanos_current_reset _

theorem nanos_new (base cap : Duration) :
    (new base cap).base.nanos = max base.nanos 1000000 ∧
      (new base cap).cap.nanos = max cap.nanos (max base.nanos 1000000) := by
  have hbase : (max base shortest).nanos = max base.nanos 1000000 :=
    Duration.nanos_max base shortest
  exact ⟨hbase, (Duration.nanos_max cap _).trans (by rw [hbase])⟩

/-- **Idle waits follow their closed form.**  Any base and any cap will do; a base counts as a
millisecond at least, a cap as the base at least.  After any sequence of waits and resets, the next
wait is the base times two to the number of waits since the last reset, or the cap if that is less.
So it lies between base and cap, and the waits that follow it before the next reset are no shorter. -/
theorem waits_follow_closed_form (base cap : Duration) (calls : List IdleCall) :
    let b := max base.nanos 1000000
    let m := max cap.nanos b
    let wait := ((new base cap).after calls).next.1
    wait.nanos = min (b * 2 ^ IdleCall.streak calls) m ∧ b ≤ wait.nanos ∧ wait.nanos ≤ m ∧
      ∀ n, wait ≤ ((new base cap).after (calls ++ List.replicate n .next)).next.1 := by
  intro b m wait
  have hform : ∀ calls, ((new base cap).after calls).next.1.nanos =
      min (b * 2 ^ IdleCall.streak calls) m := fun calls => by
    rw [next, nanos_current_after, (nanos_new base cap).1, (nanos_new base cap).2, closedForm]
  have hwait : wait.nanos = min (b * 2 ^ IdleCall.streak calls) m := hform calls
  refine ⟨hwait, ?_, ?_, fun n => ?_⟩
  · have hgrown : b ≤ b * 2 ^ IdleCall.streak calls :=
      Nat.le_mul_of_pos_right b (Nat.two_pow_pos _)
    rw [hwait]
    exact Nat.le_min.2 ⟨hgrown, Nat.le_max_right _ _⟩
  · rw [hwait]
    exact Nat.min_le_right _ _
  · have hmore : b * 2 ^ IdleCall.streak calls ≤ b * 2 ^ (IdleCall.streak calls + n) :=
      Nat.mul_le_mul_left b (Nat.pow_le_pow_right (by decide) (Nat.le_add_right _ _))
    rw [Duration.le_def, hwait, hform, streak_append_replicate]
    exact Nat.le_min.2 ⟨Nat.le_trans (Nat.min_le_left _ _) hmore, Nat.min_le_right _ _⟩

/-- The doubling of the longest base stops at the longest duration. -/
example : ((new (.ofNanos (Duration.maxNanos / 2)) (.ofNanos Duration.maxNanos)).after
    [.next, .reset, .next, .next]).next.1 = .ofNanos Duration.maxNanos := by decide

end IdleBackoff

end DeferredWork

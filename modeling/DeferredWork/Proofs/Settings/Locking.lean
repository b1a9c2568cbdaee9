import DeferredWork.Proofs.Engine.Locking
import DeferredWork.Proofs.Job.Recurrence
import DeferredWork.Proofs.Settings.Variables
import DeferredWork.Settings.Node

set_option autoImplicit false

/-!
# Settings with which an engine can lock

The rules of settings bound the duration of locks from below, but not from above.  An engine can lock in
all years from 1970 to 9999 exactly if its transactions are given any time at all and its locks are no
longer than what the calendar has left after the last of these years (`Settings.canLock_iff`).  Settings
with longer locks are accepted, and no job is ever locked with them
(`Settings.endless_lock_accepted`).
-/

namespace DeferredWork

/-! ## How much room the calendar leaves -/

namespace Instant

variable {t : Instant} {d : Duration}

/-- The instant lies in the years 1970 to 9999. -/
def IsCommon (t : Instant) : Prop := 0 ≤ t.second ∧ t.second ≤ 253402300799

instance (t : Instant) : Decidable t.IsCommon :=
  inferInstanceAs (Decidable (0 ≤ t.second ∧ t.second ≤ 253402300799))

/-- The end of the year 9999. -/
def lastCommon : Instant :=
  { last with second := 253402300799, second_ge := by decide, second_le := by decide }

/-- What is left of the calendar after the year 9999, in nanoseconds. -/
def room : Nat := 7956864576000 * 1000000000

theorem isSome_after?_of_isCommon (ht : t.IsCommon) (hd : d.nanos ≤ room) :
    (t.after? d).isSome = true := by
  obtain ⟨hfrom, hto⟩ := ht
  have hnano := t.nano_lt
  rw [room] at hd
  have hstep : d.nanos ≤ maxStep := by
    rw [maxStep]
    omega
  have hreached : ∀ n : Int, 0 ≤ n → n < 8210266876800 * 1000000000 →
      (ofNanos? n).isSome = true := by
    intro n hge hlt
    rw [ofNanos?, Int.fdiv_eq_ediv_of_nonneg _ (by decide),
      Int.fmod_eq_emod_of_nonneg _ (by decide)]
    refine isSome_of? ?_ ?_ (by omega)
    · rw [firstSecond]
      omega
    · rw [lastSecond]
      omega
  rw [after?, if_pos hstep, shift?]
  simp only [isInserted, decide_eq_true_eq]
  split
  · exact isSome_of? t.second_ge t.second_le (by omega)
  · split
    · exact hreached _ (by rw [nanos]; omega) (by rw [nanos]; omega)
    · exact hreached _ (by rw [nanos]; omega) (by rw [nanos]; omega)

theorem after?_lastCommon_eq_none (hd : room < d.nanos) : lastCommon.after? d = none := by
  rw [Option.eq_none_iff_forall_ne_some]
  intro u hu
  have hle := u.second_le
  have hregular : lastCommon.nano = 999999999 := rfl
  cases movesBy_of_after? hu with
  | within inserted _ _ => omega
  | outOf inserted _ _ _ => omega
  | regular _ hnano hnanos =>
    have hend : lastCommon.nanos = 253402300799 * 1000000000 + 999999999 := rfl
    rw [hend, nanos] at hnanos
    rw [lastSecond] at hle
    rw [room] at hd
    omega

end Instant

/-! ## Settings -/

/-- A store with one job, which is due at any time. -/
def Store.dueMail : Store := .ofRow (.mail "first")

theorem Store.respond_dueMail (now : Instant) :
    dueMail.respond (.findDue now 1) = (.ok [.mail "first"], dueMail) := by
  rw [← respondByInsertion_eq]
  rfl

namespace Settings

open Instant Routine

variable {s : Settings}

/-- Whatever the store holds, however it goes out of reach and comes back, and whatever others commit in
the meantime: if the clock shows common times only, no transaction fails an acquisition cycle of an
engine with these settings. -/
def CanLock (s : Settings) : Prop :=
  ∀ (ε : Type → Type) (engine : Engine ε), engine.lockDuration = s.lockDuration →
    engine.limit = s.limit → ∀ (batch : Nat) (store store' : Store) (trace : List (Event ε))
      (r' : Routine ε (Except AcquisitionError CycleReport)),
      Runs store (engine.acquire batch) trace store' r' → r'.isOver = true →
      (∀ exchange ∈ trace.filterMap Event.own?, ∀ now ∈ exchange.reading?, now.IsCommon) →
      ∃ result, r' = .done result ∧ ∀ e, result ≠ .error (.transaction e)

theorem canLock_of_room (hlimit : s.limit ≠ .zero) (hroom : s.lockDuration.nanos ≤ room) :
    s.CanLock := by
  intro ε engine hlock hlimit' batch store store' trace r' hruns hover hcommon
  rw [← hlimit'] at hlimit
  refine hruns.promised (Engine.promises_acquire hlimit batch) hover fun exchange hmem now hnow => ?_
  rw [hlock]
  exact isSome_after?_of_isCommon (hcommon exchange hmem now hnow) hroom

/-- Without time for a transaction, or without room for a lock at a common time, a cycle that polls one
job fails. -/
theorem not_canLock {now : Instant} (hcommon : now.IsCommon)
    (hblocked : s.limit = .zero ∨ now.after? s.lockDuration = none) : ¬ s.CanLock := by
  intro hcan
  let engine : Engine fun _ => Empty :=
    { Engine.ofPair true with lockDuration := s.lockDuration, limit := s.limit }
  have hscope : (Job.mail "first").exclusivityScope = none := rfl
  obtain ⟨e, hleads⟩ := engine.leads_failing hblocked hscope 1 []
  have hruns := runs_of_leads hleads (Engine.answered_failing (Store.respond_dueMail now))
  obtain ⟨result, hdone, hspared⟩ := hcan _ engine rfl rfl 1 _ _ _ _ hruns rfl <| by
    rw [own?_own]
    intro exchange hmem time htime
    rw [Engine.eq_of_reading?_failing hmem htime]
    exact hcommon
  cases hdone
  exact hspared e rfl

/-- **An engine can lock exactly if there is time and room.**  For any settings at all: whatever the
store holds, whether or not it is in reach, and whatever others do, no transaction fails an acquisition
cycle of an engine with the settings while its clock shows times of the years 1970 to 9999, exactly if
the limit of a transaction is above zero and a lock counts for at most 7956864576000 seconds. -/
theorem canLock_iff :
    s.CanLock ↔ s.limit ≠ .zero ∧ s.lockDuration.nanos ≤ 7956864576000 * 1000000000 := by
  have hcommon : lastCommon.IsCommon := by decide
  constructor
  · intro hcan
    refine ⟨fun hzero => not_canLock hcommon (.inl hzero) hcan, Nat.not_lt.1 fun hlong => ?_⟩
    exact not_canLock hcommon (.inr (after?_lastCommon_eq_none hlong)) hcan
  · rintro ⟨hlimit, hroom⟩
    exact canLock_of_room hlimit hroom

theorem default_settings_can_lock : Settings.default.CanLock :=
  canLock_iff.2 ⟨by decide +kernel, by decide +kernel⟩

/-- Settings with locks that outlast the calendar. -/
def endless : Settings := { lockDuration := .ofMillis 10000000000000000 }

/-- A node with these settings. -/
def endlessNode : Node := endless.node "a" ⟨"a"⟩ fun _ => .zero

/-- Locks of 317 thousand years are accepted.  At the start of 1970 a cycle with a due job in an
available store breaks off at the expiry of its lock. -/
theorem endless_lock_accepted :
    ofVariables (fun key =>
        if key = "JOBFORGE_LOCK_DURATION_MS" then some "10000000000000000" else none) =
      .ok endless ∧
    Store.dueMail.available = true ∧
    ((((endlessNode.engine (ε := fun _ => Empty) .empty).acquire 10).play .early .dueMail).2.1 =
      some (.error (.transaction (.failed (.ofAbort Instant.overflow))))) ∧
    ¬ endless.CanLock := by
  have hblocked : Instant.epoch.after? endless.lockDuration = none := by decide +kernel
  exact ⟨rfl, rfl, rfl, not_canLock (by decide) (.inr hblocked)⟩

end Settings

end DeferredWork

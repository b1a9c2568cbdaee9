import DeferredWork.Time.Duration
set_option autoImplicit false

/-!
# Instants

An instant is a point of universal time, counted in seconds and nanoseconds from the start of 1970
and bounded by the calendar: the years -262143 to 262142.  The nanoseconds of an instant may reach
into a second one, which stands for an inserted leap second.  Moving an instant by a duration is
partial: it fails if the duration is longer than signed milliseconds can hold, or if the result
leaves the calendar.  An instant that moves out of an inserted second counts no inserted second on
its way.  Main statement: instants are linearly ordered by `rank`.
-/

namespace DeferredWork

/-- The first second of the calendar. -/
def Instant.firstSecond : Int := -8334601228800

/-- The last second of the calendar. -/
def Instant.lastSecond : Int := 8210266876799

/-- A point of universal time inside the calendar. -/
structure Instant where
  /-- Whole seconds since the start of 1970, rounded down. -/
  second : Int
  /-- Nanoseconds after that second; a billion or more inside an inserted second. -/
  nano : Nat
  second_ge : Instant.firstSecond ≤ second
  second_le : second ≤ Instant.lastSecond
  nano_lt : nano < 2000000000
  deriving DecidableEq

namespace Instant

/-- The instant of the given second and nanosecond, if the calendar has it. -/
def of? (second : Int) (nano : Nat) : Option Instant :=
  if h : (firstSecond ≤ second ∧ second ≤ lastSecond) ∧ nano < 2000000000 then
    some ⟨second, nano, h.1.1, h.1.2, h.2⟩
  else none

/-- The last instant of the calendar. -/
def last : Instant := ⟨lastSecond, 999999999, by decide, by decide, by decide⟩

/-- The start of 1970. -/
def epoch : Instant := ⟨0, 0, by decide, by decide, by decide⟩

instance : Inhabited Instant := ⟨epoch⟩

/-- The place of an instant on a line on which each second leaves room for an inserted one. -/
def rank (t : Instant) : Int := t.second * 2000000000 + t.nano

@[ext]
theorem ext {s t : Instant} (h₁ : s.second = t.second) (h₂ : s.nano = t.nano) : s = t := by
  cases s; cases t; simp_all

theorem rank_inj {s t : Instant} (h : s.rank = t.rank) : s = t := by
  have := s.nano_lt
  have := t.nano_lt
  unfold rank at h
  ext <;> omega

instance : LE Instant := ⟨fun s t => s.rank ≤ t.rank⟩
instance : LT Instant := ⟨fun s t => s.rank < t.rank⟩
instance (s t : Instant) : Decidable (s ≤ t) := inferInstanceAs (Decidable (s.rank ≤ t.rank))
instance (s t : Instant) : Decidable (s < t) := inferInstanceAs (Decidable (s.rank < t.rank))
instance : Ord Instant := ⟨compareOn rank⟩

theorem le_def {s t : Instant} : s ≤ t ↔ s.rank ≤ t.rank := Iff.rfl

theorem lt_def {s t : Instant} : s < t ↔ s.rank < t.rank := Iff.rfl

theorem not_le {s t : Instant} : ¬ s ≤ t ↔ t < s := by simp [le_def, lt_def]

instance : Std.TransOrd Instant :=
  inferInstanceAs (Std.TransCmp (compareOn rank))

instance : Std.LawfulEqOrd Instant where
  eq_of_compare {s t} h := by
    have h' : compare s.rank t.rank = .eq := h
    exact rank_inj (Std.LawfulEqCmp.eq_of_compare h')

/-- All nanoseconds since the start of 1970. -/
def nanos (t : Instant) : Int := t.second * 1000000000 + t.nano

/-- The instant that lies `n` nanoseconds after the start of 1970, if the calendar has it. -/
def ofNanos? (n : Int) : Option Instant := of? (n.fdiv 1000000000) (n.fmod 1000000000).toNat

/-- The instant lies in an inserted second. -/
def isInserted (t : Instant) : Bool := decide (1000000000 ≤ t.nano)

/-- The instant moved by a number of nanoseconds, if the calendar has it.  Less than a second's move
may stay within an inserted second, or go back from it into the second that it follows; all other
moves forward out of an inserted second are made from the second that it follows. -/
def shift? (t : Instant) (n : Int) : Option Instant :=
  if t.isInserted = true ∧ -1000000000 < n ∧ t.nano + n < 2000000000 then
    of? t.second (t.nano + n).toNat
  else if t.isInserted = true ∧ 0 < n then ofNanos? (t.nanos - 1000000000 + n)
  else ofNanos? (t.nanos + n)

/-- The longest duration by which an instant can be moved, in nanoseconds: the milliseconds of a
signed 64-bit word. -/
def maxStep : Nat := 9223372036854775807 * 1000000

/-- The instant a duration later, if the duration is a step and the calendar has the instant. -/
def after? (t : Instant) (d : Duration) : Option Instant :=
  if d.nanos ≤ maxStep then t.shift? d.nanos else none

/-- The instant a duration later, or the last one of the calendar. -/
def afterOrLast (t : Instant) (d : Duration) : Instant := (t.after? d).getD last

end Instant

end DeferredWork

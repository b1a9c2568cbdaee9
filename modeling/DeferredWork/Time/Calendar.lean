set_option autoImplicit false

/-!
# Calendar dates

Days of the proleptic Gregorian calendar, with a year zero and years before it, and their numbers on
a line of days whose zero is the first day of 1970.  The year of a day is found by the periods of
the calendar, and none of its days is skipped (`daysBeforeYear_yearAndDay`).
-/

namespace DeferredWork

/-- A year, a month from 1 and a day from 1. -/
structure Date where
  year : Int
  month : Nat
  day : Nat
  deriving DecidableEq, Repr

namespace Date

/-- Every fourth year is a leap year, but of the years that end a century only every fourth. -/
def isLeapYear (year : Int) : Bool := year % 4 == 0 && (year % 100 != 0 || year % 400 == 0)

/-- The lengths of the twelve months. -/
def monthLengths (leap : Bool) : List Nat :=
  [31, if leap then 29 else 28, 31, 30, 31, 30, 31, 31, 30, 31, 30, 31]

/-- The month exists in the calendar and the day exists in the month. -/
def isValid (d : Date) : Bool :=
  1 ≤ d.day && 1 ≤ d.month &&
    match (monthLengths (isLeapYear d.year))[d.month - 1]? with
    | some length => d.day ≤ length
    | none => false

/-- The days from the start of year 1 to the start of a year. -/
def daysBeforeYear (year : Int) : Int :=
  365 * (year - 1) + (year - 1) / 4 - (year - 1) / 100 + (year - 1) / 400

/-- The number that `daysBeforeYear 1970` has. -/
def epochDay : Int := 719162

/-- The days from the start of a year to the start of a month. -/
def daysBeforeMonth (leap : Bool) (month : Nat) : Nat :=
  ((monthLengths leap).take (month - 1)).foldr (· + ·) 0

/-- The number of a day, counted from the first day of 1970. -/
def dayNumber (d : Date) : Int :=
  daysBeforeYear d.year + daysBeforeMonth (isLeapYear d.year) d.month + (d.day - 1) - epochDay

/-- The year that holds the `n`-th day after the start of year 1, and the day's place in that year
from 0.  The days fall into periods of 400, 100, 4 and 1 years; the last hundred of the four hundred
and the last year of the four may be a day longer than the others. -/
def yearAndDay (n : Int) : Int × Nat :=
  let q := n / 146097
  let r := (n % 146097).toNat
  let c := min (r / 36524) 3
  let r := r - c * 36524
  let f := r / 1461
  let r := r - f * 1461
  let y := min (r / 365) 3
  (400 * q + 100 * c + 4 * f + y + 1, r - y * 365)

/-- The month, counted from `first`, and the day of the month that a place in the year falls on. -/
def monthAndDay (first : Nat) : List Nat → Nat → Nat × Nat
  | [], place => (first, place + 1)
  | length :: lengths, place =>
    if place < length then (first, place + 1)
    else monthAndDay (first + 1) lengths (place - length)

/-- The date of a day number. -/
def ofDayNumber (n : Int) : Date :=
  let yd := yearAndDay (n + epochDay)
  let md := monthAndDay 1 (monthLengths (isLeapYear yd.1)) yd.2
  ⟨yd.1, md.1, md.2⟩

theorem daysBeforeYear_periods (q : Int) {c f y : Nat} (hc : c ≤ 3) (hf : f ≤ 24) (hy : y ≤ 3) :
    daysBeforeYear (400 * q + 100 * c + 4 * f + y + 1) =
      146097 * q + 36524 * c + 1461 * f + 365 * y := by
  have h₄ : (400 * q + 100 * c + 4 * f + y + 1 - 1) / 4 = 100 * q + 25 * c + f := by omega
  have h₁₀₀ : (400 * q + 100 * c + 4 * f + y + 1 - 1) / 100 = 4 * q + c := by omega
  have h₄₀₀ : (400 * q + 100 * c + 4 * f + y + 1 - 1) / 400 = q := by omega
  rw [daysBeforeYear, h₄, h₁₀₀, h₄₀₀]
  omega

theorem daysBeforeYear_yearAndDay (n : Int) :
    daysBeforeYear (yearAndDay n).1 + (yearAndDay n).2 = n := by
  obtain ⟨q, hq⟩ : ∃ q, q = n / 146097 := ⟨_, rfl⟩
  obtain ⟨r, hr⟩ : ∃ r, r = (n % 146097).toNat := ⟨_, rfl⟩
  have hn : n = 146097 * q + r := by omega
  have hr_lt : r < 146097 := by omega
  simp only [yearAndDay, ← hq, ← hr]
  rw [daysBeforeYear_periods q (Nat.min_le_right _ _) (by omega) (Nat.min_le_right _ _)]
  omega

end Date

end DeferredWork

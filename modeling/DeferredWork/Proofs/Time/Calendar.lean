import DeferredWork.Time.Calendar

set_option autoImplicit false

/-!
# Dates of day numbers

Every day number has one date: the date exists in the calendar (`isValid_ofDayNumber`), and its
number is the one that it was made from (`dayNumber_ofDayNumber`).  The year is found first, then
the month by walking along the lengths of the months.
-/

namespace DeferredWork.Date

/-! ## The year -/

theorem isLeapYear_iff {year : Int} :
    isLeapYear year = true ↔ year % 4 = 0 ∧ (year % 100 ≠ 0 ∨ year % 400 = 0) := by
  simp [isLeapYear]

/-- The place in the year is one that the year has: the last one only in a leap year. -/
theorem yearAndDay_lt (n : Int) :
    (yearAndDay n).2 < 365 ∨ (yearAndDay n).2 = 365 ∧ isLeapYear (yearAndDay n).1 = true := by
  rw [isLeapYear_iff]
  obtain ⟨q, hq⟩ : ∃ q, q = n / 146097 := ⟨_, rfl⟩
  obtain ⟨r, hr⟩ : ∃ r, r = (n % 146097).toNat := ⟨_, rfl⟩
  have hr_lt : r < 146097 := by omega
  simp only [yearAndDay, ← hq, ← hr]
  obtain ⟨c, hc⟩ : ∃ c, c = min (r / 36524) 3 := ⟨_, rfl⟩
  obtain ⟨s, hs⟩ : ∃ s, s = r - c * 36524 := ⟨_, rfl⟩
  -- only the last of the four hundreds has a day more
  have hs_lt : s < 36524 ∨ s = 36524 ∧ c = 3 := by omega
  simp only [← hc, ← hs]
  obtain ⟨f, hf⟩ : ∃ f, f = s / 1461 := ⟨_, rfl⟩
  obtain ⟨d, hd⟩ : ∃ d, d = s - f * 1461 := ⟨_, rfl⟩
  -- only the last of the fours of a hundred may lack a day
  have hd_lt : d < 1460 ∨ d = 1460 ∧ (f < 24 ∨ c = 3 ∧ f = 24) := by omega
  simp only [← hf, ← hd]
  omega

/-- The year of a day that lies between the starts of two years lies between those years. -/
theorem year_bounds {n : Int} {low high : Int} (hlow : daysBeforeYear low ≤ n)
    (hhigh : n < daysBeforeYear high) : low ≤ (yearAndDay n).1 ∧ (yearAndDay n).1 < high := by
  have hsum := daysBeforeYear_yearAndDay n
  have hplace := yearAndDay_lt n
  rw [isLeapYear_iff] at hplace
  simp only [daysBeforeYear] at hsum hlow hhigh
  omega

/-! ## The month -/

/-- Walking along the lengths stops in the month that holds the place. -/
theorem monthAndDay_of_lt {first : Nat} {lengths : List Nat} {place : Nat}
    (h : place < lengths.foldr (· + ·) 0) :
    ∃ i length, (monthAndDay first lengths place).1 = first + i ∧ lengths[i]? = some length ∧
      1 ≤ (monthAndDay first lengths place).2 ∧ (monthAndDay first lengths place).2 ≤ length ∧
      (lengths.take i).foldr (· + ·) 0 + (monthAndDay first lengths place).2 = place + 1 := by
  induction lengths generalizing first place with
  | nil => exact absurd h (Nat.not_lt_zero _)
  | cons length lengths ih =>
    rw [List.foldr_cons] at h
    by_cases hplace : place < length
    · refine ⟨0, length, ?_⟩
      rw [monthAndDay, if_pos hplace]
      exact ⟨rfl, rfl, Nat.le_add_left 1 place, hplace, Nat.zero_add _⟩
    · obtain ⟨i, found, hmonth, hlength, hpos, hle, hsum⟩ :=
        @ih (first + 1) (place - length) (by omega)
      refine ⟨i + 1, found, ?_⟩
      rw [monthAndDay, if_neg hplace, List.take_succ_cons, List.foldr_cons]
      exact ⟨by omega, hlength, hpos, hle, by omega⟩

theorem sum_monthLengths (leap : Bool) :
    (monthLengths leap).foldr (· + ·) 0 = if leap then 366 else 365 := by
  cases leap <;> rfl

/-- The date of a day number stands in its year: its month and day, and how many days of the year
come before it. -/
theorem ofDayNumber_spec (n : Int) :
    (ofDayNumber n).year = (yearAndDay (n + epochDay)).1 ∧
      ∃ i length, (ofDayNumber n).month = i + 1 ∧
        (monthLengths (isLeapYear (ofDayNumber n).year))[i]? = some length ∧
        1 ≤ (ofDayNumber n).day ∧ (ofDayNumber n).day ≤ length ∧
        daysBeforeMonth (isLeapYear (ofDayNumber n).year) (i + 1) + (ofDayNumber n).day =
          (yearAndDay (n + epochDay)).2 + 1 := by
  refine ⟨rfl, ?_⟩
  have hplace : (yearAndDay (n + epochDay)).2 <
      (monthLengths (isLeapYear (yearAndDay (n + epochDay)).1)).foldr (· + ·) 0 := by
    rw [sum_monthLengths]
    rcases yearAndDay_lt (n + epochDay) with hlt | ⟨heq, hleap⟩
    · split <;> omega
    · rw [hleap, heq]
      decide
  obtain ⟨i, length, hmonth, hrest⟩ := @monthAndDay_of_lt 1 _ _ hplace
  exact ⟨i, length, hmonth.trans (Nat.add_comm 1 i), hrest⟩

/-! ## The date -/

theorem isValid_ofDayNumber (n : Int) : (ofDayNumber n).isValid = true := by
  obtain ⟨-, i, length, hmonth, hlength, hpos, hle, -⟩ := ofDayNumber_spec n
  have hindex : (ofDayNumber n).month - 1 = i := by omega
  rw [isValid, hindex, hlength]
  simp only [Bool.and_eq_true, decide_eq_true_eq]
  exact ⟨⟨hpos, by omega⟩, hle⟩

/-- No day is lost or named twice. -/
theorem dayNumber_ofDayNumber (n : Int) : (ofDayNumber n).dayNumber = n := by
  obtain ⟨hyear, i, length, hmonth, -, hpos, -, hsum⟩ := ofDayNumber_spec n
  have hdays := daysBeforeYear_yearAndDay (n + epochDay)
  rw [hyear] at hsum
  rw [dayNumber, hmonth, hyear]
  omega

theorem month_ofDayNumber_le (n : Int) : (ofDayNumber n).month ≤ 12 := by
  obtain ⟨-, i, length, hmonth, hlength, -⟩ := ofDayNumber_spec n
  have hlt : i < 12 := (List.getElem?_eq_some_iff.1 hlength).1
  omega

theorem day_ofDayNumber_le (n : Int) : (ofDayNumber n).day ≤ 31 := by
  obtain ⟨-, i, length, -, hlength, -, hle, -⟩ := ofDayNumber_spec n
  have hmem := List.mem_of_getElem? hlength
  have hmax : ∀ leap, ∀ m ∈ monthLengths leap, m ≤ 31 := by decide
  exact Nat.le_trans hle (hmax _ _ hmem)

end DeferredWork.Date

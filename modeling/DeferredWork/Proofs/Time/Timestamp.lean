import DeferredWork.Proofs.Text.Digits
import DeferredWork.Proofs.Time.Calendar
import DeferredWork.Time.Timestamp

set_option autoImplicit false

/-!
# Reading timestamps that were written

Each part of a timestamp is read back from its text with whatever stands behind it untouched: the
year with its sign, the numbers of two digits, the fraction of whatever width.  Main result: an
instant outside the inserted seconds is read back from its timestamp (`read_write`).
-/

namespace DeferredWork.Timestamp

open Text

/-! ## Parts -/

theorem isBlank_of_isDigit {c : Char} (h : isDigit c = true) : isBlank c = false := by
  simp only [isDigit, Bool.and_eq_true, decide_eq_true_eq] at h
  have hlow : 48 ≤ c.toNat := h.1
  have hhigh : c.toNat ≤ 57 := h.2
  simp only [isBlank, Bool.or_eq_false_iff, Bool.and_eq_false_iff, decide_eq_false_iff_not,
    beq_eq_false_iff_ne]
  omega

theorem trimStart_cons {c : Char} {cs : List Char} (h : isBlank c = false) :
    trimStart (c :: cs) = c :: cs :=
  List.dropWhile_cons_of_neg (by rw [h]; decide)

/-- A padded number starts with a digit. -/
theorem exists_padded_eq_cons (width n : Nat) :
    ∃ c cs, padded width n = c :: cs ∧ isDigit c = true := by
  obtain ⟨c, cs, hcons⟩ := List.exists_cons_of_ne_nil (padded_ne_nil width n)
  exact ⟨c, cs, hcons, isDigit_of_mem_padded (hcons ▸ List.mem_cons_self)⟩

theorem takeWhile_padded {width n : Nat} {rest : List Char}
    (hrest : ∀ c ∈ rest.head?, isDigit c = false) :
    (padded width n ++ rest).takeWhile isDigit = padded width n :=
  takeWhile_isDigit_append (fun _ h => isDigit_of_mem_padded h) hrest

theorem readNumber_padded {width n : Nat} {rest : List Char} (hwidth : 0 < width)
    (h : n < 10 ^ width) : readNumber width (padded width n ++ rest) = some (n, rest) := by
  obtain ⟨c, cs, hcons, hdigit⟩ := exists_padded_eq_cons width n
  have htrim : trimStart (padded width n ++ rest) = padded width n ++ rest := by
    rw [hcons, List.cons_append, trimStart_cons (isBlank_of_isDigit hdigit)]
  have htake : ((padded width n ++ rest).take width).takeWhile isDigit = padded width n := by
    rw [List.take_left' (length_padded hwidth h)]
    have hall := @takeWhile_padded width n [] (by simp)
    rwa [List.append_nil] at hall
  have hne : (padded width n).isEmpty = false := by rw [hcons]; rfl
  simp only [readNumber, htrim, htake, hne, List.drop_left, ofDigits_padded]
  rfl

theorem readMark_cons {mark : Char} {rest : List Char} (h : isBlank mark = false) :
    readMark mark (mark :: rest) = some rest := by
  rw [readMark, trimStart_cons h]
  exact if_pos rfl

theorem readYear_writeYear {year : Int} {rest : List Char}
    (hrest : ∀ c ∈ rest.head?, isDigit c = false) :
    readYear (writeYear year ++ rest) = some (year, rest) := by
  have hne : ∀ n, (padded 4 n).isEmpty = false := fun n => by
    obtain ⟨c, cs, hcons, -⟩ := exists_padded_eq_cons 4 n
    rw [hcons]
    rfl
  by_cases hplain : 0 ≤ year ∧ year ≤ 9999
  · obtain ⟨c, cs, hcons, hdigit⟩ := exists_padded_eq_cons 4 year.toNat
    have hread : readYear (padded 4 year.toNat ++ rest) =
        (readNumber 4 (padded 4 year.toNat ++ rest)).map fun r => ((r.1 : Int), r.2) := by
      rw [hcons, List.cons_append, readYear, trimStart_cons (isBlank_of_isDigit hdigit)]
      split
      · rename_i heq
        cases heq
        exact absurd hdigit (by decide)
      · rename_i heq
        cases heq
        exact absurd hdigit (by decide)
      · cases readNumber 4 (c :: (cs ++ rest)) <;> rfl
    rw [writeYear, if_pos hplain, hread,
      readNumber_padded (by decide) (by omega), Option.map_some, Int.toNat_of_nonneg hplain.1]
  · rw [writeYear, if_neg hplain]
    by_cases hneg : year < 0
    · have hvalue : -((year.natAbs : Nat) : Int) = year := by omega
      rw [if_pos hneg, List.cons_append, readYear, trimStart_cons (by decide)]
      simp only [takeWhile_padded hrest, hne, List.drop_left, ofDigits_padded, hvalue]
      rfl
    · have hvalue : ((year.natAbs : Nat) : Int) = year := by omega
      rw [if_neg hneg, List.cons_append, readYear, trimStart_cons (by decide)]
      simp only [takeWhile_padded hrest, hne, List.drop_left, ofDigits_padded, hvalue]
      rfl

/-- A fraction of `width` digits counts units of the last of them. -/
theorem readFraction_padded {width n : Nat} {rest : List Char} (hwidth : 0 < width)
    (hnine : width ≤ 9) (h : n < 10 ^ width) (hrest : ∀ c ∈ rest.head?, isDigit c = false) :
    readFraction ('.' :: (padded width n ++ rest)) = some (n * 10 ^ (9 - width), rest) := by
  obtain ⟨c, cs, hcons, -⟩ := exists_padded_eq_cons width n
  have hne : (padded width n).isEmpty = false := by rw [hcons]; rfl
  have htake : (padded width n).take 9 = padded width n :=
    List.take_of_length_le (by rw [length_padded hwidth h]; exact hnine)
  simp only [readFraction, takeWhile_padded hrest, hne, htake, ofDigits_padded,
    length_padded hwidth h, List.drop_left' (length_padded hwidth h)]
  rfl

theorem readFraction_writeFraction {nano : Nat} {rest : List Char} (h : nano < 1000000000)
    (hrest : ∀ c ∈ rest.head?, isDigit c = false) (hpoint : rest.head? ≠ some '.') :
    readFraction (writeFraction nano ++ rest) = some (nano, rest) := by
  rw [writeFraction]
  split
  · rename_i hzero
    rw [hzero, List.nil_append]
    exact readFraction.eq_2 rest fun rest' heq => hpoint (by rw [heq]; rfl)
  · split
    · rw [List.cons_append, readFraction_padded (by decide) (by decide) (by omega) hrest]
      exact congrArg (fun n => some (n, rest)) (by omega)
    · split
      · rw [List.cons_append, readFraction_padded (by decide) (by decide) (by omega) hrest]
        exact congrArg (fun n => some (n, rest)) (by omega)
      · rw [List.cons_append, readFraction_padded (by decide) (by decide) h hrest]
        exact congrArg (fun n => some (n, rest)) (by omega)

/-! ## Dates and times of day -/

/-- The years of the calendar are those of its instants. -/
theorem isCalendarYear_of_instant (t : Instant) :
    isCalendarYear (Date.ofDayNumber (t.second / 86400)).year = true := by
  have hlow := t.second_ge
  have hhigh := t.second_le
  simp only [Instant.firstSecond, Instant.lastSecond] at hlow hhigh
  have hbounds := @Date.year_bounds (t.second / 86400 + Date.epochDay) (-262143) 262143
    (by simp only [Date.daysBeforeYear, Date.epochDay]; omega)
    (by simp only [Date.daysBeforeYear, Date.epochDay]; omega)
  have hyear := (Date.ofDayNumber_spec (t.second / 86400)).1
  rw [isCalendarYear, hyear, Bool.and_eq_true, decide_eq_true_eq, decide_eq_true_eq]
  omega

/-- The date and the time of day of an instant give the instant. -/
theorem instant?_of_instant {t : Instant} (h : t.isInserted = false) :
    instant? (Date.ofDayNumber (t.second / 86400)) ((t.second % 86400).toNat / 3600)
      ((t.second % 86400).toNat / 60 % 60) ((t.second % 86400).toNat % 60) t.nano 0 = some t := by
  have hnano : t.nano < 1000000000 := by simpa [Instant.isInserted] using h
  have hyear := isCalendarYear_of_instant t
  have hvalid := Date.isValid_ofDayNumber (t.second / 86400)
  have hnumber := Date.dayNumber_ofDayNumber (t.second / 86400)
  generalize Date.ofDayNumber (t.second / 86400) = date at *
  obtain ⟨clock, hclock⟩ : ∃ clock, clock = (t.second % 86400).toNat := ⟨_, rfl⟩
  have hmin : min (clock % 60) 59 = clock % 60 := by omega
  rw [← hclock, instant?, if_pos (by simp [hyear, hvalid]; omega), hmin, hnumber, Nat.sub_self,
    Nat.zero_mul, Nat.add_zero]
  have hsecond : t.second / 86400 * 86400 +
      ((clock / 3600 * 3600 + clock / 60 % 60 * 60 + clock % 60 : Nat) : Int) - 0 = t.second := by
    omega
  dsimp only
  rw [hsecond, Instant.of?, dif_pos ⟨⟨t.second_ge, t.second_le⟩, t.nano_lt⟩]

/-! ## Timestamps -/

theorem readPair_padded {n : Nat} {rest : List Char} (h : n < 100) :
    readNumber 2 (padded 2 n ++ rest) = some (n, rest) :=
  readNumber_padded (by decide) h

/-- Every instant outside the inserted seconds has a timestamp of its own. -/
theorem read_write {t : Instant} (h : t.isInserted = false) : read (write t) = some t := by
  have hnano : t.nano < 1000000000 := by simpa [Instant.isInserted] using h
  have hfull : t.nano / 1000000000 = 0 := by omega
  have hpart : t.nano % 1000000000 = t.nano := by omega
  have hmonth := Date.month_ofDayNumber_le (t.second / 86400)
  have hday := Date.day_ofDayNumber_le (t.second / 86400)
  have hinstant := instant?_of_instant h
  have hclock : (t.second % 86400).toNat < 86400 := by omega
  have hdash : isBlank '-' = false := by decide
  have hcolon : isBlank ':' = false := by decide
  have hseparator : ∀ cs, readSeparator ('T' :: cs) = some cs := fun _ => rfl
  have hfraction : readFraction (writeFraction t.nano ++ ['Z']) = some (t.nano, ['Z']) :=
    readFraction_writeFraction hnano (by simp [isDigit]) (by decide)
  have hoffset : readOffset ['Z'] = some (0, []) := rfl
  simp only [write, hfull, hpart, Nat.add_zero, List.append_assoc, List.cons_append]
  generalize Date.ofDayNumber (t.second / 86400) = date at *
  generalize (t.second % 86400).toNat = clock at *
  refine (bind_part _ (readYear_writeYear (by simp [isDigit]))).trans ?_
  refine (bind_part _ (readMark_cons hdash)).trans ?_
  refine (bind_part _ (readPair_padded (show date.month < 100 by omega))).trans ?_
  refine (bind_part _ (readMark_cons hdash)).trans ?_
  refine (bind_part _ (readPair_padded (show date.day < 100 by omega))).trans ?_
  refine (bind_part _ (hseparator _)).trans ?_
  refine (bind_part _ (readPair_padded (show clock / 3600 < 100 by omega))).trans ?_
  refine (bind_part _ (readMark_cons hcolon)).trans ?_
  refine (bind_part _ (readPair_padded (show clock / 60 % 60 < 100 by omega))).trans ?_
  refine (bind_part _ (readMark_cons hcolon)).trans ?_
  refine (bind_part _ (readPair_padded (show clock % 60 < 100 by omega))).trans ?_
  refine (bind_part _ hfraction).trans ((bind_part _ hoffset).trans ?_)
  exact hinstant

end DeferredWork.Timestamp

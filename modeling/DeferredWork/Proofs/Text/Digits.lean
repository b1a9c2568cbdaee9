import Mathlib.Algebra.Order.Ring.Int
import DeferredWork.Text.Digits

set_option autoImplicit false

/-!
# Reading digits that were written

A number that is padded to a width is read back from its digits, decimal (`ofDigits_padded`) or
hexadecimal (`ofHex?_hexPadded`), and a run of digits is read up to the first character that is none
(`takeWhile_isDigit_append`).
-/

namespace DeferredWork.Text

/-- A reader goes on with what a part has been read as. -/
theorem bind_part {α β : Type} {part : Option α} {a : α} (next : α → Option β)
    (h : part = some a) : (do next (← part)) = next a := by
  rw [h, Option.bind_eq_bind, Option.bind_some]

/-! ## Decimal digits -/

theorem length_digits_le {n width : Nat} (hwidth : 0 < width) (h : n < 10 ^ width) :
    (digits n).length ≤ width :=
  (Nat.length_toDigits_le_iff (by decide) hwidth).2 h

/-- Only zero is written with a zero in front. -/
theorem head?_digits {n : Nat} (h : n ≠ 0) : (digits n).head? ≠ some '0' := by
  induction n using Nat.strongRecOn with
  | ind n ih =>
    by_cases hsmall : n < 10
    · rw [digits, Nat.toDigits_of_lt_base hsmall, List.head?_cons]
      simpa using h
    · have hsplit : digits n = digits (n / 10) ++ [(n % 10).digitChar] :=
        Nat.toDigits_of_base_le (by decide) (by omega)
      have hne : digits (n / 10) ≠ [] := Nat.toDigits_ne_nil
      rw [hsplit, List.head?_append, List.head?_eq_some_head hne, Option.some_or,
        ← List.head?_eq_some_head hne]
      exact ih (n / 10) (by omega) (by omega)

theorem length_padded {n width : Nat} (hwidth : 0 < width) (h : n < 10 ^ width) :
    (padded width n).length = width := by
  have := length_digits_le hwidth h
  rw [padded, List.length_append, List.length_replicate]
  omega

theorem isDigit_of_mem_padded {width n : Nat} {c : Char} (h : c ∈ padded width n) :
    isDigit c = true := by
  rcases List.mem_append.1 h with hzero | hdigit
  · rw [List.eq_of_mem_replicate hzero]
    rfl
  · exact isDigit_of_mem_digits hdigit

theorem padded_ne_nil (width n : Nat) : padded width n ≠ [] := by
  rw [padded]
  exact List.append_ne_nil_of_right_ne_nil _ Nat.toDigits_ne_nil

/-- Zeros in front do not count. -/
theorem ofDigits_padded (width n : Nat) : ofDigits (padded width n) = n := by
  have hzeros : ∀ k, ofDigits (List.replicate k '0') = 0 := by
    intro k
    induction k with
    | zero => rfl
    | succ k ih => exact ih
  rw [ofDigits, padded, Nat.ofDigitChars_append, ← ofDigits, hzeros]
  exact ofDigits_digits n

/-! ## Runs of digits -/

/-- A run of digits ends at the first character that is none. -/
theorem takeWhile_isDigit_append {ds rest : List Char} (hdigits : ∀ c ∈ ds, isDigit c = true)
    (hrest : ∀ c ∈ rest.head?, isDigit c = false) : (ds ++ rest).takeWhile isDigit = ds := by
  have hnone : rest.takeWhile isDigit = [] := by
    cases rest with
    | nil => rfl
    | cons c cs => rw [List.takeWhile_cons_of_neg (by rw [hrest c rfl]; decide)]
  rw [List.takeWhile_append_of_pos hdigits, hnone, List.append_nil]

/-! ## Hexadecimal digits -/

theorem length_hexPadded (count n : Nat) : (hexPadded count n).length = count := by
  induction count generalizing n with
  | zero => rfl
  | succ count ih => rw [hexPadded, List.length_append, ih, List.length_singleton]

theorem ofHex?_append (cs ds : List Char) (n : Nat) :
    ofHex? n (cs ++ ds) = (ofHex? n cs).bind fun m => ofHex? m ds := by
  induction cs generalizing n with
  | nil => rfl
  | cons c cs ih =>
    rw [List.cons_append, ofHex?, ofHex?]
    cases hexValue? c with
    | none => rfl
    | some d => exact ih _

/-- As many digits as the number has are read back as the number. -/
theorem ofHex?_hexPadded {count n : Nat} (h : n < 16 ^ count) :
    ofHex? 0 (hexPadded count n) = some n := by
  induction count generalizing n with
  | zero =>
    rw [Nat.pow_zero, Nat.lt_one_iff] at h
    rw [h]
    rfl
  | succ count ih =>
    have hdigit : hexValue? (hexDigit (n % 16)) = some (n % 16) :=
      hexValue?_hexDigit ⟨n % 16, Nat.mod_lt n (by decide)⟩
    have hvalue : n / 16 * 16 + n % 16 = n := Nat.div_add_mod' n 16
    rw [hexPadded, ofHex?_append, ih (by rw [Nat.pow_succ] at h; omega), Option.bind_some, ofHex?,
      hdigit]
    simp only [ofHex?, hvalue]

end DeferredWork.Text

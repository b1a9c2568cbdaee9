set_option autoImplicit false

/-!
# Digits

Numbers are written with the digits `0` to `9`.  This module holds the digits of a number, the same
padded to a width, the value of a list of digits, and the fraction that stands behind a decimal
point.  Digits of base sixteen are written in lower case and read in either case.  Main statements:
reading the digits of a number gives the number, and reading a hexadecimal digit that was written gives
its value.
-/

namespace DeferredWork.Text

/-- One of the digits `0` to `9`. -/
def isDigit (c : Char) : Bool := '0' ≤ c && c ≤ '9'

/-- The decimal digits of a number, without leading zeros. -/
def digits (n : Nat) : List Char := Nat.toDigits 10 n

/-- The value of a list of decimal digits; a foreign character counts by its distance from `0`. -/
def ofDigits (cs : List Char) : Nat := Nat.ofDigitChars 10 cs 0

theorem ofDigits_digits (n : Nat) : ofDigits (digits n) = n :=
  Nat.ofDigitChars_toDigits (by decide) (by decide)

theorem isDigit_of_mem_digits {n : Nat} {c : Char} (h : c ∈ digits n) : isDigit c = true := by
  have := Nat.isDigit_of_mem_toDigits (by decide) (by decide) h
  simpa [isDigit, Char.isDigit, Char.le_def] using this

/-- The decimal digits of a number with zeros before them up to a width. -/
def padded (width n : Nat) : List Char :=
  List.replicate (width - (digits n).length) '0' ++ digits n

/-- A list of characters without the zeros at its end. -/
def dropTrailingZeros (cs : List Char) : List Char := (cs.reverse.dropWhile (· == '0')).reverse

/-- The decimal point and the digits of `n` units in the last of `width` places, without trailing
zeros; nothing at all for zero units. -/
def decimals (width n : Nat) : List Char :=
  if n = 0 then [] else '.' :: dropTrailingZeros (padded width n)

/-- A non-empty list of decimal digits. -/
def isNumberText (cs : List Char) : Bool := !cs.isEmpty && cs.all isDigit

/-! ## Base sixteen -/

/-- The hexadecimal digit of a value below sixteen; a larger value has none and gives `?`. -/
def hexDigit (n : Nat) : Char :=
  if n < 10 then Char.ofNat (48 + n) else if n < 16 then Char.ofNat (87 + n) else '?'

/-- The value of a hexadecimal digit. -/
def hexValue? (c : Char) : Option Nat :=
  if '0' ≤ c ∧ c ≤ '9' then some (c.toNat - 48)
  else if 'a' ≤ c ∧ c ≤ 'f' then some (c.toNat - 87)
  else if 'A' ≤ c ∧ c ≤ 'F' then some (c.toNat - 55)
  else none

theorem hexValue?_hexDigit : ∀ n : Fin 16, hexValue? (hexDigit n) = some n.val := by decide

/-- The hexadecimal digits of a number, without leading zeros. -/
def hexDigits (n : Nat) : List Char := Nat.toDigits 16 n

/-- The last `count` hexadecimal digits of a number. -/
def hexPadded : Nat → Nat → List Char
  | 0, _ => []
  | count + 1, n => hexPadded count (n / 16) ++ [hexDigit (n % 16)]

/-- The value of a list of hexadecimal digits, read on from a value. -/
def ofHex? : Nat → List Char → Option Nat
  | n, [] => some n
  | n, c :: cs =>
    match hexValue? c with
    | some d => ofHex? (n * 16 + d) cs
    | none => none

end DeferredWork.Text

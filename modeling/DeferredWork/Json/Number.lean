import DeferredWork.Json.Basic
set_option autoImplicit false

/-!
# Reading JSON numbers

A numeral can be read as a natural number or an integer below a limit, or as a double.  Only a plain
run of digits is whole: `1.0`, `1e0` and `-0` are not.  A double is computed from the digits that fit
into 64 bits and one multiplication or division by a power of ten, which is exact for short numerals
and rounds twice for long ones.
-/

namespace DeferredWork

namespace Numeral

/-- The numeral is a plain run of digits with a sign, and not a negative zero. -/
def isWhole (n : Numeral) : Bool :=
  n.fraction.isEmpty && n.exponent.isNone && !(n.negative && Text.ofDigits n.whole == 0)

/-- The whole number that the numeral is. -/
def int? (n : Numeral) : Option Int :=
  if n.isWhole then
    let magnitude := Text.ofDigits n.whole
    some (if n.negative then -magnitude else magnitude)
  else none

theorem int?_ofInt (n : Int) : (ofInt n).int? = some n := by
  have h := Text.ofDigits_digits n.natAbs
  have hw : (ofInt n).isWhole = true := by
    simp [isWhole, ofInt, h]
    omega
  rw [int?, if_pos hw]
  simp only [ofInt, h]
  by_cases hn : n < 0
  · rw [if_pos (decide_eq_true hn)]
    exact congrArg some (by omega)
  · rw [if_neg (by simpa using hn)]
    exact congrArg some (by omega)

/-! ## Doubles -/

/-- The greatest significand that is kept. -/
def maxSignificand : Nat := 18446744073709551615

/-- Takes digits into a significand while it fits; the rest is the digits that did not. -/
def takeDigits : Nat → List Char → Nat × List Char
  | significand, [] => (significand, [])
  | significand, d :: ds =>
    let next := significand * 10 + (d.toNat - 48)
    if next ≤ maxSignificand then takeDigits next ds else (significand, d :: ds)

/-- The greatest exponent that fits a signed 32-bit word. -/
def maxExponent : Nat := 2147483647

/-- Divides by the greatest power of ten below infinity until the rest of the exponent is a power
that a double can hold, or nothing is left. -/
def scaleDown : Nat → Float → Nat → Float
  | 0, f, _ => f
  | fuel + 1, f, exponent =>
    if exponent ≤ 308 then f / Float.ofNat (Nat.pow 10 exponent)
    else if f == 0 then f
    else scaleDown fuel (f / Float.ofNat (Nat.pow 10 308)) (exponent - 308)

/-- A significand times a power of ten, unless it is too large for a double. -/
def scaled? (significand : Nat) (exponent : Int) : Option Float :=
  let f := Float.ofNat significand
  if 0 ≤ exponent then
    if exponent ≤ 308 then
      let g := f * Float.ofNat (Nat.pow 10 exponent.toNat)
      if g.isInf then none else some g
    else if f == 0 then some f
    else none
  else some (scaleDown (exponent.natAbs / 308 + 1) f exponent.natAbs)

/-- The double that a numeral without its sign stands for, unless it is too large. -/
def magnitude? (n : Numeral) : Option Float :=
  let (significand, surplus) := takeDigits 0 n.whole
  let (significand, left) := takeDigits significand n.fraction
  let exponent : Int := surplus.length - (n.fraction.length - left.length : Nat)
  match n.exponent with
  | none => scaled? significand exponent
  | some (minus, ds) =>
    let e := Text.ofDigits ds
    if maxExponent < e then
      if significand = 0 || minus then some 0 else none
    else scaled? significand (if minus then exponent - e else exponent + e)

/-- The double that a numeral stands for, unless it is too large. -/
def double? (n : Numeral) : Option Float :=
  n.magnitude?.map fun f => if n.negative then -f else f

end Numeral

end DeferredWork

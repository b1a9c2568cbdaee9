import Mathlib.Algebra.Ring.Nat
import Mathlib.Data.List.Induction
import Mathlib.Data.List.TakeWhile
import DeferredWork.Settings.Variables

set_option autoImplicit false

/-!
# How people type numbers

A typed number is a grammar of its own: blank characters around it, at most one plus in front, and
decimal digits, zeros in front included (`Text.IsNumeral`).  The reader of numbers accepts exactly this
grammar and reads the number that it denotes (`Text.readNatural_eq_some_iff`).
-/

namespace DeferredWork.Text

/-! ## Blank characters around a text -/

/-- A text is a core with blank characters around it, the core neither starting nor ending with one. -/
def Trims (s : String) (core : List Char) : Prop :=
  ∃ before after : List Char, s.toList = before ++ core ++ after ∧
    (∀ c ∈ before, isBlank c = true) ∧ (∀ c ∈ after, isBlank c = true) ∧
    (∀ c ∈ core.head?, isBlank c = false) ∧ ∀ c ∈ core.getLast?, isBlank c = false

/-- Cutting the start off leaves what is behind blank characters. -/
theorem trimStart_eq_iff {cs core : List Char} : trimStart cs = core ↔
    ∃ before, cs = before ++ core ∧ (∀ c ∈ before, isBlank c = true) ∧
      ∀ c ∈ core.head?, isBlank c = false := by
  constructor
  · rintro rfl
    refine ⟨cs.takeWhile isBlank, List.takeWhile_append_dropWhile.symm,
      fun c hc => List.mem_takeWhile_imp hc, fun c hc => ?_⟩
    obtain ⟨rest, hrest⟩ := List.head?_eq_some_iff.1 hc
    exact head_trimStart hrest
  · rintro ⟨before, rfl, hbefore, hhead⟩
    rw [trimStart, List.dropWhile_append_of_pos hbefore]
    cases core with
    | nil => rfl
    | cons c core => exact List.dropWhile_cons_of_neg (by simp [hhead c rfl])

theorem trimEnd_eq_iff {cs core : List Char} : trimEnd cs = core ↔
    ∃ after, cs = core ++ after ∧ (∀ c ∈ after, isBlank c = true) ∧
      ∀ c ∈ core.getLast?, isBlank c = false := by
  rw [trimEnd, List.reverse_eq_iff, trimStart_eq_iff, List.head?_reverse]
  constructor
  · rintro ⟨before, hcs, hbefore, hlast⟩
    exact ⟨before.reverse, by rw [← List.reverse_reverse cs, hcs]; simp,
      fun c hc => hbefore c (List.mem_reverse.1 hc), hlast⟩
  · rintro ⟨after, rfl, hafter, hlast⟩
    exact ⟨after.reverse, List.reverse_append, fun c hc => hafter c (List.mem_reverse.1 hc), hlast⟩

/-- Cutting both ends off leaves the core. -/
theorem trims_iff {s : String} {core : List Char} :
    Trims s core ↔ trimEnd (trimStart s.toList) = core := by
  constructor
  · rintro ⟨before, after, hs, hbefore, hafter, hhead, hlast⟩
    cases core with
    | nil =>
      have hall : trimStart s.toList = [] := by
        refine (trimStart_eq_nil_iff _).2 fun c hc => ?_
        rw [hs, List.append_nil, List.mem_append] at hc
        exact hc.elim (hbefore c) (hafter c)
      rw [hall]
      rfl
    | cons c core =>
      have hstart : trimStart s.toList = c :: core ++ after :=
        trimStart_eq_iff.2 ⟨before, by rw [hs, List.append_assoc], hbefore, hhead⟩
      exact trimEnd_eq_iff.2 ⟨after, hstart, hafter, hlast⟩
  · intro hcore
    obtain ⟨before, hs, hbefore, hhead⟩ := trimStart_eq_iff.1 (rfl : trimStart s.toList = _)
    obtain ⟨after, hstart, hafter, hlast⟩ := trimEnd_eq_iff.1 hcore
    refine ⟨before, after, by rw [List.append_assoc, ← hstart]; exact hs, hbefore, hafter, ?_, hlast⟩
    intro c hc
    rw [hstart, List.head?_append, Option.mem_def.1 hc] at hhead
    exact hhead c rfl

/-! ## Digits -/

/-- Decimal digits that denote a number, with any zeros in front. -/
inductive IsDecimal : List Char → Nat → Prop where
  | digit {d : Nat} : d < 10 → IsDecimal [d.digitChar] d
  | snoc {cs : List Char} {n d : Nat} : IsDecimal cs n → d < 10 →
      IsDecimal (cs ++ [d.digitChar]) (10 * n + d)

theorem isDigit_digitChar {d : Nat} (h : d < 10) : isDigit d.digitChar = true := by
  revert h d
  decide

/-- A digit is the digit of a number below ten. -/
theorem exists_digitChar {c : Char} (h : isDigit c = true) : ∃ d < 10, c = d.digitChar := by
  simp only [isDigit, Bool.and_eq_true, decide_eq_true_eq] at h
  have hlow : 48 ≤ c.toNat := h.1
  have hhigh : c.toNat ≤ 57 := h.2
  have hcode : ∀ d < 10, (Nat.digitChar d).toNat = 48 + d := by decide
  refine ⟨c.toNat - 48, by omega, Char.toNat_inj.1 ?_⟩
  rw [hcode _ (by omega)]
  omega

theorem ofDigits_concat_digitChar (cs : List Char) {d : Nat} (h : d < 10) :
    ofDigits (cs ++ [d.digitChar]) = 10 * ofDigits cs + d := by
  rw [ofDigits, Nat.ofDigitChars_append, Nat.ofDigitChars_cons_digitChar_of_lt_ten h]
  rfl

/-- A list of digits denotes its value, and nothing else denotes a number. -/
theorem isDecimal_iff {cs : List Char} {n : Nat} :
    IsDecimal cs n ↔ isNumberText cs = true ∧ ofDigits cs = n := by
  have hsnoc : ∀ {cs d}, d < 10 → (isNumberText (cs ++ [Nat.digitChar d]) = true ↔
      ∀ c ∈ cs, isDigit c = true) := fun hd => by simp [isNumberText, isDigit_digitChar hd]
  constructor
  · intro h
    induction h with
    | @digit d hd =>
      exact ⟨(@hsnoc [] d hd).2 nofun, (ofDigits_concat_digitChar [] hd).trans (Nat.zero_add d)⟩
    | @snoc cs n d _ hd ih =>
      obtain ⟨htext, hvalue⟩ := ih
      refine ⟨(hsnoc hd).2 (List.all_eq_true.1 (Bool.and_eq_true_iff.1 htext).2), ?_⟩
      rw [ofDigits_concat_digitChar cs hd, hvalue]
  · rintro ⟨htext, rfl⟩
    induction cs using List.reverseRecOn with
    | nil => cases htext
    | append_singleton cs c ih =>
      have hlast : isDigit c = true :=
        List.all_eq_true.1 (Bool.and_eq_true_iff.1 htext).2 c List.mem_concat_self
      obtain ⟨d, hd, rfl⟩ := exists_digitChar hlast
      have hdigits := (hsnoc hd).1 htext
      rw [ofDigits_concat_digitChar cs hd]
      by_cases hnone : cs = []
      · subst hnone
        exact (Nat.zero_add d).symm ▸ IsDecimal.digit hd
      · have hmore : isNumberText cs = true := by
          simp [isNumberText, hnone, List.all_eq_true.2 hdigits]
        exact .snoc (ih hmore) hd

/-! ## Numbers -/

/-- A text that denotes a number of at most so many bits: decimal digits with blank characters around
them and at most one plus in front. -/
def IsNumeral (bits : Nat) (s : String) (n : Nat) : Prop :=
  ∃ core ds, Trims s core ∧ (core = ds ∨ core = '+' :: ds) ∧ IsDecimal ds n ∧ n < 2 ^ bits

/-- A list of characters without the plus in front of it, if there is one. -/
def dropPlus : List Char → List Char
  | '+' :: cs => cs
  | cs => cs

theorem dropPlus_eq_iff {core ds : List Char} (h : isNumberText ds = true) :
    dropPlus core = ds ↔ core = ds ∨ core = '+' :: ds := by
  unfold dropPlus
  split
  · rename_i cs
    constructor
    · rintro rfl
      exact .inr rfl
    · rintro (rfl | hcore)
      · cases h
      · exact (List.cons.inj hcore).2
  · rename_i hplus
    exact ⟨.inl, Or.rec id fun hcore => absurd hcore (hplus ds)⟩

theorem readNatural_eq (bits : Nat) (s : String) :
    readNatural bits s =
      let ds := dropPlus (trimEnd (trimStart s.toList))
      if isNumberText ds ∧ ofDigits ds < Nat.pow 2 bits then some (ofDigits ds) else none := rfl

/-- The reader of numbers reads what a text denotes, and refuses a text that denotes nothing. -/
theorem readNatural_eq_some_iff {bits : Nat} {s : String} {n : Nat} :
    readNatural bits s = some n ↔ IsNumeral bits s n := by
  rw [readNatural_eq, IsNumeral]
  simp only [trims_iff, isDecimal_iff, Option.ite_none_right_eq_some, Option.some.injEq]
  constructor
  · rintro ⟨⟨htext, hfits⟩, rfl⟩
    exact ⟨_, _, rfl, (dropPlus_eq_iff htext).1 rfl, ⟨htext, rfl⟩, hfits⟩
  · rintro ⟨core, ds, rfl, hcore, ⟨htext, rfl⟩, hfits⟩
    rw [(dropPlus_eq_iff htext).2 hcore]
    exact ⟨⟨htext, hfits⟩, rfl⟩

end DeferredWork.Text

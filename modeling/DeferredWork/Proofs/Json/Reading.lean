import DeferredWork.Json.Reader
import DeferredWork.Proofs.Text.Digits

set_option autoImplicit false

/-!
# Reading JSON that was written

The reader undoes the writer: a value whose numerals are well formed is read back from its compact
text, whatever characters its strings and names hold (`Json.read_text`).  Each part is read back with
any text behind it, as long as that text does not go on with the number that the part may end in.
-/

namespace DeferredWork

open Text

/-! ## Strings -/

namespace Json

theorem unit?_hexDigits {n : Nat} (h : n < 256) :
    unit? '0' '0' (hexDigit (n / 16)) (hexDigit (n % 16)) = some n := by
  have hhigh := hexValue?_hexDigit ⟨n / 16, by omega⟩
  have hlow := hexValue?_hexDigit ⟨n % 16, by omega⟩
  have hzero : hexValue? '0' = some 0 := rfl
  simp only [unit?, hzero, hhigh, hlow, Option.bind_eq_bind, Option.bind_some]
  exact congrArg some (by omega)

/-- A unit that is no half of a surrogate pair is a character of its own. -/
theorem joinPieces_unit {n : Nat} (ps : List Piece) (h : n < 0xD800) :
    joinPieces (.unit n :: ps) = (joinPieces ps).map (Char.ofNat n :: ·) := by
  have hhigh : ¬ (0xD800 ≤ n ∧ n < 0xDC00) := by omega
  have hlow : ¬ (0xDC00 ≤ n ∧ n < 0xE000) := by omega
  have hhalf : ¬ (0xD800 ≤ n ∧ n < 0xE000) := by omega
  cases ps with
  | nil => simp [joinPieces, hhalf]
  | cons p ps =>
    cases p with
    | char c => simp [joinPieces, hhalf]
    | unit m => rw [joinPieces, if_neg hhigh, if_neg hlow]

theorem readPieces_escape {e c : Char} {text rest : List Char} {ps : List Piece}
    (h : escaped? e = some c) (hread : readPieces text = some (ps, rest)) :
    readPieces ('\\' :: e :: text) = some (.char c :: ps, rest) := by
  have hunit : e ≠ 'u' := by
    rintro rfl
    cases h
  rw [readPieces]
  · simp [h, hread]
  · intro _ _ _ _ _ heq _
    exact hunit heq

theorem readPieces_plain {c : Char} {text rest : List Char} {ps : List Piece} (hquote : c ≠ '"')
    (hslash : c ≠ '\\') (hcontrol : ¬ c.toNat < 0x20) (hread : readPieces text = some (ps, rest)) :
    readPieces (c :: text) = some (.char c :: ps, rest) := by
  rw [readPieces]
  · simp [hslash, hcontrol, hread]
  · exact hquote
  · intro _ _ _ _ _ heq _
    exact hslash heq
  · intro _ _ heq _
    exact hslash heq

/-- A character is written as a letter behind a backslash, as a unit, or as itself. -/
theorem writeChar_cases (c : Char) :
    (∃ e, writeChar c = ['\\', e] ∧ escaped? e = some c) ∨
      (c.toNat < 0x20 ∧ writeChar c =
        ['\\', 'u', '0', '0', hexDigit (c.toNat / 16), hexDigit (c.toNat % 16)]) ∨
      (c ≠ '"' ∧ c ≠ '\\' ∧ ¬ c.toNat < 0x20 ∧ writeChar c = [c]) := by
  by_cases hletter : c ∈ ['"', '\\', '\x08', '\x09', '\x0a', '\x0c', '\x0d']
  · left
    simp only [List.mem_cons, List.not_mem_nil, or_false] at hletter
    rcases hletter with rfl | rfl | rfl | rfl | rfl | rfl | rfl <;> exact ⟨_, rfl, rfl⟩
  · right
    simp only [List.mem_cons, List.not_mem_nil, or_false, not_or] at hletter
    obtain ⟨hquote, hslash, hback, htab, hline, hfeed, hreturn⟩ := hletter
    by_cases hcontrol : c.toNat < 0x20
    · exact .inl ⟨hcontrol, by
        simp [writeChar, hquote, hslash, hback, htab, hline, hfeed, hreturn, hcontrol]⟩
    · exact .inr ⟨hquote, hslash, hcontrol, by
        simp [writeChar, hquote, hslash, hback, htab, hline, hfeed, hreturn, hcontrol]⟩

/-- A written character is read as one piece, and that piece stands for it. -/
theorem readPieces_writeChar (c : Char) {cs text rest : List Char} {ps : List Piece}
    (hread : readPieces text = some (ps, rest)) (hjoin : joinPieces ps = some cs) :
    ∃ ps', readPieces (writeChar c ++ text) = some (ps', rest) ∧ joinPieces ps' = some (c :: cs) := by
  have hchar : joinPieces (.char c :: ps) = some (c :: cs) := by
    rw [joinPieces, hjoin, Option.map_some]
  obtain ⟨e, hwrite, hescape⟩ | ⟨hcontrol, hwrite⟩ | ⟨hquote, hslash, hcontrol, hwrite⟩ :=
    writeChar_cases c
  · rw [hwrite]
    exact ⟨_, readPieces_escape hescape hread, hchar⟩
  · have hunit := unit?_hexDigits (show c.toNat < 256 by omega)
    rw [hwrite]
    refine ⟨.unit c.toNat :: ps, by simp [readPieces, hunit, hread], ?_⟩
    rw [joinPieces_unit ps (by omega), hjoin, Option.map_some, Char.ofNat_toNat]
  · rw [hwrite]
    exact ⟨_, readPieces_plain hquote hslash hcontrol hread, hchar⟩

theorem readString_writeString (s : String) (rest : List Char) :
    readString (s.toList.flatMap writeChar ++ '"' :: rest) = some (some s, rest) := by
  have hpieces : ∀ cs : List Char, ∃ ps, readPieces (cs.flatMap writeChar ++ '"' :: rest) =
      some (ps, rest) ∧ joinPieces ps = some cs := by
    intro cs
    induction cs with
    | nil => exact ⟨[], rfl, rfl⟩
    | cons c cs ih =>
      obtain ⟨ps, hread, hjoin⟩ := ih
      rw [List.flatMap_cons, List.append_assoc]
      exact readPieces_writeChar c hread hjoin
  obtain ⟨ps, hread, hjoin⟩ := hpieces s.toList
  rw [readString, hread]
  simp [hjoin]

end Json

/-! ## Numbers -/

/-- The digits of a numeral are such as JSON asks for. -/
structure Numeral.IsWellFormed (n : Numeral) : Prop where
  whole_ne_nil : n.whole ≠ []
  whole_digits : ∀ c ∈ n.whole, isDigit c = true
  /-- No zero stands before another digit. -/
  whole_head : n.whole.head? = some '0' → n.whole.length = 1
  fraction_digits : ∀ c ∈ n.fraction, isDigit c = true
  exponent_ne_nil : ∀ e ∈ n.exponent, e.2 ≠ []
  exponent_digits : ∀ e ∈ n.exponent, ∀ c ∈ e.2, isDigit c = true

theorem Numeral.isWellFormed_ofInt (n : Int) : (Numeral.ofInt n).IsWellFormed where
  whole_ne_nil := Nat.toDigits_ne_nil
  whole_digits _ := isDigit_of_mem_digits
  whole_head h := by
    by_cases hzero : n.natAbs = 0
    · simp only [Numeral.ofInt, hzero]
      rfl
    · exact absurd h (head?_digits hzero)
  fraction_digits _ h := absurd h List.not_mem_nil
  exponent_ne_nil _ h := nomatch h
  exponent_digits _ h := nomatch h

namespace Json

/-- The text does not go on with a number that stands before it. -/
def EndsNumber (rest : List Char) : Prop := ∀ c ∈ rest.head?, isDigit c = false ∧ c ∉ ['.', 'e', 'E']

theorem endsNumber_nil : EndsNumber [] := fun _ h => nomatch h

theorem endsNumber_cons {c : Char} (h : c ∈ [',', ']', '\x7d']) (rest : List Char) :
    EndsNumber (c :: rest) := by
  intro d hd
  cases hd
  simp only [List.mem_cons, List.not_mem_nil, or_false] at h
  rcases h with rfl | rfl | rfl <;> decide

theorem readExponent_writeExponent {exponent : Option (Bool × List Char)} {rest : List Char}
    (hne : ∀ e ∈ exponent, e.2 ≠ []) (hdigits : ∀ e ∈ exponent, ∀ c ∈ e.2, isDigit c = true)
    (hrest : EndsNumber rest) :
    readExponent (writeExponent exponent ++ rest) = some (exponent, rest) := by
  cases exponent with
  | none =>
    cases rest with
    | nil => rfl
    | cons c cs =>
      have hc := (hrest c rfl).2
      have he : ¬ (c = 'e' ∨ c = 'E') := by
        rintro (rfl | rfl) <;> exact hc (by decide)
      simp only [writeExponent, List.nil_append, readExponent, he, if_false]
  | some e =>
    obtain ⟨minus, ds⟩ := e
    have hds := hdigits _ rfl
    have htake : (ds ++ rest).takeWhile isDigit = ds :=
      takeWhile_isDigit_append hds fun c hc => (hrest c hc).1
    obtain ⟨d, ds', rfl⟩ : ∃ d ds', ds = d :: ds' := List.exists_cons_of_ne_nil (hne _ rfl)
    rw [List.cons_append] at htake
    cases minus with
    | true => simp [writeExponent, readExponent, htake]
    | false =>
      have hd : isDigit d = true := hds d List.mem_cons_self
      have hminus : d ≠ '-' := by rintro rfl; exact absurd hd (by decide)
      have hplus : d ≠ '+' := by rintro rfl; exact absurd hd (by decide)
      simp [writeExponent, readExponent, hminus, hplus, htake]

theorem readFraction_writeFraction {ds rest : List Char} (hds : ∀ c ∈ ds, isDigit c = true)
    (hrest : ∀ c ∈ rest.head?, isDigit c = false ∧ c ≠ '.') :
    readFraction (writeFraction ds ++ rest) = some (ds, rest) := by
  cases ds with
  | nil =>
    refine readFraction.eq_2 rest fun rest' heq => ?_
    rw [heq] at hrest
    exact (hrest '.' rfl).2 rfl
  | cons d ds =>
    have htake : ((d :: ds) ++ rest).takeWhile isDigit = d :: ds :=
      takeWhile_isDigit_append hds fun c hc => (hrest c hc).1
    rw [List.cons_append] at htake
    simp [writeFraction, readFraction, htake]

/-- The exponent, or what stands behind the number, does not go on with the digits before it. -/
theorem head?_writeExponent {exponent : Option (Bool × List Char)} {rest : List Char}
    (hrest : EndsNumber rest) :
    ∀ c ∈ (writeExponent exponent ++ rest).head?, isDigit c = false ∧ c ≠ '.' := by
  intro c hc
  cases exponent with
  | none =>
    obtain ⟨hdigit, hmark⟩ := hrest c hc
    exact ⟨hdigit, fun heq => hmark (by rw [heq]; decide)⟩
  | some e =>
    cases hc
    decide

theorem head?_writeFraction {ds rest : List Char}
    (hrest : ∀ c ∈ rest.head?, isDigit c = false) :
    ∀ c ∈ (writeFraction ds ++ rest).head?, isDigit c = false := by
  intro c hc
  cases ds with
  | nil => exact hrest c hc
  | cons d ds =>
    cases hc
    decide

/-- What stands behind the sign of a numeral is read up to the text behind it. -/
theorem readMagnitude_append {n : Numeral} {rest : List Char} (h : n.IsWellFormed)
    (hrest : EndsNumber rest) (negative : Bool) :
    readMagnitude negative
        (n.whole ++ (writeFraction n.fraction ++ (writeExponent n.exponent ++ rest))) =
      some (⟨negative, n.whole, n.fraction, n.exponent⟩, rest) := by
  have hexponent := readExponent_writeExponent h.exponent_ne_nil h.exponent_digits hrest
  have hfraction := readFraction_writeFraction h.fraction_digits
    (@head?_writeExponent n.exponent rest hrest)
  have hwhole : (n.whole ++ (writeFraction n.fraction ++ (writeExponent n.exponent ++ rest))).takeWhile
      isDigit = n.whole :=
    takeWhile_isDigit_append h.whole_digits
      (head?_writeFraction fun c hc => (head?_writeExponent hrest c hc).1)
  have hhead : (n.whole.isEmpty || (n.whole.head? == some '0' && 1 < n.whole.length)) = false := by
    simp only [Bool.or_eq_false_iff, Bool.and_eq_false_iff, beq_eq_false_iff_ne,
      decide_eq_false_iff_not, List.isEmpty_eq_false_iff]
    refine ⟨h.whole_ne_nil, ?_⟩
    by_cases hzero : n.whole.head? = some '0'
    · exact .inr (by have := h.whole_head hzero; omega)
    · exact .inl hzero
  simp only [readMagnitude, hwhole, hhead, Bool.false_eq_true, if_false, List.drop_left, hfraction,
    Option.bind_eq_bind, Option.bind_some, hexponent]

/-- A numeral is read up to the text behind it. -/
theorem readNumeral_writeNumeral {n : Numeral} {rest : List Char} (h : n.IsWellFormed)
    (hrest : EndsNumber rest) : readNumeral (writeNumeral n ++ rest) = some (n, rest) := by
  have hmagnitude := readMagnitude_append h hrest
  obtain ⟨negative, whole, fraction, exponent⟩ := n
  simp only [writeNumeral, List.append_assoc]
  cases negative with
  | true => exact hmagnitude true
  | false =>
    obtain ⟨d, ds, hcons⟩ := List.exists_cons_of_ne_nil h.whole_ne_nil
    have hd : isDigit d = true := h.whole_digits d (hcons ▸ List.mem_cons_self)
    simp only at hcons hmagnitude
    have hminus : d ≠ '-' := by rintro rfl; exact absurd hd (by decide)
    rw [← hmagnitude false, hcons]
    simp [readNumeral, hminus]

/-! ## Values -/

/-- A value that a text can stand for: its numerals are well formed, and no text in it is ragged. -/
inductive IsPlain : Json → Prop where
  | null : IsPlain .null
  | bool (b : Bool) : IsPlain (.bool b)
  | number {n : Numeral} (h : n.IsWellFormed) : IsPlain (.number n)
  | string (s : String) : IsPlain (.string s)
  | array {items : List Json} (h : ∀ j ∈ items, IsPlain j) : IsPlain (.array items)
  | object {members : List (String × Json)} (h : ∀ m ∈ members, IsPlain m.2) :
      IsPlain (.object members)

theorem skipBlanks_cons {c : Char} (h : c ∉ [' ', '\n', '\t', '\r']) (cs : List Char) :
    skipBlanks (c :: cs) = c :: cs := by
  refine List.dropWhile_cons_of_neg ?_
  simpa [not_or, and_assoc] using h

/-- The text of a numeral starts with a sign or a digit. -/
theorem exists_writeNumeral_eq_cons {n : Numeral} (h : n.IsWellFormed) :
    ∃ c cs, writeNumeral n = c :: cs ∧ (c = '-' ∨ isDigit c = true) := by
  obtain ⟨d, ds, hcons⟩ := List.exists_cons_of_ne_nil h.whole_ne_nil
  have hd : isDigit d = true := h.whole_digits d (hcons ▸ List.mem_cons_self)
  rw [writeNumeral, hcons]
  cases n.negative with
  | true => exact ⟨'-', _, rfl, .inl rfl⟩
  | false => exact ⟨d, _, rfl, .inr hd⟩

theorem not_mem_of_isDigit {c : Char} {cs : List Char} (h : isDigit c = true)
    (hcs : cs.any isDigit = false) : c ∉ cs := fun hc =>
  List.any_eq_false.1 hcs c hc h

/-- The text of a value starts neither with a blank nor with the end of a list. -/
theorem exists_write_eq_cons {j : Json} (h : j.IsPlain) :
    ∃ c cs, write j = c :: cs ∧ c ∉ [' ', '\n', '\t', '\r'] ∧ c ≠ ']' := by
  cases h with
  | null => exact ⟨'n', _, by rw [write], by decide⟩
  | bool b => cases b <;> exact ⟨_, _, by rw [write], by decide⟩
  | number h =>
    obtain ⟨c, cs, hwrite, rfl | hdigit⟩ := exists_writeNumeral_eq_cons h
    · exact ⟨_, cs, by rw [write, hwrite], by decide⟩
    · refine ⟨c, cs, by rw [write, hwrite], not_mem_of_isDigit hdigit (by decide), ?_⟩
      rintro rfl
      exact absurd hdigit (by decide)
  | string s => exact ⟨'"', _, by rw [write, writeString], by decide⟩
  | array _ => exact ⟨'[', _, by rw [write], by decide⟩
  | object _ => exact ⟨'\x7b', _, by rw [write], by decide⟩

/-- The value is read back from its text, with fuel for each of its characters. -/
def IsReadBack (j : Json) : Prop :=
  ∀ (fuel : Nat) (rest : List Char), (write j).length ≤ fuel → EndsNumber rest →
    readValue fuel (write j ++ rest) = some (j, rest)

theorem isReadBack_number {n : Numeral} (h : n.IsWellFormed) : IsReadBack (.number n) := by
  intro fuel rest hfuel hrest
  have hread := readNumeral_writeNumeral h hrest
  obtain ⟨c, cs, hwrite, hstart⟩ := exists_writeNumeral_eq_cons h
  -- no other kind of value starts with a sign or a digit
  have hother : c ∉ [' ', '\n', '\t', '\r', 'n', 't', 'f', '"', '[', '\x7b'] := by
    rcases hstart with rfl | hdigit
    · decide
    · exact not_mem_of_isDigit hdigit (by decide)
  simp only [List.mem_cons, not_or] at hother
  obtain ⟨hspace, hline, htab, hreturn, hn, ht, hf, hquote, hbracket, hbrace, -⟩ := hother
  have hblank : c ∉ [' ', '\n', '\t', '\r'] := by simp [hspace, hline, htab, hreturn]
  rw [write, hwrite] at hfuel
  rw [write]
  rw [hwrite, List.cons_append] at hread ⊢
  cases fuel with
  | zero => exact absurd hfuel (Nat.not_succ_le_zero _)
  | succ fuel =>
    simp [readValue, skipBlanks_cons hblank, hn, ht, hf, hquote, hbracket, hbrace, hread]

theorem isReadBack_string (s : String) : IsReadBack (.string s) := by
  intro fuel rest hfuel _
  have hread := readString_writeString s rest
  cases fuel with
  | zero => simp [write, writeString] at hfuel
  | succ fuel => simp [write, writeString, readValue, skipBlanks_cons, hread]

/-! ### Arrays -/

/-- The items of an array are read back if each of them is. -/
theorem readItems_writeItems {items : List Json} {fuel : Nat} {rest : List Char} (hne : items ≠ [])
    (hitems : ∀ j ∈ items, IsReadBack j) (hfuel : (writeItems items).length ≤ fuel) :
    readItems fuel (writeItems items ++ rest) = some (items, rest) := by
  induction items generalizing fuel with
  | nil => exact absurd rfl hne
  | cons j js ih =>
    have hj := hitems j List.mem_cons_self
    cases fuel with
    | zero => cases js <;> simp [writeItems] at hfuel
    | succ fuel =>
      cases js with
      | nil =>
        have hread := hj fuel (']' :: rest) (by simpa [writeItems] using hfuel)
          (endsNumber_cons (by decide) rest)
        simp [writeItems, readItems, hread, skipBlanks_cons]
      | cons k ks =>
        rw [writeItems, List.length_append, List.length_cons] at hfuel
        have hread := hj fuel (',' :: (writeItems (k :: ks) ++ rest)) (by omega)
          (endsNumber_cons (by decide) _)
        have hrest := @ih fuel (List.cons_ne_nil k ks)
          (fun j hj => hitems j (List.mem_cons_of_mem _ hj)) (by omega)
        simp [writeItems, readItems, hread, skipBlanks_cons, hrest]

theorem isReadBack_array {items : List Json} (hplain : ∀ j ∈ items, IsPlain j)
    (hitems : ∀ j ∈ items, IsReadBack j) : IsReadBack (.array items) := by
  intro fuel rest hfuel _
  cases fuel with
  | zero => simp [write] at hfuel
  | succ fuel =>
    cases items with
    | nil => simp [write, writeItems, readValue, skipBlanks_cons]
    | cons j js =>
      have hread := @readItems_writeItems (j :: js) fuel rest (List.cons_ne_nil j js) hitems
        (by simpa [write] using hfuel)
      obtain ⟨c, cs, hcons, hblank, hend⟩ := exists_write_eq_cons (hplain j List.mem_cons_self)
      obtain ⟨cs', hstart⟩ : ∃ cs', writeItems (j :: js) ++ rest = c :: cs' := by
        cases js <;> exact ⟨_, by rw [writeItems, hcons]; rfl⟩
      rw [hstart] at hread
      simp [write, readValue, skipBlanks_cons, hstart, hblank, hend, hread]

/-! ### Objects -/

/-- The members of an object are read back if each of their values is. -/
theorem readMembers_writeMembers {members : List (String × Json)} {fuel : Nat} {rest : List Char}
    (hne : members ≠ []) (hmembers : ∀ m ∈ members, IsReadBack m.2)
    (hfuel : (writeMembers members).length ≤ fuel) :
    readMembers fuel (writeMembers members ++ rest) =
      some (members.map fun m => (some m.1, m.2), rest) := by
  induction members generalizing fuel with
  | nil => exact absurd rfl hne
  | cons m ms ih =>
    obtain ⟨name, j⟩ := m
    have hj := hmembers (name, j) List.mem_cons_self
    cases fuel with
    | zero => cases ms <;> simp [writeMembers] at hfuel
    | succ fuel =>
      cases ms with
      | nil =>
        have hread := hj fuel ('\x7d' :: rest) (by simp [writeMembers] at hfuel ⊢; omega)
          (endsNumber_cons (by decide) rest)
        simp [writeMembers, writeString, readMembers, readString_writeString, hread, skipBlanks_cons]
      | cons m ms =>
        simp only [writeMembers, List.length_append, List.length_cons] at hfuel
        have hread := hj fuel (',' :: (writeMembers (m :: ms) ++ rest)) (by simp only; omega)
          (endsNumber_cons (by decide) _)
        have hrest := @ih fuel (List.cons_ne_nil m ms)
          (fun j hj => hmembers j (List.mem_cons_of_mem _ hj)) (by omega)
        simp [writeMembers, writeString, readMembers, readString_writeString, hread,
          skipBlanks_cons, hrest]

theorem ofMembers_map_some (members : List (String × Json)) :
    ofMembers (members.map fun m => (some m.1, m.2)) = .object members := by
  have hnames : (members.map fun m => (some m.1, m.2)).mapM
      (fun m : Option String × Json => m.1.map fun name => (name, m.2)) = some members := by
    induction members with
    | nil => rfl
    | cons m ms ih => simp [List.mapM_cons, ih]
  rw [ofMembers, hnames]

theorem isReadBack_object {members : List (String × Json)}
    (hmembers : ∀ m ∈ members, IsReadBack m.2) : IsReadBack (.object members) := by
  intro fuel rest hfuel _
  cases fuel with
  | zero => simp [write] at hfuel
  | succ fuel =>
    cases members with
    | nil => simp [write, writeMembers, readValue, skipBlanks_cons]
    | cons m ms =>
      have hread := @readMembers_writeMembers (m :: ms) fuel rest (List.cons_ne_nil m ms) hmembers
        (by simpa [write] using hfuel)
      obtain ⟨cs, hstart⟩ : ∃ cs, writeMembers (m :: ms) ++ rest = '"' :: cs := by
        cases ms <;> exact ⟨_, by rw [writeMembers, writeString]; rfl⟩
      rw [hstart] at hread
      have hobject := ofMembers_map_some (m :: ms)
      simpa [write, readValue, skipBlanks_cons, hstart, hread] using hobject

/-! ### The whole text -/

theorem IsPlain.isReadBack {j : Json} (h : j.IsPlain) : IsReadBack j := by
  induction h with
  | null =>
    intro fuel rest hfuel _
    cases fuel with
    | zero => simp [write] at hfuel
    | succ fuel => simp [write, readValue, skipBlanks_cons]
  | bool b =>
    intro fuel rest hfuel _
    cases fuel with
    | zero => cases b <;> simp [write] at hfuel
    | succ fuel => cases b <;> simp [write, readValue, skipBlanks_cons]
  | number h => exact isReadBack_number h
  | string s => exact isReadBack_string s
  | array h ih => exact isReadBack_array h ih
  | object _ ih => exact isReadBack_object ih

/-- Every plain value is read back from its text. -/
theorem read_text {j : Json} (h : j.IsPlain) : read j.text = some j := by
  have hread := h.isReadBack (2 * (write j).length + 2) [] (by omega) endsNumber_nil
  rw [List.append_nil] at hread
  simp [read, text, hread, skipBlanks]

end Json

end DeferredWork

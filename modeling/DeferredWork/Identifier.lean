import DeferredWork.Text.Blank
import DeferredWork.Text.Digits
set_option autoImplicit false

/-!
# Identifiers

Jobs, the scopes that serialize them and the owners of locks are named by texts.  A name that comes
from outside must not be blank.  Where a new name is needed, it is drawn as a 128-bit universally
unique identifier, written as five groups of hexadecimal digits.
-/

namespace DeferredWork

/-- Why a value of the core vocabulary was refused. -/
inductive CoreError where
  | validation (reason : String)
  | invalidId (reason : String)
  deriving DecidableEq, Repr

/-- The wording of a core error. -/
def CoreError.message : CoreError → String
  | .validation reason => s!"validation failed: {reason}"
  | .invalidId reason => s!"invalid identifier: {reason}"

/-- Accepts a name that is not blank; the error says which kind of name it was to be. -/
def checkedName (kind name : String) : Except CoreError String :=
  if Text.isBlankText name then .error (.invalidId s!"{kind}: must not be blank") else .ok name

/-! ## Kinds of names -/

/-- The name of a stored job. -/
structure JobId where
  text : String
  deriving DecidableEq, Repr, Inhabited

/-- The name of a group of jobs, of which the exclusive ones run one at a time. -/
structure ScopeId where
  text : String
  deriving DecidableEq, Repr, Inhabited

/-- The name of the engine that holds a lock. -/
structure Owner where
  text : String
  deriving DecidableEq, Repr, Inhabited

/-- A job name from outside. -/
def JobId.parse (name : String) : Except CoreError JobId := (checkedName "JobId" name).map .mk

/-- A scope name from outside. -/
def ScopeId.parse (name : String) : Except CoreError ScopeId := (checkedName "ScopeId" name).map .mk

/-- An owner name from outside. -/
def Owner.parse (name : String) : Except CoreError Owner := (checkedName "LockOwner" name).map .mk

namespace JobId

instance : LT JobId := ⟨fun a b => a.text < b.text⟩
instance (a b : JobId) : Decidable (a < b) := inferInstanceAs (Decidable (a.text < b.text))
instance : Ord JobId := ⟨compareOn text⟩

theorem lt_def {a b : JobId} : a < b ↔ a.text < b.text := Iff.rfl

theorem lt_irrefl (a : JobId) : ¬ a < a := String.lt_irrefl a.text

theorem lt_trans {a b c : JobId} (h₁ : a < b) (h₂ : b < c) : a < c := String.lt_trans h₁ h₂

theorem eq_of_not_lt {a b : JobId} (h₁ : ¬ a < b) (h₂ : ¬ b < a) : a = b := by
  cases a; cases b
  simp only [lt_def] at h₁ h₂
  simpa using String.le_antisymm (String.not_lt.1 h₂) (String.not_lt.1 h₁)

instance : Std.TransOrd JobId := inferInstanceAs (Std.TransCmp (compareOn text))

instance : Std.LawfulEqOrd JobId where
  eq_of_compare {a b} h := by
    have h' : compare a.text b.text = .eq := h
    cases a; cases b
    simpa using Std.LawfulEqCmp.eq_of_compare h'

end JobId

/-! ## Drawn names -/

/-- A universally unique identifier of 128 bits. -/
structure Uuid where
  bits : Nat
  bits_lt : bits < 0x100000000000000000000000000000000
  deriving DecidableEq

namespace Uuid

/-- The identifier whose bits are all zero. -/
def nil : Uuid := ⟨0, by decide⟩

instance : Inhabited Uuid := ⟨nil⟩

/-- The `n`-th identifier that is drawn in an era, which is a number of milliseconds since the start
of 1970: the era in the first 48 bits, the bits that mark version 7 and the variant, and the count in
the last 48 bits. -/
def drawn (era n : Nat) : Uuid :=
  ⟨era % 0x1000000000000 * 0x100000000000000000000 + 0x70008000000000000000 +
    n % 0x1000000000000, by omega⟩

/-- The five groups of digits, of which the first holds the highest bits. -/
def write (u : Uuid) : List Char :=
  let ds := Text.hexPadded 32 u.bits
  ds.take 8 ++ '-' :: (ds.drop 8).take 4 ++ '-' :: (ds.drop 12).take 4 ++
    '-' :: (ds.drop 16).take 4 ++ '-' :: ds.drop 20

/-- The identifier as text. -/
def text (u : Uuid) : String := String.ofList u.write

/-- The identifier of 32 hexadecimal digits. -/
def ofDigits? (cs : List Char) : Option Uuid := do
  let n ← if cs.length = 32 then Text.ofHex? 0 cs else none
  if h : n < 0x100000000000000000000000000000000 then some ⟨n, h⟩ else none

/-- The identifier of five groups of digits with hyphens between them. -/
def ofGroups? (cs : List Char) : Option Uuid :=
  if cs.length = 36 ∧ cs[8]? = some '-' ∧ cs[13]? = some '-' ∧ cs[18]? = some '-' ∧
      cs[23]? = some '-' then
    ofDigits? (cs.take 8 ++ (cs.drop 9).take 4 ++ (cs.drop 14).take 4 ++ (cs.drop 19).take 4 ++
      cs.drop 24)
  else none

/-- The identifier that a text stands for: five groups of digits, alone, in braces or as a resource
name (`urn:uuid:` in whatever case), or the digits without hyphens. -/
def read? (cs : List Char) : Option Uuid :=
  if cs.length = 32 then ofDigits? cs
  else if cs.length = 38 ∧ cs.head? = some '\x7b' ∧ cs.getLast? = some '\x7d' then
    ofGroups? ((cs.drop 1).take 36)
  else if cs.length = 45 ∧ (cs.take 9).map Char.toLower = "urn:uuid:".toList then
    ofGroups? (cs.drop 9)
  else ofGroups? cs

end Uuid

/-- The job name that a drawn identifier gives. -/
def JobId.ofUuid (u : Uuid) : JobId := ⟨u.text⟩

/-- The owner name of an engine: the engine's name and a drawn identifier. -/
def Owner.ofUuid (engine : String) (u : Uuid) : Owner := ⟨s!"{engine}-{u.text}"⟩

/-! ## Revisions -/

/-- What a writer expects the revision of a stored job to be. -/
inductive Expected where
  | any
  | exactly (revision : Nat)
  deriving DecidableEq, Repr

/-- The expectation is met. -/
def Expected.matches : Expected → Nat → Bool
  | .any, _ => true
  | .exactly revision, actual => revision == actual

@[simp]
theorem Expected.matches_any (actual : Nat) : Expected.any.matches actual = true := rfl

@[simp]
theorem Expected.matches_exactly (revision actual : Nat) :
    (Expected.exactly revision).matches actual = true ↔ revision = actual := by
  simp [Expected.matches]

/-- The expectation as an error message shows it. -/
def Expected.describe : Expected → String
  | .any => "Any"
  | .exactly revision => s!"Exact({revision})"

end DeferredWork

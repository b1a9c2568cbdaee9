import DeferredWork.Job.Basic
set_option autoImplicit false

/-!
# Scope tokens

Each engine has one token per scope.  An exclusive job takes the token of its scope before it is
dispatched and gives it back when its execution is over, so that an engine never races itself.  Main
statement: a token is taken exactly if nobody held it.
-/

namespace DeferredWork

/-- The tokens that an engine has given out. -/
structure ScopeTokens where
  held : List ScopeId
  nodup : held.Nodup
  deriving DecidableEq

namespace ScopeTokens

/-- All tokens are free. -/
def allFree : ScopeTokens := ⟨[], .nil⟩

instance : Inhabited ScopeTokens := ⟨allFree⟩

/-- The token of a scope is given out. -/
def isHeld (tokens : ScopeTokens) (scope : ScopeId) : Bool := tokens.held.contains scope

/-- How many tokens are given out. -/
def count (tokens : ScopeTokens) : Nat := tokens.held.length

/-- The tokens after one more is given out, if it was free. -/
def take? (tokens : ScopeTokens) (scope : ScopeId) : Option ScopeTokens :=
  if h : scope ∈ tokens.held then none
  else some ⟨scope :: tokens.held, List.nodup_cons.2 ⟨h, tokens.nodup⟩⟩

/-- The tokens after one came back. -/
def giveBack (tokens : ScopeTokens) (scope : ScopeId) : ScopeTokens :=
  ⟨tokens.held.erase scope, tokens.nodup.erase scope⟩

theorem take?_eq_none_iff {tokens : ScopeTokens} {scope : ScopeId} :
    tokens.take? scope = none ↔ tokens.isHeld scope = true := by
  simp [take?, isHeld]

theorem isHeld_take? {tokens taken : ScopeTokens} {scope s : ScopeId}
    (h : tokens.take? scope = some taken) :
    taken.isHeld s = true ↔ s = scope ∨ tokens.isHeld s = true := by
  simp only [take?] at h
  split at h
  · exact absurd h (by simp)
  · cases h
    simp [isHeld]

theorem isHeld_giveBack {tokens : ScopeTokens} {scope s : ScopeId} :
    (tokens.giveBack scope).isHeld s = true ↔ s ≠ scope ∧ tokens.isHeld s = true := by
  simp [isHeld, giveBack, tokens.nodup.mem_erase_iff]

end ScopeTokens

end DeferredWork

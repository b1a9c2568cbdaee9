set_option autoImplicit false

/-!
# Interactions

An interaction is a computation that proceeds by asking questions of its surroundings, one at a
time: it is done, or breaks off, or asks and goes on with the answer.  Because the questions are
data, one text of an interaction serves for running it alone, for running it among others that act
between its questions, and for reasoning about both.  Main statement: interactions are a lawful
monad.
-/

namespace DeferredWork

/-- A computation that asks questions of the kinds in `Q` and ends with a value or breaks off. -/
inductive Interaction (Q : Type → Type 1) (α : Type) : Type 1 where
  | done (a : α)
  /-- A broken promise of the program itself; nobody answers for it. -/
  | abort (reason : String)
  | ask {β : Type} (question : Q β) (next : β → Interaction Q α)

namespace Interaction

variable {Q : Type → Type 1} {α β γ : Type}

/-- Goes on with the value of an interaction. -/
def bind : Interaction Q α → (α → Interaction Q β) → Interaction Q β
  | .done a, f => f a
  | .abort reason, _ => .abort reason
  | .ask q next, f => .ask q fun b => bind (next b) f

instance : Monad (Interaction Q) where
  pure := .done
  bind := bind

/-- Asks one question and ends with its answer. -/
def query (q : Q α) : Interaction Q α := .ask q .done

/-- Does something more if the interaction breaks off, and then breaks off for the same reason. -/
def onAbort (cleanup : Interaction Q Unit) : Interaction Q α → Interaction Q α
  | .done a => .done a
  | .abort reason => cleanup.bind fun _ => .abort reason
  | .ask q next => .ask q fun b => onAbort cleanup (next b)

/-! ## Laws -/

@[simp]
theorem done_bind (a : α) (f : α → Interaction Q β) : bind (.done a) f = f a := rfl

@[simp]
theorem abort_bind (reason : String) (f : α → Interaction Q β) :
    bind (.abort reason) f = .abort reason := rfl

@[simp]
theorem ask_bind (q : Q γ) (next : γ → Interaction Q α) (f : α → Interaction Q β) :
    bind (.ask q next) f = .ask q fun b => bind (next b) f := rfl

theorem bind_done (x : Interaction Q α) : bind x .done = x := by
  induction x with
  | done a => rfl
  | abort reason => rfl
  | ask q next ih => simp [ih]

theorem bind_assoc (x : Interaction Q α) (f : α → Interaction Q β) (g : β → Interaction Q γ) :
    bind (bind x f) g = bind x fun a => bind (f a) g := by
  induction x with
  | done a => rfl
  | abort reason => rfl
  | ask q next ih => simp [ih]

instance : LawfulMonad (Interaction Q) :=
  LawfulMonad.mk' _ (fun x => bind_done x) (fun _ _ => rfl) bind_assoc

end Interaction

end DeferredWork

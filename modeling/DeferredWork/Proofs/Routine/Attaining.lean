import DeferredWork.Proofs.Routine.Runs

set_option autoImplicit false

/-!
# What an interaction comes to

Where it is said how questions are answered, from state to state, an interaction may be promised to
end with a certain conversation behind it, a value and a state (`Interaction.Attains`).  The promise
is computed along the interaction, question by question, and where the questions can be answered at
all, an interaction that is asked to its end keeps it.
-/

namespace DeferredWork.Interaction

variable {Q : Type → Type 1} {S : Type} {α β : Type}
  {replies : S → {β : Type} → Q β → β → S → Prop} {post : List (Exchange Q) → α → S → Prop} {f : S}

/-- However its questions are answered, the interaction does not break off, and ends with a
conversation, a value and a state as promised. -/
def Attains (replies : S → {β : Type} → Q β → β → S → Prop)
    (post : List (Exchange Q) → α → S → Prop) : Interaction Q α → S → Prop
  | .done a, f => post [] a f
  | .abort _, _ => False
  | .ask q next, f =>
    ∀ answer f', replies f q answer f' →
      Attains replies (fun said => post (⟨q, answer⟩ :: said)) (next answer) f'

theorem Attains.mono {post' : List (Exchange Q) → α → S → Prop} {x : Interaction Q α}
    (h : x.Attains replies post f) (hpost : ∀ said a f, post said a f → post' said a f) :
    x.Attains replies post' f := by
  induction x generalizing f post post' with
  | done a => exact hpost [] a f h
  | abort reason => exact h
  | ask q next ih =>
    exact fun answer f' hreply => ih answer (h answer f' hreply) fun said => hpost (_ :: said)

theorem attains_bind {post : List (Exchange Q) → β → S → Prop} {x : Interaction Q α}
    {next : α → Interaction Q β}
    (h : x.Attains replies
      (fun said a f => (next a).Attains replies (fun more => post (said ++ more)) f) f) :
    (x.bind next).Attains replies post f := by
  induction x generalizing f post with
  | done a => exact h
  | abort reason => exact h
  | ask q _ ih => exact fun answer f' hreply => ih answer (h answer f' hreply)

/-- What is to be done in case of a break does not matter to an interaction that does not break
off. -/
theorem Attains.onAbort {x : Interaction Q α} (h : x.Attains replies post f)
    (cleanup : Interaction Q Unit) : (onAbort cleanup x).Attains replies post f := by
  induction x generalizing f post with
  | done a => exact h
  | abort reason => exact h.elim
  | ask q _ ih => exact fun answer f' hreply => ih answer (h answer f' hreply)

end DeferredWork.Interaction

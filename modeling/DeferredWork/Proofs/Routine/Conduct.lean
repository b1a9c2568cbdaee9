import DeferredWork.Proofs.Transaction.Service

set_option autoImplicit false

/-!
# Conduct

Rules say what may be asked after a conversation, and which answers can come about.  An interaction
keeps rules if, whatever it is told, all it asks is allowed, it does not break off, and it ends as
promised (`Interaction.Keeps`); a sequence of interactions keeps rules if each of its parts does,
the second after whatever the first leaves (`Interaction.keeps_bind`).  The conduct of a routine is
a set of rules for batches, dispatched jobs and tokens; all its other calls are free.
-/

namespace DeferredWork

variable {ε : Type → Type} {α β : Type}

/-- What may be asked after a conversation, and which exchanges can come about. -/
structure Rules (Q : Type → Type 1) where
  possible : Exchange Q → Prop
  allows : List (Exchange Q) → {β : Type} → Q β → Prop

namespace Interaction

variable {Q : Type → Type 1} {rules : Rules Q}

/-- After a conversation, an interaction asks only what is allowed, does not break off, and ends with
a conversation and a value as promised. -/
def Keeps (rules : Rules Q) (post : List (Exchange Q) → α → Prop) :
    Interaction Q α → List (Exchange Q) → Prop
  | .done a, talk => post talk a
  | .abort _, _ => False
  | .ask q next, talk =>
    rules.allows talk q ∧
      ∀ b, rules.possible ⟨q, b⟩ → Keeps rules post (next b) (talk ++ [⟨q, b⟩])

theorem Keeps.mono {post post' : List (Exchange Q) → α → Prop} {r : Interaction Q α}
    {talk : List (Exchange Q)} (h : r.Keeps rules post talk)
    (hpost : ∀ talk a, post talk a → post' talk a) : r.Keeps rules post' talk := by
  induction r generalizing talk with
  | done a => exact hpost talk a h
  | abort reason => exact h
  | ask q next ih =>
    obtain ⟨hallowed, hnext⟩ := h
    exact ⟨hallowed, fun b hb => ih b (hnext b hb)⟩

/-- After a conversation that can come about, an interaction goes on to keep the rules, and all that
it has asked was allowed. -/
theorem Keeps.of_leads {post : List (Exchange Q) → α → Prop} {r r' : Interaction Q α}
    {before talk : List (Exchange Q)} (h : r.Keeps rules post before) (hleads : r.Leads talk r')
    (hpossible : ∀ exchange ∈ talk, rules.possible exchange) :
    r'.Keeps rules post (before ++ talk) ∧
      ∀ exchange ∈ talk, ∃ earlier, rules.allows earlier exchange.question := by
  induction hleads generalizing before with
  | stop r =>
    rw [List.append_nil]
    exact ⟨h, List.forall_mem_nil _⟩
  | @ask _ q b next talk r' rest ih =>
    obtain ⟨hallowed, hnext⟩ := h
    obtain ⟨hfirst, hrest⟩ := List.forall_mem_cons.1 hpossible
    obtain ⟨hkeeps, hallallowed⟩ := ih (hnext b hfirst) hrest
    rw [List.append_cons]
    exact ⟨hkeeps, List.forall_mem_cons.2 ⟨⟨before, hallowed⟩, hallallowed⟩⟩

theorem keeps_bind {post : List (Exchange Q) → β → Prop} {x : Interaction Q α}
    {f : α → Interaction Q β} {talk : List (Exchange Q)} :
    (x.bind f).Keeps rules post talk ↔
      x.Keeps rules (fun talk a => (f a).Keeps rules post talk) talk := by
  induction x generalizing talk with
  | done a => exact Iff.rfl
  | abort reason => exact Iff.rfl
  | ask q next ih =>
    rw [ask_bind, Keeps, Keeps]
    constructor
    · rintro ⟨hallowed, hnext⟩
      exact ⟨hallowed, fun b hb => (ih b).1 (hnext b hb)⟩
    · rintro ⟨hallowed, hnext⟩
      exact ⟨hallowed, fun b hb => (ih b).2 (hnext b hb)⟩

theorem keeps_query_bind {post : List (Exchange Q) → β → Prop} {q : Q α} {f : α → Interaction Q β}
    {talk : List (Exchange Q)} :
    ((query q).bind f).Keeps rules post talk ↔
      rules.allows talk q ∧
        ∀ a, rules.possible ⟨q, a⟩ → (f a).Keeps rules post (talk ++ [⟨q, a⟩]) :=
  Iff.rfl

/-- What is to be done in case of a break does not matter to an interaction that does not break
off. -/
theorem Keeps.onAbort {post : List (Exchange Q) → α → Prop} {r : Interaction Q α}
    {talk : List (Exchange Q)} (h : r.Keeps rules post talk) (cleanup : Interaction Q Unit) :
    (onAbort cleanup r).Keeps rules post talk := by
  induction r generalizing talk with
  | done a => exact h
  | abort reason => exact h.elim
  | ask q next ih =>
    obtain ⟨hallowed, hnext⟩ := h
    exact ⟨hallowed, fun b hb => ih b (hnext b hb)⟩

end Interaction

/-! ## Routines -/

/-- The exchange can come about among callers that do not crash: the store answers truthfully. -/
def Exchange.IsPlausible : Exchange (Call ε) → Prop
  | ⟨.store (.get id), .ok (some row)⟩ => row.id = id
  | ⟨.store _, .error (.crashed _)⟩ => False
  | _ => True

/-- What a routine may do after a conversation. -/
structure Conduct (ε : Type → Type) where
  /-- The batches that it may hand to the store. -/
  apply : List (Exchange (Call ε)) → List Write → Prop
  /-- The jobs that it may hand to the pool. -/
  dispatch : List (Exchange (Call ε)) → Dispatched → Prop := fun _ _ => False
  takeToken : List (Exchange (Call ε)) → ScopeId → Prop := fun _ _ => False
  giveToken : List (Exchange (Call ε)) → ScopeId → Prop := fun _ _ => False

/-- The rules of a conduct. -/
def Conduct.rules (conduct : Conduct ε) : Rules (Call ε) where
  possible := Exchange.IsPlausible
  allows talk _ call :=
    match call with
    | .store (.apply ws) => conduct.apply talk ws
    | .dispatch d => conduct.dispatch talk d
    | .takeToken scope => conduct.takeToken talk scope
    | .giveToken scope => conduct.giveToken talk scope
    | _ => True

namespace Exchange

/-- The rows that the store told, one by one or as due. -/
def told : Exchange (Call ε) → List Job
  | ⟨.store (.get _), .ok (some row)⟩ => [row]
  | ⟨.store (.findDue _ _), .ok rows⟩ => rows
  | _ => []

theorem IsPlausible.truthful {exchange : Exchange (Call ε)} (h : exchange.IsPlausible) :
    exchange.IsTruthful := by
  obtain ⟨question, answer⟩ := exchange
  cases question with
  | store call =>
    cases call with
    | get id =>
      match answer, h with
      | .ok (some row), h => exact h
      | .ok none, _ => trivial
      | .error _, _ => trivial
    | _ => trivial
  | _ => trivial

end Exchange

/-- The store never makes a caller crash. -/
theorem Call.Answered.plausible {s s' : Store} {call : Call ε β} {answer : β}
    (h : call.Answered s answer s') : Exchange.IsPlausible ⟨call, answer⟩ := by
  have htruth := h.truthful
  cases call with
  | store call =>
    have hresponse : s.respond call = (answer, s') := h
    match answer with
    | .ok b =>
      cases call with
      | get id =>
        match b, htruth with
        | some row, htruth => exact htruth
        | none, _ => trivial
      | _ => trivial
    | .error (.refused e) => cases call <;> trivial
    | .error (.crashed reason) =>
      rw [Store.respond] at hresponse
      split at hresponse <;> cases hresponse
  | _ => trivial

namespace Routine

/-- The calls of a run are answered in ways that can come about. -/
theorem Runs.isPlausible {r r' : Routine ε α} {s s' : Store} {trace : List (Event ε)}
    (h : Runs s r trace s' r') : ∀ exchange ∈ trace.filterMap Event.own?, exchange.IsPlausible := by
  induction h with
  | stop s r => exact List.forall_mem_nil _
  | own answered rest ih =>
    have hfirst := answered.plausible
    exact List.forall_mem_cons.2 ⟨hfirst, ih⟩
  | other accepted rest ih => exact ih
  | reach rest ih => exact ih

/-- A run to the end has ended as the conduct promises, and was allowed all that it asked. -/
theorem Runs.kept {conduct : Conduct ε} {post : List (Exchange (Call ε)) → α → Prop}
    {r r' : Routine ε α} {s s' : Store} {trace : List (Event ε)} (h : Runs s r trace s' r')
    (hkeeps : r.Keeps conduct.rules post []) (ended : r'.isOver = true) :
    (∃ a, post (trace.filterMap Event.own?) a) ∧
      ∀ exchange ∈ trace.filterMap Event.own?,
        ∃ earlier, conduct.rules.allows earlier exchange.question := by
  obtain ⟨hrest, hallowed⟩ := hkeeps.of_leads h.leads h.isPlausible
  refine ⟨?_, hallowed⟩
  cases r' with
  | done a => exact ⟨a, hrest⟩
  | abort reason => exact hrest.elim
  | ask q next => cases ended

end Routine

end DeferredWork

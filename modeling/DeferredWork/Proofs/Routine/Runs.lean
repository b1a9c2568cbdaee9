import DeferredWork.Cluster.Run
import DeferredWork.Proofs.Store.Revision

set_option autoImplicit false

/-!
# Runs of routines among others

A routine makes its calls one at a time, and between any two of them others may commit whatever the
store accepts, or take the store out of reach (`Routine.Runs`); when a quiet cluster runs a routine,
nobody does (`World.runs_of_run`).  A run leaves a trace; what the routine itself asked and was told
in it is a conversation (`Interaction.Leads`), and the batches that the store accepted in it are a
history of the store (`Routine.Runs.commits`).  If no name is inserted twice, a row that a routine
reads pins its name for the rest of the run (`Routine.Runs.keeps`).
-/

namespace DeferredWork

variable {ε : Type → Type} {α β : Type}

/-! ## Conversations -/

/-- A question that was answered. -/
structure Exchange (Q : Type → Type 1) : Type 1 where
  {β : Type}
  question : Q β
  answer : β

namespace Interaction

variable {Q : Type → Type 1}

/-- An interaction asks the questions of a conversation, is told the answers, and goes on like
another interaction. -/
inductive Leads : Interaction Q α → List (Exchange Q) → Interaction Q α → Prop
  | stop (r : Interaction Q α) : Leads r [] r
  | ask {β : Type} {q : Q β} {b : β} {next : β → Interaction Q α} {talk : List (Exchange Q)}
      {r' : Interaction Q α} (rest : Leads (next b) talk r') :
      Leads (.ask q next) (⟨q, b⟩ :: talk) r'

theorem Leads.append {r r₁ r₂ : Interaction Q α} {talk₁ talk₂ : List (Exchange Q)}
    (h₁ : r.Leads talk₁ r₁) (h₂ : r₁.Leads talk₂ r₂) : r.Leads (talk₁ ++ talk₂) r₂ := by
  induction h₁ with
  | stop r => exact h₂
  | ask rest ih => exact .ask (ih h₂)

/-- The answers determine how an interaction goes on. -/
theorem Leads.unique {r r₁ r₂ : Interaction Q α} {talk : List (Exchange Q)}
    (h₁ : r.Leads talk r₁) (h₂ : r.Leads talk r₂) : r₁ = r₂ := by
  induction h₁ with
  | stop r =>
    cases h₂
    rfl
  | ask rest ih =>
    cases h₂ with
    | ask rest₂ => exact ih rest₂

/-- What is done after an interaction, or in case of a break, does not matter to what it asks. -/
theorem Leads.bind {x x' : Interaction Q α} {talk : List (Exchange Q)} (h : x.Leads talk x')
    (f : α → Interaction Q β) : (x.bind f).Leads talk (x'.bind f) := by
  induction h with
  | stop x => exact .stop _
  | ask rest ih => exact .ask ih

theorem Leads.onAbort {x x' : Interaction Q α} {talk : List (Exchange Q)} (h : x.Leads talk x')
    (cleanup : Interaction Q Unit) : (onAbort cleanup x).Leads talk (onAbort cleanup x') := by
  induction h with
  | stop x => exact .stop _
  | ask rest ih => exact .ask ih

/-- A sequence of interactions that is done has gone through the first one and then the second. -/
theorem Leads.bind_done {x : Interaction Q α} {f : α → Interaction Q β} {talk : List (Exchange Q)}
    {b : β} (h : (x.bind f).Leads talk (.done b)) :
    ∃ talk₁ talk₂ a, talk = talk₁ ++ talk₂ ∧ x.Leads talk₁ (.done a) ∧
      (f a).Leads talk₂ (.done b) := by
  induction x generalizing talk with
  | done a => exact ⟨[], talk, a, rfl, .stop _, h⟩
  | abort reason => cases h
  | ask q next ih =>
    rw [ask_bind] at h
    cases h with
    | ask rest =>
      obtain ⟨talk₁, talk₂, a, rfl, hx, hf⟩ := ih _ rest
      exact ⟨_ :: talk₁, talk₂, a, rfl, .ask hx, hf⟩

/-- The interaction asks nothing more. -/
def isOver : Interaction Q α → Bool
  | .done _ => true
  | .abort _ => true
  | .ask _ _ => false

/-- A conversation that leads up to `r` begins with one of `x`, which is over unless it is the whole
conversation and `r` goes on. -/
def Opens (x : Interaction Q α) (talk : List (Exchange Q)) (r : Interaction Q β) : Prop :=
  ∃ talk₁ talk₂ x', talk = talk₁ ++ talk₂ ∧ x.Leads talk₁ x' ∧
    (x'.isOver = true ∨ talk₂ = [] ∧ r.isOver = false)

theorem opens_bind {x : Interaction Q α} {f : α → Interaction Q β} {talk : List (Exchange Q)}
    {r : Interaction Q β} (h : (x.bind f).Leads talk r) : x.Opens talk r := by
  induction x generalizing talk with
  | done a => exact ⟨[], talk, .done a, rfl, .stop _, .inl rfl⟩
  | abort reason => exact ⟨[], talk, .abort reason, rfl, .stop _, .inl rfl⟩
  | ask q next ih =>
    rw [ask_bind] at h
    cases h with
    | stop => exact ⟨[], [], .ask q next, rfl, .stop _, .inr ⟨rfl, rfl⟩⟩
    | ask rest =>
      obtain ⟨talk₁, talk₂, x', rfl, hx, hrest⟩ := ih _ rest
      exact ⟨_ :: talk₁, talk₂, x', rfl, .ask hx, hrest⟩

theorem opens_onAbort {x : Interaction Q α} {cleanup : Interaction Q Unit}
    {talk : List (Exchange Q)} {r : Interaction Q α} (h : (onAbort cleanup x).Leads talk r) :
    x.Opens talk r := by
  induction x generalizing talk with
  | done a => exact ⟨[], talk, .done a, rfl, .stop _, .inl rfl⟩
  | abort reason => exact ⟨[], talk, .abort reason, rfl, .stop _, .inl rfl⟩
  | ask q next ih =>
    rw [onAbort] at h
    cases h with
    | stop => exact ⟨[], [], .ask q next, rfl, .stop _, .inr ⟨rfl, rfl⟩⟩
    | ask rest =>
      obtain ⟨talk₁, talk₂, x', rfl, hx, hrest⟩ := ih _ rest
      exact ⟨_ :: talk₁, talk₂, x', rfl, .ask hx, hrest⟩

/-- What opens the opening part opens the whole. -/
theorem Opens.trans {γ : Type} {x : Interaction Q α} {y : Interaction Q β}
    {talk : List (Exchange Q)} {r : Interaction Q γ} (h : y.Opens talk r)
    (hx : ∀ talk y', y.Leads talk y' → x.Opens talk y') : x.Opens talk r := by
  obtain ⟨talk₁, talk₂, y', rfl, hy, hover⟩ := h
  obtain ⟨talk₃, talk₄, x', rfl, hx, hover'⟩ := hx talk₁ y' hy
  refine ⟨talk₃, talk₄ ++ talk₂, x', List.append_assoc _ _ _, hx, ?_⟩
  rcases hover' with hover' | ⟨rfl, hgoes⟩
  · exact .inl hover'
  · rcases hover with hover | ⟨rfl, hrest⟩
    · rw [hgoes] at hover
      cases hover
    · exact .inr ⟨rfl, hrest⟩

end Interaction

/-! ## Runs -/

/-- How the store answers a call of a routine. -/
def Store.respond (s : Store) (call : StoreCall β) : Except Fault β × Store :=
  match s.perform call with
  | (.error e, s) => (.error (.refused e), s)
  | (.ok b, s) => (.ok b, s)

/-- A call may be answered like this, and leave this store.  Only the store answers for the store;
what else a routine asks may be answered in any way. -/
def Call.Answered (s : Store) : {β : Type} → Call ε β → β → Store → Prop
  | _, .store call, answer, s' => s.respond call = (answer, s')
  | _, _, _, s' => s' = s

/-- What happens in a run of a routine. -/
inductive Event (ε : Type → Type) : Type 1 where
  /-- The routine made a call. -/
  | own (exchange : Exchange (Call ε))
  /-- Another writer's batch was accepted. -/
  | other (batch : List Write)
  /-- The store went out of reach or came back. -/
  | reach (value : Bool)

namespace Event

/-- The exchange of an own call. -/
def own? : Event ε → Option (Exchange (Call ε))
  | .own exchange => some exchange
  | _ => none

/-- The batch of another writer. -/
def others? : Event ε → Option (List Write)
  | .other batch => some batch
  | _ => none

/-- The batch that was accepted, the routine's own or another writer's. -/
def batch? : Event ε → Option (List Write)
  | .own ⟨.store (.apply batch), .ok _⟩ => some batch
  | .other batch => some batch
  | _ => none

theorem batch?_own_eq_some_iff {exchange : Exchange (Call ε)} {ws : List Write} :
    batch? (.own exchange) = some ws ↔
      ∃ rows, exchange = ⟨.store (.apply ws), .ok rows⟩ := by
  constructor
  · intro h
    obtain ⟨question, answer⟩ := exchange
    cases question with
    | store call =>
      cases call with
      | apply ws' =>
        cases answer with
        | ok rows =>
          obtain rfl : ws' = ws := Option.some.inj h
          exact ⟨rows, rfl⟩
        | error fault => cases h
      | _ => cases h
    | _ => cases h
  · rintro ⟨rows, rfl⟩
    rfl

end Event

/-- A routine, called in a store, runs until it goes on like another routine in another store. -/
inductive Routine.Runs : Store → Routine ε α → List (Event ε) → Store → Routine ε α → Prop
  | stop (s : Store) (r : Routine ε α) : Runs s r [] s r
  | own {β : Type} {call : Call ε β} {answer : β} {next : β → Routine ε α} {s s₁ s' : Store}
      {trace : List (Event ε)} {r' : Routine ε α} (answered : call.Answered s answer s₁)
      (rest : Runs s₁ (next answer) trace s' r') :
      Runs s (.ask call next) (.own ⟨call, answer⟩ :: trace) s' r'
  | other {batch : List Write} {rows : List Job} {s s₁ s' : Store} {r r' : Routine ε α}
      {trace : List (Event ε)} (accepted : s.apply batch = .ok (rows, s₁))
      (rest : Runs s₁ r trace s' r') : Runs s r (.other batch :: trace) s' r'
  | reach {value : Bool} {s s' : Store} {r r' : Routine ε α} {trace : List (Event ε)}
      (rest : Runs { s with available := value } r trace s' r') :
      Runs s r (.reach value :: trace) s' r'

namespace Routine

/-- A run can be cut anywhere. -/
theorem Runs.split {s s' : Store} {r r' : Routine ε α} {trace₁ trace₂ : List (Event ε)}
    (h : Runs s r (trace₁ ++ trace₂) s' r') :
    ∃ s₁ r₁, Runs s r trace₁ s₁ r₁ ∧ Runs s₁ r₁ trace₂ s' r' := by
  induction trace₁ generalizing s r with
  | nil => exact ⟨s, r, .stop s r, h⟩
  | cons event trace ih =>
    cases h with
    | own answered rest =>
      obtain ⟨s₁, r₁, h₁, h₂⟩ := ih rest
      exact ⟨s₁, r₁, .own answered h₁, h₂⟩
    | other accepted rest =>
      obtain ⟨s₁, r₁, h₁, h₂⟩ := ih rest
      exact ⟨s₁, r₁, .other accepted h₁, h₂⟩
    | reach rest =>
      obtain ⟨s₁, r₁, h₁, h₂⟩ := ih rest
      exact ⟨s₁, r₁, .reach h₁, h₂⟩

/-- The calls of a run are a conversation of the routine. -/
theorem Runs.leads {s s' : Store} {r r' : Routine ε α} {trace : List (Event ε)}
    (h : Runs s r trace s' r') : r.Leads (trace.filterMap Event.own?) r' := by
  induction h with
  | stop s r => exact .stop r
  | own answered rest ih => exact .ask ih
  | other accepted rest ih => exact ih
  | reach rest ih => exact ih

end Routine

/-! ## What a run does to the store -/

theorem Store.respond_get (s : Store) (id : JobId) :
    s.respond (.get id) = ((s.get id).mapError Fault.refused, s) := by
  rw [respond, perform]
  cases s.get id with
  | error e => rfl
  | ok row => rfl

theorem Store.respond_findDue (s : Store) (now : Instant) (limit : Nat) :
    s.respond (.findDue now limit) = ((s.findDue now limit).mapError Fault.refused, s) := by
  rw [respond, perform]
  cases s.findDue now limit with
  | error e => rfl
  | ok rows => rfl

theorem Store.respond_apply (s : Store) (ws : List Write) :
    s.respond (.apply ws) =
      match s.apply ws with
      | .error e => (.error (.refused e), s)
      | .ok (rows, s') => (.ok rows, s') := by
  rw [respond, perform]
  cases s.apply ws with
  | error e => rfl
  | ok result => rfl

namespace Call

/-- A row that the store gives for a name is its row. -/
theorem Answered.find? {s s' : Store} {id : JobId} {row : Option Job}
    (h : (Call.store (ε := ε) (.get id)).Answered s (.ok row) s') : s.jobs.find? id = row := by
  have hget : (s.get id).mapError Fault.refused = .ok row := by
    rw [Answered, Store.respond_get] at h
    exact congrArg Prod.fst h
  apply Store.find?_of_get
  cases hs : s.get id with
  | error e =>
    rw [hs] at hget
    cases hget
  | ok found =>
    rw [hs] at hget
    cases hget
    rfl

theorem Answered.apply {s s' : Store} {ws : List Write} {rows : List Job}
    (h : (Call.store (ε := ε) (.apply ws)).Answered s (.ok rows) s') :
    s.apply ws = .ok (rows, s') := by
  rw [Answered, Store.respond_apply] at h
  cases hs : s.apply ws with
  | error e =>
    rw [hs] at h
    cases h
  | ok result =>
    rw [hs] at h
    cases h
    rfl

theorem answered_apply {s s' : Store} {ws : List Write} {rows : List Job}
    (h : s.apply ws = .ok (rows, s')) :
    (Call.store (ε := ε) (.apply ws)).Answered s (.ok rows) s' := by
  rw [Answered, Store.respond_apply, h]

/-- A call changes the store only if it is a batch that the store accepts. -/
theorem Answered.commits {s s' : Store} {call : Call ε β} {answer : β}
    (h : call.Answered s answer s') :
    s.Commits (Event.batch? (.own ⟨call, answer⟩)).toList s' := by
  cases call with
  | store call =>
    cases call with
    | get id =>
      rw [Answered, Store.respond_get] at h
      cases h
      exact .none s
    | findDue now limit =>
      rw [Answered, Store.respond_findDue] at h
      cases h
      exact .none s
    | apply ws =>
      cases answer with
      | ok rows => exact .batch h.apply (.none s')
      | error fault =>
        rw [Answered, Store.respond_apply] at h
        cases hs : s.apply ws with
        | error e =>
          rw [hs] at h
          cases h
          exact .none s
        | ok result =>
          rw [hs] at h
          cases h
  | _ =>
    cases h
    exact .none s

end Call

namespace Routine

/-- The batches that were accepted in a run are a history of the store. -/
theorem Runs.commits {s s' : Store} {r r' : Routine ε α} {trace : List (Event ε)}
    (h : Runs s r trace s' r') : s.Commits (trace.filterMap Event.batch?) s' := by
  induction h with
  | stop s r => exact .none s
  | @own _ call answer _ _ _ _ trace _ answered rest ih =>
    have hhead := answered.commits.append ih
    rw [List.filterMap_cons]
    cases hbatch : Event.batch? (.own ⟨call, answer⟩) with
    | none =>
      rw [hbatch] at hhead
      exact hhead
    | some batch =>
      rw [hbatch] at hhead
      exact hhead
  | other accepted rest ih => exact .batch accepted ih
  | reach rest ih => exact .reach _ ih

end Routine

/-! ## Runs in a quiet cluster -/

namespace Cluster

theorem store_takeToken (c : Cluster) (seat : Nat) (scope : ScopeId) :
    (c.takeToken seat scope).2.store = c.store := by
  unfold takeToken
  split <;> rfl

theorem store_dispatch (c : Cluster) (seat : Nat) (job : Dispatched) :
    (c.dispatch seat job).2.store = c.store := by
  unfold dispatch
  split
  · split <;> rfl
  · rfl

end Cluster

namespace World

variable {σ : Type} {answer : {β : Type} → ε β → World σ → Except String β × World σ}

/-- With nothing going on around, a call is answered as in a run. -/
theorem answered
    (hforeign : ∀ {β : Type} (q : ε β) w, (answer q w).2.cluster.store = w.cluster.store)
    (seat : Nat) (w : World σ) (call : Call ε β) :
    call.Answered w.cluster.store (w.answer (.quiet σ answer) seat call).1
      (w.answer (.quiet σ answer) seat call).2.cluster.store := by
  cases call with
  | store call =>
    rw [Call.Answered, Store.respond, World.answer, callStore, Surroundings.quiet]
    dsimp only
    cases w.cluster.store.perform call with
    | mk result s =>
      cases result with
      | error e => rfl
      | ok b => rfl
  | takeToken scope => exact Cluster.store_takeToken w.cluster seat scope
  | dispatch job => exact Cluster.store_dispatch w.cluster seat job
  | foreign q => exact hforeign q w
  | _ => rfl

/-- A routine that is run in a quiet cluster goes through a run in which no other writer appears. -/
theorem runs_of_run
    (hforeign : ∀ {β : Type} (q : ε β) w, (answer q w).2.cluster.store = w.cluster.store)
    {seat : Nat} {r : Routine ε α} {w w' : World σ} {a : α}
    (h : run (.quiet σ answer) seat r w = (.ok a, w')) :
    ∃ trace, Routine.Runs w.cluster.store r trace w'.cluster.store (.done a) ∧
      trace.filterMap Event.others? = [] := by
  induction r generalizing w with
  | done b =>
    cases h
    exact ⟨[], .stop _ _, rfl⟩
  | abort reason => cases h
  | ask call next ih =>
    rw [run] at h
    obtain ⟨trace, hrest, halone⟩ := ih _ h
    exact ⟨_ :: trace, .own (answered hforeign seat w call) hrest, halone⟩

end World

/-! ## Rows that a routine read -/

/-- The row of a name that a call read. -/
def Exchange.read? (id : JobId) : Exchange (Call ε) → Option Job
  | ⟨.store (.get k), .ok (some row)⟩ => if k = id then some row else none
  | _ => none

theorem Exchange.read?_eq_some_iff {id : JobId} {row : Job} {exchange : Exchange (Call ε)} :
    exchange.read? id = some row ↔ exchange = ⟨.store (.get id), .ok (some row)⟩ := by
  constructor
  · intro h
    obtain ⟨question, answer⟩ := exchange
    cases question with
    | store call =>
      cases call with
      | get k =>
        match answer, h with
        | .ok (some found), h =>
          have hif : (if k = id then some found else none) = some row := h
          obtain ⟨rfl, hrow⟩ := Option.ite_none_right_eq_some.1 hif
          rw [Option.some.inj hrow]
      | _ => cases h
    | _ => cases h
  · rintro rfl
    exact if_pos rfl

namespace Event

/-- The row of a name that the routine read. -/
def read? (id : JobId) (event : Event ε) : Option Job := event.own?.bind (Exchange.read? id)

theorem read?_eq_some_iff {id : JobId} {row : Job} {event : Event ε} :
    event.read? id = some row ↔ event = .own ⟨.store (.get id), .ok (some row)⟩ := by
  cases event with
  | own exchange =>
    rw [read?, own?, Option.bind_some, Exchange.read?_eq_some_iff, own.injEq]
  | other batch => simp [read?, own?]
  | reach value => simp [read?, own?]

theorem findSome?_read? (trace : List (Event ε)) (id : JobId) :
    trace.findSome? (read? id) = (trace.filterMap own?).findSome? (Exchange.read? id) := by
  induction trace with
  | nil => rfl
  | cons event trace ih =>
    rw [List.findSome?_cons, List.filterMap_cons, ih]
    cases event with
    | own exchange => rfl
    | other batch => rfl
    | reach value => rfl

/-- A trace can be cut where the routine made a call. -/
theorem split_own {trace : List (Event ε)} {talk more : List (Exchange (Call ε))}
    {exchange : Exchange (Call ε)} (h : trace.filterMap own? = talk ++ exchange :: more) :
    ∃ before after, trace = before ++ .own exchange :: after ∧ before.filterMap own? = talk ∧
      after.filterMap own? = more := by
  obtain ⟨first, rest, rfl, hfirst, hrest⟩ := List.filterMap_eq_append_iff.1 h
  obtain ⟨others, event, after, rfl, hothers, hevent, hafter⟩ := List.filterMap_eq_cons_iff.1 hrest
  have hown : event = .own exchange := by
    cases event with
    | own found => rw [Option.some.inj hevent]
    | other batch => cases hevent
    | reach value => cases hevent
  refine ⟨first ++ others, after, by rw [hown, List.append_assoc], ?_, hafter⟩
  rw [List.filterMap_append, hfirst, List.filterMap_eq_nil_iff.2 hothers, List.append_nil]

end Event

/-- The store still has the row that the first reading of its name gave, and nobody has written the
row since. -/
def Store.Keeps (s : Store) (trace : List (Event ε)) (id : JobId) (row : Job) : Prop :=
  s.jobs.find? id = some row ∧
    ∃ early late, trace = early ++ .own ⟨.store (.get id), .ok (some row)⟩ :: late ∧
      (∀ event ∈ early, event.read? id = none) ∧
      ∀ w ∈ (late.filterMap Event.batch?).flatten, w.touches id = false

namespace Routine

/-- If the store accepts a batch that relies on the first reading of a name, it still has the row
that was read. -/
theorem Runs.keeps {s s₁ s₂ : Store} {r r₁ : Routine ε α} {trace : List (Event ε)}
    {batch : List Write} {rows : List Job} {id : JobId} {row : Job} (h : Runs s r trace s₁ r₁)
    (haccepted : s₁.apply batch = .ok (rows, s₂))
    (honce : s.InsertsOnce (trace.filterMap Event.batch? ++ [batch]))
    (hread : trace.findSome? (Event.read? id) = some row)
    (hrelies : ∃ w ∈ batch, w.ReliesOn id row.revision) : s₁.Keeps trace id row := by
  obtain ⟨early, event, late, rfl, hevent, hearly⟩ := List.findSome?_eq_some_iff.1 hread
  obtain rfl := Event.read?_eq_some_iff.1 hevent
  obtain ⟨s₀, r₀, hfirst, hrest⟩ := h.split
  have hrow : s₀.jobs.find? id = some row := by
    cases hrest with
    | own answered rest => exact answered.find?
  have hlate := hrest.commits
  rw [List.filterMap_append, List.append_assoc] at honce
  obtain ⟨hstands, huntouched⟩ :=
    hfirst.commits.row_stands hrow hlate haccepted honce hrelies
  exact ⟨hstands, early, late, rfl, hearly, huntouched⟩

end Routine

end DeferredWork

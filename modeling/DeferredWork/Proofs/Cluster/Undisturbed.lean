import DeferredWork.Proofs.Routine.Attaining

set_option autoImplicit false

/-!
# A node that nobody disturbs

While nothing happens in a cluster but what one node does, and time passes, the routines of the node
depend on the store, on the clock, on the names still to be drawn and on the node's own tokens and
pool (`Footing`).  How their calls are answered is then determined but for the times
(`Footing.Replies`).  So what a routine attains on a footing is what comes of running it in a cluster
in which only time passes (`World.run_attained`).
-/

namespace DeferredWork

variable {ε : Type → Type} {σ α β : Type}

/-- The node without what it merely shows: its counters, its health and where its cycle stands. -/
def Node.bare (node : Node) : Node :=
  { node with health := Health.new 1, metrics := {}, phase := .idle }

/-- What the routines of a node depend on while nobody else does anything. -/
structure Footing where
  store : Store
  clock : Instant
  /-- The era and the number of the names that were drawn so far. -/
  era : Nat
  draws : Nat
  node : Node

namespace Footing

variable {last : Instant} {f f₁ f' : Footing}

/-- Nothing has happened but that time has passed, and not beyond an instant. -/
def Waits (last : Instant) (f f' : Footing) : Prop :=
  ∃ clock, f.clock ≤ clock ∧ (f.clock ≤ last → clock ≤ last) ∧ f' = { f with clock := clock }

theorem Waits.trans (h : f.Waits last f₁) (h' : f₁.Waits last f') : f.Waits last f' := by
  obtain ⟨t, hlater, hwithin, rfl⟩ := h
  obtain ⟨t', hlater', hwithin', rfl⟩ := h'
  exact ⟨t', Int.le_trans hlater hlater', hwithin' ∘ hwithin, rfl⟩

theorem Waits.store_eq (h : f.Waits last f') : f'.store = f.store := by
  obtain ⟨t, -, -, rfl⟩ := h
  rfl

theorem Waits.node_eq (h : f.Waits last f') : f'.node = f.node := by
  obtain ⟨t, -, -, rfl⟩ := h
  rfl

theorem Waits.later (h : f.Waits last f') : f.clock ≤ f'.clock := by
  obtain ⟨t, hlater, -, rfl⟩ := h
  exact hlater

theorem Waits.within (h : f.Waits last f') (hclock : f.clock ≤ last) : f'.clock ≤ last := by
  obtain ⟨t, -, hwithin, rfl⟩ := h
  exact hwithin hclock

/-- The footing with another store. -/
def withStore (f : Footing) (s : Store) : Footing := { f with store := s }

/-- Time passes whatever the store holds. -/
theorem Waits.withStore (h : f.Waits last f') (s : Store) :
    (f.withStore s).Waits last (f'.withStore s) := by
  obtain ⟨t, hlater, hwithin, rfl⟩ := h
  exact ⟨t, hlater, hwithin, rfl⟩

/-- The footing after the node has changed. -/
def onNode (f : Footing) (change : Node → Node) : Footing := { f with node := change f.node }

/-- Time passes whatever the node does. -/
theorem Waits.onNode (h : f.Waits last f') (change : Node → Node) :
    (f.onNode change).Waits last (f'.onNode change) := by
  obtain ⟨t, hlater, hwithin, rfl⟩ := h
  exact ⟨t, hlater, hwithin, rfl⟩

/-- How a call is answered while nobody else does anything.  Time passes at each call of the store
and at each question of a handler. -/
def Replies (last : Instant) (f : Footing) : {β : Type} → Call ε β → β → Footing → Prop
  | _, .store call, answer, f' =>
    answer = (f.store.respond call).1 ∧
      (f.withStore (f.store.respond call).2).Waits last f'
  | _, .clock, now, f' => now = f.clock ∧ f' = f
  | _, .draw, id, f' => id = .drawn f.era (f.draws + 1) ∧ f' = { f with draws := f.draws + 1 }
  | _, .wallClock, _, f' => f' = f
  | _, .takeToken scope, taken, f' =>
    match f.node.tokens.take? scope with
    | some tokens => taken = true ∧ f' = f.onNode fun node => { node with tokens := tokens }
    | none => taken = false ∧ f' = f
  | _, .giveToken scope, _, f' =>
    f' = f.onNode fun node => { node with tokens := node.tokens.giveBack scope }
  | _, .dispatch d, taken, f' =>
    if f.node.backlog.length < f.node.capacity then
      taken = true ∧ f' = f.onNode fun node => { node with backlog := node.backlog ++ [d] }
    else taken = false ∧ f' = f
  | _, .foreign _, _, f' => f.Waits last f'
  | _, _, _, f' => f' = f

end Footing

/-! ## In a cluster -/

namespace World

variable {last : Instant} {w w₁ w' : World σ} {seat : Nat} {f : Footing}

/-- Nothing has happened in the cluster but that time has passed, and not beyond an instant.  What
the operators were told and the time on the wall do not count. -/
structure Waits (last : Instant) (w w' : World σ) : Prop where
  store : w'.cluster.store = w.cluster.store
  era : w'.cluster.era = w.cluster.era
  draws : w'.cluster.draws = w.cluster.draws
  nodes : w'.cluster.nodes = w.cluster.nodes
  later : w.cluster.clock ≤ w'.cluster.clock
  within : w.cluster.clock ≤ last → w'.cluster.clock ≤ last

theorem Waits.refl (last : Instant) (w : World σ) : w.Waits last w :=
  ⟨rfl, rfl, rfl, rfl, Int.le_refl _, id⟩

/-- The footing of the node at a seat. -/
def footing? (w : World σ) (seat : Nat) : Option Footing :=
  w.cluster.nodes[seat]?.map fun node =>
    { store := w.cluster.store
      clock := w.cluster.clock
      era := w.cluster.era
      draws := w.cluster.draws
      node := node.bare }

theorem footing?_eq_some_iff :
    w.footing? seat = some f ↔ ∃ node, w.cluster.nodes[seat]? = some node ∧
      f = ⟨w.cluster.store, w.cluster.clock, w.cluster.era, w.cluster.draws, node.bare⟩ := by
  rw [footing?, Option.map_eq_some_iff]
  simp only [eq_comm]

/-- Where only time passes, a footing stays but for the time. -/
theorem Waits.footing? (h : w.Waits last w') (hw : w.footing? seat = some f) :
    ∃ f', w'.footing? seat = some f' ∧ f.Waits last f' := by
  obtain ⟨node, hnode, rfl⟩ := footing?_eq_some_iff.1 hw
  refine ⟨_, footing?_eq_some_iff.2 ⟨node, h.nodes ▸ hnode, rfl⟩, _, h.later, h.within, ?_⟩
  rw [h.store, h.era, h.draws]

/-- What a change of the node makes of its footing. -/
theorem footing?_modifyNode (hw : w.footing? seat = some f) {change g : Node → Node}
    (hchange : ∀ node, (change node).bare = g node.bare) :
    (w.modify fun c => c.modifyNode seat change).footing? seat = some (f.onNode g) := by
  obtain ⟨node, hnode, rfl⟩ := footing?_eq_some_iff.1 hw
  refine footing?_eq_some_iff.2 ⟨change node, ?_, ?_⟩
  · change (w.cluster.nodes.modify seat change)[seat]? = _
    rw [List.getElem?_modify_eq, hnode]
    rfl
  · rw [hchange]
    rfl

/-- What is said while the routine of a node is run. -/
def said (s : Surroundings ε σ) (seat : Nat) :
    Routine ε α → World σ → List (Exchange (Call ε))
  | .done _, _ => []
  | .abort _, _ => []
  | .ask call next, w =>
    let (b, w) := w.answer s seat call
    ⟨call, b⟩ :: said s seat (next b) w

end World

/-- The surroundings let every call of the store through and do nothing, but time may pass, though
not beyond an instant. -/
structure Surroundings.LetsTimePass (s : Surroundings ε σ) (last : Instant) : Prop where
  before_passes (point : StorePoint) (w : World σ) : (s.before point w).1 = .ok ()
  before_waits (point : StorePoint) (w : World σ) : w.Waits last (s.before point w).2
  after_passes (point : StorePoint) (w : World σ) : (s.after point w).1 = .ok ()
  after_waits (point : StorePoint) (w : World σ) : w.Waits last (s.after point w).2
  answer_waits {β : Type} (question : ε β) (w : World σ) : w.Waits last (s.answer question w).2

/-- Surroundings that do nothing let time pass if their answers do. -/
theorem Surroundings.quiet_letsTimePass {last : Instant}
    {answer : {β : Type} → ε β → World σ → Except String β × World σ}
    (hanswer : ∀ {β : Type} (q : ε β) w, World.Waits last w (answer q w).2) :
    (Surroundings.quiet σ answer).LetsTimePass last where
  before_passes _ _ := rfl
  before_waits _ := .refl last
  after_passes _ _ := rfl
  after_waits _ := .refl last
  answer_waits := hanswer

namespace World

variable {s : Surroundings ε σ} {last : Instant} {w : World σ} {seat : Nat} {f : Footing}

theorem callStore_replies (hs : s.LetsTimePass last) (hw : w.footing? seat = some f)
    (call : StoreCall β) :
    ∃ f', (w.callStore s call).2.footing? seat = some f' ∧
      f.Replies last (.store call : Call ε (Except Fault β)) (w.callStore s call).1 f' := by
  have hpasses := hs.before_passes call.point w
  have hbefore := hs.before_waits call.point w
  unfold callStore
  generalize s.before call.point w = first at hpasses hbefore ⊢
  obtain ⟨outcome, w₁⟩ := first
  obtain rfl : outcome = .ok () := hpasses
  obtain ⟨f₁, hw₁, hwaits⟩ := hbefore.footing? hw
  have hstore : w₁.cluster.store = f.store := by
    obtain ⟨node, -, rfl⟩ := footing?_eq_some_iff.1 hw
    exact hbefore.store
  -- The store answers, and then time passes once more.
  obtain ⟨node, hnode, rfl⟩ := footing?_eq_some_iff.1 hw₁
  have hafter : ∀ s', ∃ f', (w₁.modify fun c => { c with store := s' }).footing? seat = some f' ∧
      (f.withStore s').Waits last f' := fun s' =>
    ⟨_, footing?_eq_some_iff.2 ⟨node, hnode, rfl⟩, hwaits.withStore s'⟩
  simp only [Footing.Replies, Store.respond, ← hstore]
  cases hperform : w₁.cluster.store.perform call with
  | mk result s₁ =>
    obtain ⟨f₂, hf₂, hwaits₂⟩ := hafter s₁
    cases result with
    | error e => exact ⟨f₂, hf₂, rfl, hwaits₂⟩
    | ok b =>
      dsimp only
      generalize (w₁.modify fun c => { c with store := s₁ }) = w₂ at hf₂ ⊢
      have hpasses' := hs.after_passes call.point w₂
      have hafter' := hs.after_waits call.point w₂
      generalize s.after call.point w₂ = second at hpasses' hafter' ⊢
      obtain ⟨outcome, w'⟩ := second
      obtain rfl : outcome = .ok () := hpasses'
      obtain ⟨f', hf', hwaits'⟩ := hafter'.footing? hf₂
      exact ⟨f', hf', rfl, hwaits₂.trans hwaits'⟩

theorem answer_replies (hs : s.LetsTimePass last) (hw : w.footing? seat = some f)
    (call : Call ε β) :
    ∃ f', (w.answer s seat call).2.footing? seat = some f' ∧
      f.Replies last call (w.answer s seat call).1 f' := by
  have hnode := hw
  obtain ⟨node, hseat, rfl⟩ := footing?_eq_some_iff.1 hnode
  cases call with
  | store call => exact callStore_replies hs hw call
  | clock => exact ⟨_, hw, rfl, rfl⟩
  | draw => exact ⟨_, footing?_eq_some_iff.2 ⟨node, hseat, rfl⟩, rfl, rfl⟩
  | wallClock => exact ⟨_, footing?_eq_some_iff.2 ⟨node, hseat, rfl⟩, rfl⟩
  | takeToken scope =>
    simp only [answer, onCluster, Cluster.takeToken, hseat, Option.bind_some, Footing.Replies,
      Node.bare]
    cases node.tokens.take? scope with
    | none => exact ⟨_, hw, rfl, rfl⟩
    | some tokens => exact ⟨_, footing?_modifyNode hw fun _ => rfl, rfl, rfl⟩
  | giveToken scope => exact ⟨_, footing?_modifyNode hw fun _ => rfl, rfl⟩
  | dispatch d =>
    simp only [answer, onCluster, Cluster.dispatch, hseat, Footing.Replies, Node.bare]
    split
    · exact ⟨_, footing?_modifyNode hw fun _ => rfl, rfl, rfl⟩
    · exact ⟨_, hw, rfl, rfl⟩
  | enter phase => exact ⟨_, footing?_modifyNode (g := id) hw fun _ => rfl, rfl⟩
  | count counter n => exact ⟨_, footing?_modifyNode (g := id) hw fun _ => rfl, rfl⟩
  | notify incident => exact ⟨_, footing?_eq_some_iff.2 ⟨node, hseat, rfl⟩, rfl⟩
  | wake => exact ⟨_, footing?_eq_some_iff.2 ⟨node, hseat, rfl⟩, rfl⟩
  | foreign q =>
    obtain ⟨f', hf', hwaits⟩ := (hs.answer_waits q w).footing? hw
    exact ⟨f', hf', hwaits⟩

/-- A routine that ends is run before what goes on with its value. -/
theorem run_bind {r : Routine ε α} {next : α → Routine ε β} {a : α} {w w' : World σ}
    (h : w.run s seat r = (.ok a, w')) : w.run s seat (r.bind next) = w'.run s seat (next a) := by
  induction r generalizing w with
  | done b =>
    cases h
    rfl
  | abort reason => cases h
  | ask call _ ih => exact ih _ h

/-- In a cluster in which only time passes, a routine is run to its end as it attains. -/
theorem run_attained (hs : s.LetsTimePass last) {r : Routine ε α} {w : World σ} {f : Footing}
    {post : List (Exchange (Call ε)) → α → Footing → Prop}
    (hw : w.footing? seat = some f) (h : r.Attains (Footing.Replies last) post f) :
    ∃ a w' f', w.run s seat r = (.ok a, w') ∧ w'.footing? seat = some f' ∧
      post (w.said s seat r) a f' := by
  induction r generalizing w f post with
  | done a => exact ⟨a, w, f, rfl, hw, h⟩
  | abort reason => exact h.elim
  | ask call next ih =>
    obtain ⟨f₁, hf₁, hreplies⟩ := answer_replies hs hw call
    exact ih _ hf₁ (h _ f₁ hreplies)

end World

end DeferredWork

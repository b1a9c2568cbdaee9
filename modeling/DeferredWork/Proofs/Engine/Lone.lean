import DeferredWork.Proofs.Cluster.Undisturbed
import DeferredWork.Proofs.Shift.Admission

set_option autoImplicit false

/-!
# An engine with one job to do

An engine that nobody disturbs, on a store that holds one job and nothing else, locks and dispatches
the job in its next cycle if the job can be acquired (`Engine.attains_runCycle_of_some`), and
dispatches nothing if the store holds no job (`Engine.attains_runCycle_of_none`).  When a worker then
runs the job and the handler's transaction ends well, the execution ends as the transaction did, and
the token of the job comes back (`Engine.attains_runJob`).
-/

namespace DeferredWork

variable {ε : Type → Type} {α β : Type}

/-! ## A store with one job -/

/-- The row that the insertion of a job leaves. -/
def Job.inserted (job : Job) : Job := { job with revision := 1 }

namespace Store

variable {s : Store} {row : Job} {now : Instant} {limit : Nat}

/-- The store is in reach and holds this job and no other, or no job at all. -/
structure Holds (s : Store) (only : Option Job) : Prop where
  available : s.available = true
  rows_eq : s.jobs.rows = only.toList

theorem Holds.find? (h : s.Holds (some row)) : s.jobs.find? row.id = some row :=
  JobTable.find?_eq_some_of_mem (h.rows_eq ▸ List.mem_singleton_self row)

theorem Holds.find?_of_ne (h : s.Holds (some row)) {id : JobId} (hname : row.id ≠ id) :
    s.jobs.find? id = none := by
  rw [JobTable.find?, h.rows_eq]
  simp [hname]

/-- Nothing stands against a lock on the only job, if it is not locked. -/
theorem Holds.isOpen (h : s.Holds (some row)) (hunlocked : row.hasLiveLock now = false) :
    s.jobs.IsOpen now [] row where
  stored := h.find?
  unlocked := hunlocked
  free _ _ _ other hother _ := by
    rw [h.rows_eq, Option.toList_some, List.mem_singleton] at hother
    rwa [hother]

theorem Holds.respond_get (h : s.Holds (some row)) :
    s.respond (.get row.id) = (.ok (some row), s) := by
  rw [Store.respond_get, get, answer, if_pos h.available, h.find?]
  rfl

/-- A poll offers the only job, if it can be acquired. -/
theorem Holds.respond_findDue {only : Option Job} (h : s.Holds only)
    (hacquirable : ∀ row ∈ only, row.isAcquirable now = true) (hlimit : 1 ≤ limit) :
    s.respond (.findDue now limit) = (.ok only.toList, s) := by
  have hpoll : s.jobs.poll now limit = only.toList := by
    rw [JobTable.poll_eq, h.rows_eq]
    cases only with
    | none => simp
    | some row =>
      have hrow := hacquirable row rfl
      have hunlocked : row.hasLiveLock now = false := by
        simpa using (Bool.and_eq_true_iff.1 hrow).2
      have hbusy := (h.isOpen hunlocked).busyScope?_eq_none (Int.le_refl _)
        fun _ _ => List.not_mem_nil
      have heligible := (JobTable.isEligible_iff h.find?).2 ⟨hrow, hbusy⟩
      rw [Option.toList_some, List.filter_singleton, heligible, cond_true,
        List.mergeSort_singleton, List.take_of_length_le hlimit]
  rw [Store.respond_findDue, findDue_eq, answer, if_pos h.available, hpoll]
  rfl

theorem respond_apply_of_takes (havailable : s.available = true) {ws : List Write} {c : Contents}
    (htakes : s.contents.Takes ws c) :
    ∃ left, s.respond (.apply ws) = (.ok left, c.inStore true) := by
  obtain ⟨left, hleft⟩ := htakes
  have hs : s.contents.inStore true = s := by
    rw [← havailable]
    rfl
  rw [hs] at hleft
  exact ⟨left, by rw [Store.respond_apply, hleft]⟩

/-- Another version of the only job takes its place. -/
theorem Holds.put (h : s.Holds (some row)) {job : Job} (hname : job.id = row.id) :
    ((s.contents.put job).inStore true).Holds (some job) := by
  refine ⟨rfl, ?_⟩
  change JobTable.putRow job s.jobs.rows = _
  rw [h.rows_eq, Option.toList_some, JobTable.putRow, hname, if_neg (JobId.lt_irrefl _),
    if_neg (JobId.lt_irrefl _)]
  rfl

/-- The lock on the only job is taken. -/
theorem Holds.respond_lock (h : s.Holds (some row)) (hunlocked : row.hasLiveLock now = false)
    (owner : Owner) (expiry : Instant) :
    ∃ left s', s.respond (.apply [.lock row.id row.revision owner expiry now]) = (.ok left, s') ∧
      s'.Holds (some { row.lockedBy owner expiry with revision := row.revision + 1 }) := by
  have htakes := Contents.takes_lock (c := s.contents) (h.isOpen hunlocked) (Int.le_refl _)
    (fun _ _ => List.not_mem_nil) owner expiry
  obtain ⟨left, hleft⟩ := respond_apply_of_takes h.available htakes
  exact ⟨left, _, hleft, h.put rfl⟩

/-- The only job is deleted, and another one may take its place. -/
theorem Holds.respond_replace (h : s.Holds (some row)) {successor : Option Job}
    (hnames : ∀ job ∈ successor, row.id ≠ job.id) :
    ∃ left s', s.respond (.apply
        (successor.toList.map .insert ++ [.delete row.id (.exactly row.revision)])) =
          (.ok left, s') ∧
      s'.Holds (successor.map Job.inserted) := by
  have hmet : (Expected.exactly row.revision).matches row.revision = true :=
    (Expected.matches_exactly _ _).2 rfl
  cases successor with
  | none =>
    have htakes : s.contents.Takes [.delete row.id (.exactly row.revision)]
        (s.contents.erase row.id) :=
      Contents.takes_singleton.2 ⟨_, .delete h.find? hmet, rfl⟩
    obtain ⟨left, hleft⟩ := respond_apply_of_takes h.available htakes
    refine ⟨left, _, hleft, rfl, ?_⟩
    change s.jobs.rows.filter (fun job => job.id != row.id) = _
    simp [h.rows_eq]
  | some job =>
    have hname : job.inserted.id ≠ row.id := Ne.symm (hnames job rfl)
    have hkept : (s.contents.put job.inserted).jobs.find? row.id = some row := by
      rw [Contents.find?_put_of_ne hname]
      exact h.find?
    have htakes : s.contents.Takes [.insert job, .delete row.id (.exactly row.revision)]
        ((s.contents.put job.inserted).erase row.id) :=
      Contents.takes_cons.2 ⟨_, .insert (h.find?_of_ne (hnames job rfl)),
        Contents.takes_singleton.2 ⟨_, .delete hkept hmet, rfl⟩⟩
    obtain ⟨left, hleft⟩ := respond_apply_of_takes h.available htakes
    refine ⟨left, _, hleft, rfl, ?_⟩
    refine JobTable.rows_eq_of_mem_iff (JobTable.sorted _) (List.pairwise_singleton _ _)
      fun found => ?_
    change found ∈ ((s.jobs.put job.inserted).erase row.id).rows ↔ found ∈ [job.inserted]
    rw [JobTable.mem_erase, JobTable.mem_put, h.rows_eq, Option.toList_some, List.mem_singleton,
      List.mem_singleton]
    constructor
    · rintro ⟨hfound | ⟨hfound, -⟩, hne⟩
      · exact hfound
      · exact absurd (congrArg Job.id hfound) hne
    · rintro rfl
      exact ⟨.inl rfl, hname⟩

end Store

/-! ## Calls -/

/-- The batch that the store took. -/
def Exchange.batch? (exchange : Exchange (Call ε)) : Option (List Write) :=
  Event.batch? (.own exchange)

/-- By the call an engine only shows something. -/
def Call.isShown : Call ε β → Bool
  | .enter _ => true
  | .count _ _ => true
  | .notify _ => true
  | .wake => true
  | _ => false

namespace Routine

variable {last : Instant} {f : Footing} {post : List (Exchange (Call ε)) → α → Footing → Prop}

/-- A call that the store lets through is answered at once, and then time passes. -/
theorem attains_store {call : StoreCall β} {b : β} {s : Store}
    {next : Except Fault β → Routine ε α} (hrespond : f.store.respond call = (.ok b, s))
    (hnext : ∀ f', (f.withStore s).Waits last f' →
      (next (.ok b)).Attains (Footing.Replies last)
        (fun said => post (⟨.store call, .ok b⟩ :: said)) f') :
    (Interaction.ask (.store call) next).Attains (Footing.Replies last) post f := by
  rintro answer f' ⟨hanswer, hwaits⟩
  rw [hrespond] at hanswer hwaits
  subst hanswer
  exact hnext f' hwaits

theorem attains_clock {next : Instant → Routine ε α}
    (h : (next f.clock).Attains (Footing.Replies last)
      (fun said => post (⟨.clock, f.clock⟩ :: said)) f) :
    (Interaction.ask .clock next).Attains (Footing.Replies last) post f := by
  rintro _ _ ⟨hnow, hf⟩
  rw [hnow, hf]
  exact h

/-- The pool takes a job for which it has room. -/
theorem attains_dispatch {d : Dispatched} {next : Bool → Routine ε α}
    (hroom : f.node.backlog.length < f.node.capacity)
    (h : (next true).Attains (Footing.Replies last)
      (fun said => post (⟨.dispatch d, true⟩ :: said))
      (f.onNode fun node => { node with backlog := node.backlog ++ [d] })) :
    (Interaction.ask (.dispatch d) next).Attains (Footing.Replies last) post f := by
  intro taken f' hreply
  rw [Footing.Replies, if_pos hroom] at hreply
  rw [hreply.1, hreply.2]
  exact h

/-- A call by which the engine only shows something changes nothing that it depends on. -/
theorem attains_shown {call : Call ε β} {next : β → Routine ε α} (hcall : call.isShown = true)
    (h : ∀ b, (next b).Attains (Footing.Replies last) (fun said => post (⟨call, b⟩ :: said)) f) :
    (Interaction.ask call next).Attains (Footing.Replies last) post f := by
  intro b f' hreply
  cases call with
  | enter | count | notify | wake =>
    obtain rfl : f' = f := hreply
    exact h b
  | _ => cases hcall

theorem attains_shown_bind {call : Call ε β} {next : β → Routine ε α} (hcall : call.isShown = true)
    (h : ∀ b, (next b).Attains (Footing.Replies last) (fun said => post (⟨call, b⟩ :: said)) f) :
    ((Interaction.query call).bind next).Attains (Footing.Replies last) post f :=
  attains_shown hcall h

end Routine

/-! ## Tokens -/

namespace ScopeTokens

variable {tokens : ScopeTokens} {token : Option ScopeId}

/-- The tokens after one was given out, if one was needed. -/
def without (tokens : ScopeTokens) : Option ScopeId → ScopeTokens
  | none => tokens
  | some scope => (tokens.take? scope).getD tokens

/-- The tokens after one came back, if one was given out. -/
def restored (tokens : ScopeTokens) : Option ScopeId → ScopeTokens
  | none => tokens
  | some scope => tokens.giveBack scope

/-- A token that was free comes back. -/
theorem restored_without (hfree : ∀ scope ∈ token, tokens.isHeld scope = false) :
    (tokens.without token).restored token = tokens := by
  cases token with
  | none => rfl
  | some scope =>
    have hnew : scope ∉ tokens.held := by simpa [isHeld] using hfree scope rfl
    rw [without, restored, take?, dif_neg hnew, Option.getD_some, giveBack]
    simp

end ScopeTokens

namespace Footing

/-- The footing after the node has given out a token and put a job into its pool. -/
def dispatched (f : Footing) (token : Option ScopeId) (d : Dispatched) : Footing :=
  f.onNode fun node =>
    { node with tokens := node.tokens.without token, backlog := node.backlog ++ [d] }

end Footing

/-! ## Acquisition -/

namespace Engine

open Routine

variable {engine : Engine ε} {last : Instant} {f : Footing} {row : Job}

/-- The token of a job is taken, if it needs one and the token is free. -/
theorem attains_takeTokenFor (hfree : ∀ scope ∈ row.exclusivityScope,
      f.node.tokens.isHeld scope = false) :
    (takeTokenFor (ε := ε) [] row).Attains (Footing.Replies last)
      (fun _ token f' => token = some row.exclusivityScope ∧
        f' = f.onNode fun node =>
          { node with tokens := node.tokens.without row.exclusivityScope }) f := by
  unfold takeTokenFor
  cases hscope : row.exclusivityScope with
  | none => exact ⟨rfl, rfl⟩
  | some scope =>
    have hnone : f.node.tokens.take? scope ≠ none := by
      rw [Ne, ScopeTokens.take?_eq_none_iff, hfree scope hscope]
      exact Bool.false_ne_true
    dsimp only
    rw [if_neg List.not_mem_nil]
    intro taken f' hreplies
    rw [Footing.Replies] at hreplies
    split at hreplies
    · rename_i tokens htokens
      obtain ⟨rfl, rfl⟩ := hreplies
      refine ⟨rfl, ?_⟩
      simp only [Footing.onNode, ScopeTokens.without, htokens, Option.getD_some]
    · rename_i htokens
      exact absurd htokens hnone

/-- The lock on the only job is committed. -/
theorem attains_lockJob (hlimit : engine.limit ≠ .zero) (hstore : f.store.Holds (some row))
    (hunlocked : row.hasLiveLock f.clock = false)
    (hroom : (f.clock.after? engine.lockDuration).isSome = true) :
    (engine.transact (.lockJob row engine.owner engine.lockDuration)).Attains (Footing.Replies last)
      (fun _ outcome f' => outcome = .ok () ∧ ∃ locked s, engine.Locks f.clock row locked ∧
        s.Holds (some locked) ∧ (f.withStore s).Waits last f') f := by
  obtain ⟨expiry, hexpiry⟩ := Option.isSome_iff_exists.1 hroom
  obtain ⟨left, s, hlock, hholds⟩ := hstore.respond_lock hunlocked engine.owner expiry
  refine attains_clock ?_
  rw [Transaction.runFrom_lockJob_eq_commit hlimit hexpiry]
  exact attains_store hlock fun f' hwaits => ⟨rfl, _, s, ⟨expiry, hexpiry, rfl⟩, hholds, hwaits⟩

/-- The only job is locked, and is read again as it was locked. -/
theorem attains_lock (hlimit : engine.limit ≠ .zero) (hstore : f.store.Holds (some row))
    (hunlocked : row.hasLiveLock f.clock = false)
    (hroom : (f.clock.after? engine.lockDuration).isSome = true) :
    (engine.lock row).Attains (Footing.Replies last)
      (fun _ outcome f' => ∃ locked s, outcome = .ok (some locked) ∧
        engine.Locks f.clock row locked ∧ s.Holds (some locked) ∧
          (f.withStore s).Waits last f') f := by
  refine Interaction.attains_bind ((attains_lockJob hlimit hstore hunlocked hroom).mono ?_)
  rintro _ _ f₁ ⟨rfl, locked, s, hlocks, hholds, hwaits⟩
  have hget := hholds.respond_get
  rw [hlocks.id_eq, ← show f₁.store = s from hwaits.store_eq] at hget
  refine attains_store hget fun f' hwaits' => ?_
  refine ⟨locked, s, ?_, hlocks, hholds, hwaits.trans hwaits'⟩
  rw [Option.filter_some, if_pos hlocks.isLockedBy]

/-- The only job is locked and dispatched. -/
theorem attains_offer (hlimit : engine.limit ≠ .zero) (hstore : f.store.Holds (some row))
    (hunlocked : row.hasLiveLock f.clock = false)
    (hroom : (f.clock.after? engine.lockDuration).isSome = true)
    (hcapacity : f.node.backlog.length < f.node.capacity) (token : Option ScopeId) :
    (engine.offer row token).Attains (Footing.Replies last)
      (fun _ outcome f' => outcome = .ok .dispatched ∧ ∃ locked s, engine.Locks f.clock row locked ∧
        s.Holds (some locked) ∧ ((f.withStore s).onNode fun node =>
          { node with backlog := node.backlog ++ [⟨locked, token⟩] }).Waits last f') f := by
  refine Interaction.Attains.onAbort (Interaction.attains_bind
    ((attains_lock hlimit hstore hunlocked hroom).mono ?_)) _
  rintro _ _ f₁ ⟨locked, s, rfl, hlocks, hholds, hwaits⟩
  refine attains_dispatch ?_ ?_
  · rwa [hwaits.node_eq]
  refine attains_shown rfl fun _ => attains_shown rfl fun _ => ?_
  exact ⟨rfl, locked, s, hlocks, hholds, hwaits.onNode _⟩

/-- The only job is locked and dispatched with its token, if it can be acquired and its token is
free. -/
theorem attains_runCycle_of_some (hlimit : engine.limit ≠ .zero)
    (hstore : f.store.Holds (some row)) (hacquirable : row.isAcquirable f.clock = true)
    (hclock : f.clock ≤ last)
    (hroom : ∀ now ≤ last, (now.after? engine.lockDuration).isSome = true)
    (hcapacity : f.node.backlog.length < f.node.capacity)
    (hfree : ∀ scope ∈ row.exclusivityScope, f.node.tokens.isHeld scope = false) (batch : Nat) :
    (engine.runCycle batch).Attains (Footing.Replies last)
      (fun _ outcome f' => outcome = .ok { polled := 1, dispatched := 1 } ∧
        ∃ time locked s, engine.Locks time row locked ∧ s.Holds (some locked) ∧
          ((f.withStore s).dispatched row.exclusivityScope
            ⟨locked, row.exclusivityScope⟩).Waits last f') f := by
  have hdue := hstore.respond_findDue (fun found hfound => by
    obtain rfl := Option.some.inj hfound
    exact hacquirable) (Nat.le_max_right batch 1)
  have hunlocked : row.hasLiveLock f.clock = false := by
    simpa using (Bool.and_eq_true_iff.1 hacquirable).2
  refine attains_shown_bind rfl fun _ => attains_clock (attains_store hdue fun f₁ hwaits => ?_)
  refine attains_shown_bind rfl fun _ => ?_
  change (engine.offerAll [row] [] _).Attains _ _ _
  have hwaits : f.Waits last f₁ := hwaits
  have htokens : ∀ scope ∈ row.exclusivityScope, f₁.node.tokens.isHeld scope = false := by
    rwa [hwaits.node_eq]
  refine Interaction.attains_bind ((attains_takeTokenFor htokens).mono ?_)
  rintro _ _ f₂ ⟨rfl, hf₂⟩
  have hstore₂ : f₂.store.Holds (some row) := by
    rw [hf₂]
    exact hwaits.store_eq.symm ▸ hstore
  have hunlocked₂ : row.hasLiveLock f₂.clock = false := by
    rw [hf₂]
    exact JobTable.hasLiveLock_eq_false_of_le hunlocked hwaits.later
  have hroom₂ : (f₂.clock.after? engine.lockDuration).isSome = true := by
    rw [hf₂]
    exact hroom _ (hwaits.within hclock)
  have hcapacity₂ : f₂.node.backlog.length < f₂.node.capacity := by
    rw [hf₂]
    change f₁.node.backlog.length < f₁.node.capacity
    rwa [hwaits.node_eq]
  refine Interaction.attains_bind
    ((attains_offer hlimit hstore₂ hunlocked₂ hroom₂ hcapacity₂ _).mono ?_)
  rintro _ _ f' ⟨rfl, locked, s, hlocks, hholds, hwaits'⟩
  refine ⟨rfl, _, locked, s, hlocks, hholds, ?_⟩
  rw [hf₂] at hwaits'
  exact ((hwaits.withStore s).onNode _).trans hwaits'

/-- Where there is no job, none is dispatched. -/
theorem attains_runCycle_of_none (hstore : f.store.Holds none) (batch : Nat) :
    (engine.runCycle batch).Attains (Footing.Replies last)
      (fun _ outcome f' => outcome = .ok {} ∧ f.Waits last f') f := by
  have hdue : f.store.respond (.findDue f.clock (max batch 1)) = (.ok [], f.store) :=
    hstore.respond_findDue (fun _ h => nomatch h) (Nat.le_max_right batch 1)
  refine attains_shown_bind rfl fun _ => attains_clock (attains_store hdue fun f' hwaits => ?_)
  exact ⟨rfl, hwaits⟩

/-- A cycle ends as what it polls and tries does. -/
theorem attains_acquire {batch : Nat} {report : CycleReport} {P : Footing → Prop}
    (h : (engine.runCycle batch).Attains (Footing.Replies last)
      (fun _ outcome f' => outcome = .ok report ∧ P f') f) :
    (engine.acquire batch).Attains (Footing.Replies last)
      (fun _ outcome f' => outcome = .ok report ∧ P f') f := by
  refine attains_shown_bind rfl fun _ => Interaction.attains_bind (h.mono ?_)
  rintro _ _ f' ⟨rfl, hP⟩
  exact attains_shown_bind rfl fun _ => ⟨rfl, hP⟩

/-! ## Execution -/

variable {said more : List (Exchange (Call ε))}

/-- No rows are told in the conversation, and no batches are taken. -/
structure IsAside (said : List (Exchange (Call ε))) : Prop where
  told : said.flatMap Exchange.told = []
  batches : said.filterMap Exchange.batch? = []

theorem IsAside.told_append (h : IsAside more) :
    (said ++ more).flatMap Exchange.told = said.flatMap Exchange.told := by
  rw [List.flatMap_append, h.told, List.append_nil]

theorem IsAside.batches_append (h : IsAside more) :
    (said ++ more).filterMap Exchange.batch? = said.filterMap Exchange.batch? := by
  rw [List.filterMap_append, h.batches, List.append_nil]

theorem IsAside.append (h : IsAside said) (hmore : IsAside more) : IsAside (said ++ more) :=
  ⟨hmore.told_append.trans h.told, hmore.batches_append.trans h.batches⟩

theorem attains_giveBack (token : Option ScopeId) :
    (giveBack (ε := ε) token).Attains (Footing.Replies last)
      (fun said _ f' => IsAside said ∧
        f' = f.onNode fun node => { node with tokens := node.tokens.restored token }) f := by
  cases token with
  | none => exact ⟨⟨rfl, rfl⟩, rfl⟩
  | some scope =>
    rintro _ f' hreply
    exact ⟨⟨rfl, rfl⟩, hreply⟩

/-- When the transaction that executes a job ends well, the execution ends as it did, nothing else is
read or written, and the token of the job comes back. -/
theorem attains_runJob {d : Dispatched} {handler : Handler ε} {completion : Completion}
    {Q : List Job → List (List Write) → Footing → Prop}
    (hresolve : engine.handlers.resolve d.job.kind = some handler)
    (h : (engine.transact (.executeJob d.job engine.owner handler)).Attains (Footing.Replies last)
      (fun said outcome f' => outcome = .ok completion ∧
        Q (said.flatMap Exchange.told) (said.filterMap Exchange.batch?) f') f) :
    (engine.runJob d).Attains (Footing.Replies last)
      (fun said outcome f' => outcome = .ok (.committed completion) ∧ ∃ f₁,
        Q (said.flatMap Exchange.told) (said.filterMap Exchange.batch?) f₁ ∧
          f' = f₁.onNode fun node =>
            { node with tokens := node.tokens.restored d.token }) f := by
  have hexecute : (engine.execute d.job).Attains (Footing.Replies last)
      (fun said outcome f' => outcome = .ok (.committed completion) ∧
        Q (said.flatMap Exchange.told) (said.filterMap Exchange.batch?) f') f := by
    unfold execute
    rw [hresolve]
    refine Interaction.attains_bind (h.mono ?_)
    rintro said _ f' ⟨rfl, hQ⟩
    exact ⟨rfl, by rwa [List.append_nil]⟩
  refine Interaction.attains_bind (Interaction.Attains.onAbort
    (Interaction.attains_bind (hexecute.mono ?_)) _)
  rintro said _ f₁ ⟨rfl, hQ⟩
  refine attains_shown_bind rfl fun _ => ?_
  refine Interaction.attains_bind ((attains_giveBack d.token).mono ?_)
  rintro said' _ _ ⟨haside, rfl⟩
  let counted : Exchange (Call ε) := ⟨.count .executed 1, ()⟩
  have hcount : IsAside [counted] := ⟨rfl, rfl⟩
  have hdone : ∀ more : List (Exchange (Call ε)), IsAside more →
      Q ((said ++ [counted] ++ (said' ++ more)).flatMap Exchange.told)
        ((said ++ [counted] ++ (said' ++ more)).filterMap Exchange.batch?) f₁ := by
    intro more hmore
    have hrest := haside.append hmore
    rwa [hrest.told_append, hrest.batches_append, hcount.told_append, hcount.batches_append]
  dsimp only
  split
  · exact attains_shown_bind rfl fun _ => ⟨rfl, f₁, hdone [⟨.wake, ()⟩] ⟨rfl, rfl⟩, rfl⟩
  · exact ⟨rfl, f₁, hdone [] ⟨rfl, rfl⟩, rfl⟩

end Engine

end DeferredWork

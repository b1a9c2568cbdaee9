import DeferredWork.Batch
import DeferredWork.Proofs.Engine.Lone
import DeferredWork.Proofs.Engine.Timing
import DeferredWork.Proofs.Identifier
import DeferredWork.Proofs.Json.Record

set_option autoImplicit false

/-!
# One step of a batch

What a step writes as the payload of the next one is read as it was meant, whatever the name of the
batch (`BatchStep.read_write`).  On a store that holds the locked job of a step and nothing else, the
transaction that executes the job reads it once and hands in one batch, by which the job of the next
step, or none after the last, takes its place (`BatchStep.attains_executeStep`).
-/

namespace DeferredWork

variable {ε : Type → Type}

namespace BatchStep

open Json Text

/-! ## Payloads -/

/-- The numbers of the step, and that of a step after it, fit their fields. -/
structure Fits (s : BatchStep) : Prop where
  step : s.step + 1 < 2 ^ 32
  total : s.total < 2 ^ 32

theorem toJson_eq (s : BatchStep) :
    s.toJson = .object (shape.names.zip [.string s.batch, .ofNat s.step, .ofNat s.total]) := rfl

theorem isPlain_toJson (s : BatchStep) : s.toJson.IsPlain := by
  rw [toJson_eq]
  refine isPlain_zip ?_
  simp only [List.forall_mem_cons]
  exact ⟨.string _, isPlain_ofInt _, isPlain_ofInt _, fun _ h => absurd h List.not_mem_nil⟩

theorem ofJson?_toJson {s : BatchStep} (h : s.Fits) : ofJson? s.toJson = some s := by
  have hnames : shape.names.Nodup := by decide
  have hfields : s.toJson.fields? shape =
      some ([.string s.batch, .ofNat s.step, .ofNat s.total].map some) :=
    s.toJson_eq ▸ fields?_zip hnames rfl
  rw [ofJson?, bind_part _ hfields]
  simp only [List.map_cons, List.map_nil]
  rw [bind_part _ (required_text _), bind_part _ (required_nat (Nat.lt_of_succ_lt h.step)),
    bind_part _ (required_nat h.total)]

/-- **A payload is read as the step that it was written for**, whatever the name of the batch. -/
theorem read_write {s : BatchStep} (h : s.Fits) : read s.write = some s := by
  rw [read, write, read_text s.isPlain_toJson]
  exact ofJson?_toJson h

/-! ## What follows a step -/

theorem next?_eq_some_iff {s next : BatchStep} :
    s.next? = some next ↔ s.step + 1 < s.total ∧ next = { s with step := s.step + 1 } := by
  rw [next?, Option.ite_none_right_eq_some, Option.some.injEq, eq_comm]

/-- The steps of the batch from this one on. -/
def onwards (s : BatchStep) : List BatchStep :=
  (List.range' s.step (max s.step (s.total - 1) + 1 - s.step)).map fun k => { s with step := k }

theorem length_onwards_pos (s : BatchStep) : 0 < s.onwards.length := by
  rw [onwards, List.length_map, List.length_range']
  omega

theorem onwards_of_last {s : BatchStep} (h : s.next? = none) : s.onwards = [s] := by
  have hlast : ¬ s.step + 1 < s.total := by
    intro hlt
    rw [next?, if_pos hlt] at h
    cases h
  have hone : max s.step (s.total - 1) + 1 - s.step = 1 := by omega
  rw [onwards, hone]
  rfl

theorem onwards_of_next {s next : BatchStep} (h : s.next? = some next) :
    s.onwards = s :: next.onwards := by
  obtain ⟨hlt, rfl⟩ := next?_eq_some_iff.1 h
  have hmore : max s.step (s.total - 1) + 1 - s.step =
      max (s.step + 1) (s.total - 1) + 1 - (s.step + 1) + 1 := by omega
  rw [onwards, hmore, List.range'_succ, List.map_cons]
  rfl

theorem Fits.next {s next : BatchStep} (h : s.Fits) (hnext : s.next? = some next) : next.Fits := by
  obtain ⟨hlt, rfl⟩ := next?_eq_some_iff.1 hnext
  have htotal := h.total
  refine ⟨?_, htotal⟩
  dsimp only
  omega

/-- The job of a step that follows the one of a row, made with an identifier at a time. -/
def jobAfter (s : BatchStep) (row : Job) (id : Uuid) (created : Instant) : Job :=
  { Job.new (.ofUuid id) batchKind created with
    payload := some s.write
    scope := row.scope
    exclusive := row.exclusive }

theorem scope_jobAfter (s : BatchStep) (row : Job) (id : Uuid) (created : Instant) :
    (s.jobAfter row id created).scope = row.scope := by dsimp only [jobAfter]

theorem exclusive_jobAfter (s : BatchStep) (row : Job) (id : Uuid) (created : Instant) :
    (s.jobAfter row id created).exclusive = row.exclusive := by dsimp only [jobAfter]

/-- The job that follows the one of this step, unless this is the last step. -/
def successor? (s : BatchStep) (row : Job) (id : Uuid) (created : Instant) : Option Job :=
  s.next?.map fun next => next.jobAfter row id created

end BatchStep

/-! ## Jobs of steps -/

/-- The job is one for a step of a batch in a scope, exclusive or not, and does not recur. -/
structure Job.IsStep (scope : Option ScopeId) (exclusive : Bool) (step : BatchStep) (job : Job) :
    Prop where
  kind : job.kind = batchKind
  told : job.payload.bind BatchStep.read = some step
  once : job.interval = none
  scope_eq : job.scope = scope
  exclusive_eq : job.exclusive = exclusive

namespace Job.IsStep

variable {scope : Option ScopeId} {exclusive : Bool} {step next : BatchStep} {job locked : Job}

/-- The token that the job of a step needs. -/
theorem exclusivityScope_eq (h : job.IsStep scope exclusive step) :
    job.exclusivityScope = if exclusive then scope else none := by
  rw [exclusivityScope, h.exclusive_eq, h.scope_eq]

theorem inserted (h : job.IsStep scope exclusive step) : job.inserted.IsStep scope exclusive step :=
  ⟨h.kind, h.told, h.once, h.scope_eq, h.exclusive_eq⟩

theorem of_locks {engine : Engine ε} {now : Instant} (h : job.IsStep scope exclusive step)
    (hlocks : engine.Locks now job locked) : locked.IsStep scope exclusive step := by
  obtain ⟨expiry, -, rfl⟩ := hlocks
  exact ⟨h.kind, h.told, h.once, h.scope_eq, h.exclusive_eq⟩

/-- The job that follows the one of a step is told the next step, in the same scope. -/
theorem jobAfter (h : job.IsStep scope exclusive step) (hfits : next.Fits) (id : Uuid)
    (created : Instant) : (next.jobAfter job id created).IsStep scope exclusive next where
  kind := rfl
  told := (Option.bind_some next.write BatchStep.read).trans (BatchStep.read_write hfits)
  once := rfl
  scope_eq := (next.scope_jobAfter job id created).trans h.scope_eq
  exclusive_eq := (next.exclusive_jobAfter job id created).trans h.exclusive_eq

end Job.IsStep

/-- What the handler of a step does with its job, and then the end of the job: the job of the next
step is staged, if there is one, and then the deletion. -/
theorem BatchStep.run_handled {scope : Option ScopeId} {exclusive : Bool} {step : BatchStep}
    {row : Job} (h : row.IsStep scope exclusive step) :
    (Command.handled (BatchStep.handler (ε := ε)) row).run =
      match step.next? with
      | none => .ask (.stage (.delete row)) fun _ => .done (.ok .deleted)
      | some next =>
        .ask .draw fun id => .ask .wallClock fun created =>
          .ask (.stage (.insert (next.jobAfter row id created))) fun _ =>
            .ask (.stage (.delete row)) fun _ => .done (.ok .deleted) := by
  obtain ⟨payload, hpayload, hread⟩ := Option.bind_eq_some_iff.1 h.told
  have hhandle : (BatchStep.handler (ε := ε)).handle row = (step.follow row).toHandling := by
    simp only [BatchStep.handler, hpayload, hread]
  have hcomplete : Command.complete (ε := ε) row = (do Command.stage (.delete row); return .deleted) := by
    rw [Command.complete, h.once]
  unfold Command.handled
  rw [hhandle, hcomplete, BatchStep.follow]
  cases step.next? with
  | none => rfl
  | some next => rfl

/-! ## The transaction of a step -/

theorem Context.guard_observe (now : Instant) (row : Job) :
    (observe { now := now } row).guard row = .exactly row.revision := by
  rw [guard, observed?_observe, if_pos rfl]
  rfl

namespace Transaction

variable {α : Type} {limit : Duration} {last : Instant} {f : Footing} {ctx : Context}
  {post : List (Exchange (Call ε)) → Except TransactionError α → Footing → Prop}

/-- A body that reads a stored row goes on with that row. -/
theorem attains_runFrom_found {x y : Interaction (Request ε) (Except TransactionError α)}
    {id : JobId} {row : Job} (hleads : x.Leads [⟨.find id, .ok (some row)⟩] y)
    (hrespond : f.store.respond (.get id) = (.ok (some row), f.store))
    (hnext : ∀ f', f.Waits last f' →
      (runFrom limit y (ctx.observe row)).Attains (Footing.Replies last)
        (fun said => post (⟨.store (.get id), .ok (some row)⟩ :: said)) f') :
    (runFrom limit x ctx).Attains (Footing.Replies last) post f := by
  cases hleads with
  | ask rest =>
    obtain rfl := rest.unique (.stop _)
    rw [runFrom]
    exact Routine.attains_store hrespond fun f' hwaits => hnext f' hwaits

/-- A body that is done in time commits what it has gathered, if the store takes it. -/
theorem attains_commit {a : α} {ws : List Write} {left : List Job} {s : Store}
    (htimely : ctx.exceeds limit = false) (hwrites : ctx.writes = ws) (hsome : ws ≠ [])
    (hraised : ctx.raised = []) (hrespond : f.store.respond (.apply ws) = (.ok left, s))
    (hpost : ∀ f', (f.withStore s).Waits last f' →
      post [⟨.store (.apply ws), .ok left⟩] (.ok a) f') :
    (runFrom limit (.done (.ok a)) ctx).Attains (Footing.Replies last) post f := by
  rw [runFrom, htimely, if_neg Bool.false_ne_true, commit, hwrites, hraised]
  cases ws with
  | nil => exact absurd rfl hsome
  | cons first rest => exact Routine.attains_store hrespond hpost

end Transaction

namespace BatchStep

variable {engine : Engine ε} {last : Instant} {f f' : Footing} {scope : Option ScopeId}
  {exclusive : Bool} {step : BatchStep} {locked : Job} {successor : Option Job}

/-- The job of the next step, or none, has taken the place of the only job, a name is drawn for it,
and nothing else has changed but the time. -/
structure Passes (step : BatchStep) (locked : Job) (last : Instant) (f : Footing)
    (successor : Option Job) (f' : Footing) : Prop where
  succeeds : ∃ created, successor = step.successor? locked (.drawn f.era (f.draws + 1)) created
  holds : f'.store.Holds (successor.map Job.inserted)
  era_eq : f'.era = f.era
  draws_eq : f'.draws = f.draws + successor.toList.length
  node_eq : f'.node = f.node
  within : f.clock ≤ last → f'.clock ≤ last

/-- The batch that ends a step: the job of the next step, if there is one, is inserted, and the job
is deleted. -/
def closing (locked : Job) (successor : Option Job) : List Write :=
  successor.toList.map .insert ++ [.delete locked.id (.exactly locked.revision)]

theorem closing_ne_nil : closing locked successor ≠ [] :=
  List.append_ne_nil_of_right_ne_nil _ (List.cons_ne_nil _ _)

/-- What a step has gathered is committed in one batch. -/
theorem attains_close {limit : Duration} {ctx : Context} (successor : Option Job)
    (hlimit : limit ≠ .zero)
    (hspent : ctx.spent = .zero) (hraised : ctx.raised = [])
    (hwrites : ctx.writes = closing locked successor) (hstore : f.store.Holds (some locked))
    (hnames : ∀ job ∈ successor, locked.id ≠ job.id) :
    (Transaction.runFrom (ε := ε) limit (.done (.ok .deleted)) ctx).Attains (Footing.Replies last)
      (fun said outcome f' => outcome = .ok Completion.deleted ∧
        said.flatMap Exchange.told = [] ∧
        said.filterMap Exchange.batch? = [closing locked successor] ∧
        ∃ s, s.Holds (successor.map Job.inserted) ∧ (f.withStore s).Waits last f') f := by
  obtain ⟨left, s, hrespond, hholds⟩ := hstore.respond_replace hnames
  have htimely : ctx.exceeds limit = false := by
    have hnone : ¬ limit < Duration.zero := Nat.not_lt_zero _
    simp [Context.exceeds, hspent, hlimit, hnone]
  exact Transaction.attains_commit htimely hwrites closing_ne_nil hraised hrespond
    fun f' hwaits => ⟨rfl, rfl, rfl, s, hholds, hwaits⟩

/-- Time that passes with the commit changes nothing else. -/
theorem Passes.of_waits {s : Store} {created : Instant}
    (hsucceeds : successor = step.successor? locked (.drawn f.era (f.draws + 1)) created)
    (hholds : s.Holds (successor.map Job.inserted))
    (hwaits : ({ f with draws := f.draws + successor.toList.length }.withStore s).Waits last f') :
    step.Passes locked last f successor f' := by
  obtain ⟨t, -, hwithin, rfl⟩ := hwaits
  exact ⟨⟨created, hsucceeds⟩, hholds, rfl, rfl, rfl, hwithin⟩

/-- Nor does time that passed before. -/
theorem Passes.after {f₁ : Footing} (h : step.Passes locked last f₁ successor f')
    (hwaits : f.Waits last f₁) : step.Passes locked last f successor f' := by
  obtain ⟨t, -, hwithin, rfl⟩ := hwaits
  exact ⟨h.succeeds, h.holds, h.era_eq, h.draws_eq, h.node_eq, h.within ∘ hwithin⟩

/-- A step that was read is handled: one batch is taken that inserts the job of the next step, unless
it was the last, and deletes the row. -/
theorem attains_handledStep {limit : Duration} (hlimit : limit ≠ .zero)
    (hstore : f.store.Holds (some locked)) (hstep : locked.IsStep scope exclusive step)
    (hnew : locked.id ≠ .ofUuid (.drawn f.era (f.draws + 1))) (now : Instant) :
    (Transaction.runFrom (ε := ε) limit (Command.handled handler locked).run
        (Context.observe { now := now } locked)).Attains (Footing.Replies last)
      (fun said outcome f' => outcome = .ok .deleted ∧ ∃ successor,
        said.flatMap Exchange.told = [] ∧
        said.filterMap Exchange.batch? = [closing locked successor] ∧
        step.Passes locked last f successor f') f := by
  rw [run_handled hstep]
  cases hnext : step.next? with
  | none =>
    have hlast : ∀ id created, none = step.successor? locked id created := fun id created => by
      rw [successor?, hnext, Option.map_none]
    refine (attains_close none hlimit rfl rfl ?_ hstore fun _ h => nomatch h).mono ?_
    · rw [Context.writes_stage, Context.writes_observe, Context.writeOf, Context.guard_observe]
      rfl
    · rintro said _ f' ⟨rfl, htold, hbatches, s, hholds, hwaits⟩
      exact ⟨rfl, none, htold, hbatches, .of_waits (hlast _ now) hholds hwaits⟩
  | some next =>
    rintro _ _ ⟨rfl, rfl⟩ created f₁ hf₁
    have hstore₁ : f₁.store.Holds (some locked) := hf₁ ▸ hstore
    have hsucceeds : some (next.jobAfter locked (.drawn f.era (f.draws + 1)) created) =
        step.successor? locked (.drawn f.era (f.draws + 1)) created := by
      rw [successor?, hnext, Option.map_some]
    have hname : locked.id ≠ (next.jobAfter locked (.drawn f.era (f.draws + 1)) created).id := hnew
    dsimp only
    rw [Transaction.runFrom, Transaction.runFrom]
    revert hsucceeds hname
    generalize next.jobAfter locked (.drawn f.era (f.draws + 1)) created = job
    intro hsucceeds hname
    refine (attains_close (some job) hlimit ?_ ?_ ?_ hstore₁ ?_).mono ?_
    · rfl
    · rfl
    · rw [Context.writes_stage, Context.writeOf_stage, Context.writes_stage, Context.writes_observe,
        Context.writeOf, Context.writeOf, Context.guard_observe]
      rfl
    · rintro _ ⟨⟩
      exact hname
    · rintro said _ f' ⟨rfl, htold, hbatches, s, hholds, hwaits⟩
      rw [hf₁] at hwaits
      exact ⟨rfl, some job, htold, hbatches, .of_waits hsucceeds hholds hwaits⟩

/-- A locked step is executed: its row is read, and then handled. -/
theorem attains_executeStep (hlimit : engine.limit ≠ .zero) (hstore : f.store.Holds (some locked))
    (howner : locked.isLockedBy engine.owner = true) (hstep : locked.IsStep scope exclusive step)
    (hnew : locked.id ≠ .ofUuid (.drawn f.era (f.draws + 1))) :
    (engine.transact (.executeJob locked engine.owner handler)).Attains (Footing.Replies last)
      (fun said outcome f' => outcome = .ok .deleted ∧ ∃ successor,
        said.flatMap Exchange.told = [locked] ∧
        said.filterMap Exchange.batch? = [closing locked successor] ∧
        step.Passes locked last f successor f') f := by
  refine Routine.attains_clock ?_
  have hinvoked : Command.Invokes (ε := ε) locked engine.owner handler locked :=
    Command.invokes_iff.2 ⟨rfl, howner⟩
  refine Transaction.attains_runFrom_found hinvoked hstore.respond_get fun f₁ hwaits => ?_
  have hstore₁ : f₁.store.Holds (some locked) := hwaits.store_eq.symm ▸ hstore
  have hnew₁ : locked.id ≠ .ofUuid (.drawn f₁.era (f₁.draws + 1)) := by
    obtain ⟨t, -, -, rfl⟩ := hwaits
    exact hnew
  refine (attains_handledStep hlimit hstore₁ hstep hnew₁ f.clock).mono ?_
  rintro said _ f' ⟨rfl, successor, htold, hbatches, hpasses⟩
  exact ⟨rfl, successor, congrArg (locked :: ·) htold, hbatches, hpasses.after hwaits⟩

theorem Passes.next?_eq_none (h : step.Passes locked last f none f') : step.next? = none := by
  obtain ⟨created, hsucceeds⟩ := h.succeeds
  exact Option.map_eq_none_iff.1 hsucceeds.symm

/-- The job that follows is that of the next step, has the name that was drawn, and can be acquired
at any time. -/
theorem Passes.follows {followUp : Job} (h : step.Passes locked last f (some followUp) f')
    (hstep : locked.IsStep scope exclusive step) (hfits : step.Fits) :
    ∃ next, step.next? = some next ∧ followUp.IsStep scope exclusive next ∧
      followUp.id = .ofUuid (.drawn f.era (f.draws + 1)) ∧
      ∀ now, followUp.inserted.isAcquirable now = true := by
  obtain ⟨created, hsucceeds⟩ := h.succeeds
  obtain ⟨next, hnext, rfl⟩ := Option.map_eq_some_iff.1 hsucceeds.symm
  exact ⟨next, hnext, hstep.jobAfter (hfits.next hnext) _ created, rfl, fun _ => rfl⟩

theorem resolve_stock : (stockHandlers : Registry (Handler ε)).resolve batchKind = some handler := rfl

end BatchStep

end DeferredWork

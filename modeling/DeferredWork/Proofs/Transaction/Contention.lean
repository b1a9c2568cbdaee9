import DeferredWork.Proofs.Routine.Play
import DeferredWork.Proofs.Store.Edits
import DeferredWork.Proofs.Transaction.Batches
import DeferredWork.Proofs.Transaction.Solitude

set_option autoImplicit false

/-!
# Contention without contenders

A transaction edits if its body, told what the store holds, goes well in time and stages nothing but
updates and deletions of jobs that it has read, insertions under free names, and incidents
(`Interaction.OnlyEdits`).  Nobody else need commit anything for such a transaction to meet
contention: its own writes raise the revisions on which its later ones rely.  If it is alone from
its first call of the store to its last one, it commits exactly if it stages no two guarded changes
of one job, and reports contention otherwise (`Transaction.edits_contend_only_with_themselves`).
-/

namespace DeferredWork

variable {ε : Type → Type} {α β : Type}

/-! ## Bodies that edit -/

/-- The name of the job that a request guards by the revision of its first reading. -/
def Exchange.guarded? (exchange : Exchange (Request ε)) : Option JobId :=
  exchange.staged?.bind Staged.guarded?

/-- A foreign question was not answered, and broke the body off. -/
def Exchange.isBroken : Exchange (Call ε) → Bool
  | ⟨.foreign _, .error _⟩ => true
  | _ => false

/-- After what was gathered so far, the change is of a job that was read, or it adds a job under a
name that is free and was not used yet. -/
def Staged.IsEdit (jobs : JobTable) (ctx : Context) : Staged → Prop
  | .insert job => jobs.find? job.id = none ∧ job.id ∉ ctx.writes.flatMap Write.inserted
  | .update job => (ctx.observed? job.id).isSome = true
  | .delete job => (ctx.observed? job.id).isSome = true
  | .raise _ => True
  | .resolve _ => True
  | .forceDelete _ => False
  | .lock .. => False

/-- Told what a table holds, a body ends well within the limit, and stages nothing but edits. -/
def Interaction.OnlyEdits (limit : Duration) (jobs : JobTable) :
    Interaction (Request ε) (Except TransactionError α) → Context → Prop
  | .done (.ok _), ctx => ctx.exceeds limit = false
  | .done (.error _), _ => False
  | .abort _, _ => False
  | .ask (.find id) next, ctx =>
    OnlyEdits limit jobs (next (.ok (jobs.find? id))) (ctx.note (jobs.find? id))
  | .ask .now next, ctx => OnlyEdits limit jobs (next ctx.now) ctx
  | .ask .hasPending next, ctx => OnlyEdits limit jobs (next (!ctx.writes.isEmpty)) ctx
  | .ask (.stage change) next, ctx =>
    change.IsEdit jobs ctx ∧ OnlyEdits limit jobs (next ()) (ctx.stage change)
  | .ask .draw next, ctx => ∀ id, OnlyEdits limit jobs (next id) ctx
  | .ask .wallClock next, ctx => ∀ t, OnlyEdits limit jobs (next t) ctx
  | .ask (.spend time) next, ctx => OnlyEdits limit jobs (next ()) (ctx.spend time)
  | .ask (.foreign _) next, ctx => ∀ b, OnlyEdits limit jobs (next b) ctx

/-! ## What editing bodies gather -/

namespace Context

variable {jobs : JobTable} {ctx ctx' : Context}

/-- What was read so far is what a table holds, and what was staged edits the table. -/
structure EditsOf (jobs : JobTable) (ctx : Context) : Prop where
  observed : ∀ id revision, ctx.observed? id = some revision →
    ∃ row, jobs.find? id = some row ∧ row.revision = revision
  edited : jobs.EditedBy ctx.writes

theorem editsOf_start (jobs : JobTable) (now : Instant) : EditsOf jobs { now := now } where
  observed _ _ h := nomatch h
  edited := ⟨List.forall_mem_nil _, List.nodup_nil⟩

theorem EditsOf.note (h : ctx.EditsOf jobs) (id : JobId) :
    (ctx.note (jobs.find? id)).EditsOf jobs := by
  cases hrow : jobs.find? id with
  | none => exact h
  | some row =>
    obtain rfl := JobTable.id_of_find? hrow
    rw [Context.note]
    refine ⟨fun k revision hk => ?_, (writes_observe ctx row).symm ▸ h.edited⟩
    rw [observed?_observe] at hk
    cases hobserved : ctx.observed? k with
    | some first =>
      rw [hobserved] at hk
      exact h.observed k revision (hobserved ▸ hk)
    | none =>
      rw [hobserved, Option.none_or] at hk
      split at hk
      · rename_i hname
        cases hk
        exact ⟨row, hname ▸ hrow, rfl⟩
      · cases hk

/-- A guarded change of a job that was read edits the row that was read. -/
theorem EditsOf.guard (h : ctx.EditsOf jobs) {job : Job} (hread : (ctx.observed? job.id).isSome) :
    ∃ row, jobs.find? job.id = some row ∧ ctx.guard job = .exactly row.revision := by
  obtain ⟨revision, hobserved⟩ := Option.isSome_iff_exists.1 hread
  obtain ⟨row, hrow, rfl⟩ := h.observed job.id revision hobserved
  exact ⟨row, hrow, by rw [Context.guard, hobserved, Option.getD_some]⟩

theorem EditsOf.edits_writeOf (h : ctx.EditsOf jobs) {change : Staged}
    (hedit : change.IsEdit jobs ctx) : (ctx.writeOf change).Edits jobs := by
  cases change with
  | insert job => exact .insert hedit.1
  | update job =>
    obtain ⟨row, hrow, hguard⟩ := h.guard hedit
    rw [writeOf, hguard]
    exact .update hrow
  | delete job =>
    obtain ⟨row, hrow, hguard⟩ := h.guard hedit
    rw [writeOf, hguard]
    exact .delete hrow
  | raise incident => exact .raise
  | resolve id => exact .resolve
  | forceDelete id => exact hedit.elim
  | lock job owner expiry => exact hedit.elim

theorem EditsOf.stage (h : ctx.EditsOf jobs) {change : Staged} (hedit : change.IsEdit jobs ctx) :
    (ctx.stage change).EditsOf jobs := by
  refine ⟨h.observed, ⟨?_, ?_⟩⟩
  · rw [writes_stage]
    exact List.forall_mem_append.2
      ⟨h.edited.edits, List.forall_mem_singleton.2 (h.edits_writeOf hedit)⟩
  · rw [writes_stage, List.flatMap_append, List.flatMap_singleton]
    cases change with
    | insert job =>
      refine List.nodup_append.2 ⟨h.edited.once, List.nodup_singleton _, fun k hk l hl => ?_⟩
      obtain rfl := List.mem_singleton.1 hl
      rintro rfl
      exact hedit.2 hk
    | _ => exact (List.append_nil _).symm ▸ h.edited.once

/-- The writes that were gathered guard the jobs that the requests have guarded. -/
theorem ServesAll.guarded {said : List (Exchange (Request ε))} {calls : List (Exchange (Call ε))}
    (h : ctx.ServesAll said calls ctx') :
    ctx'.writes.filterMap Write.guarded? =
      ctx.writes.filterMap Write.guarded? ++ said.filterMap Exchange.guarded? := by
  induction h with
  | nil ctx => exact (List.append_nil _).symm
  | @cons ctx _ _ exchange _ _ _ head rest ih =>
    rw [ih, head.writes, List.filterMap_append, List.append_assoc]
    congr 1
    rw [List.filterMap_cons, Exchange.guarded?]
    cases exchange.staged? with
    | none => rfl
    | some change => cases change <;> rfl

end Context

/-! ## Transactions that edit -/

namespace Transaction

open Routine

variable {limit : Duration} {s s' : Store} {ctx : Context} {calls : List (Exchange (Call ε))}
  {r' : Routine ε (Except TransactionError α)}

theorem runs_notifyAll {incidents : List Incident} {a : α} {r' : Routine ε α}
    (h : Runs s ((notifyAll incidents).bind fun _ => .done a) (calls.map Event.own) s' r')
    (hover : r'.isOver = true) : r' = .done a ∧ s' = s := by
  induction incidents generalizing calls with
  | nil =>
    cases calls with
    | nil =>
      cases h
      exact ⟨rfl, rfl⟩
    | cons exchange rest => cases h
  | cons incident incidents ih =>
    rw [notifyAll, Interaction.ask_bind] at h
    obtain ⟨answer, s₁, rest, rfl, hanswered, hrest⟩ := runs_ask h hover
    obtain rfl : s₁ = s := hanswered
    exact ih hrest

/-- The commit of a transaction that has gathered edits succeeds exactly if they guard no job
twice. -/
theorem runs_commit_edits {a : α} (hedits : ctx.EditsOf s.jobs) (havailable : s.available = true)
    (h : Runs s (commit ctx a) (calls.map Event.own) s' r') (hover : r'.isOver = true) :
    if (ctx.writes.filterMap Write.guarded?).Nodup then
      r' = .done (.ok a) ∧ ∃ rows, s.apply ctx.writes = .ok (rows, s')
    else (∃ reason, r' = .done (.error (.contention reason))) ∧ s' = s := by
  have hbatch := hedits.edited.writeAll
  unfold commit at h
  split at h
  · rename_i hempty
    obtain ⟨rfl, rfl⟩ := runs_notifyAll h hover
    rw [hempty]
    exact ⟨rfl, [], rfl⟩
  · obtain ⟨answer, s₁, rest, rfl, hanswered, hrest⟩ := runs_ask h hover
    rw [Call.Answered, Store.respond_apply, Store.apply, Store.applyIn_of_available havailable]
      at hanswered
    rw [Store.apply, Store.applyIn_of_available havailable]
    by_cases hnodup : (ctx.writes.filterMap Write.guarded?).Nodup
    · rw [if_pos hnodup] at hbatch ⊢
      obtain ⟨t, rows, hws⟩ := hbatch
      rw [hws] at hanswered ⊢
      cases hanswered
      obtain ⟨rfl, rfl⟩ := runs_notifyAll hrest hover
      exact ⟨rfl, rows, rfl⟩
    · rw [if_neg hnodup] at hbatch ⊢
      obtain ⟨e, hws, he⟩ := hbatch
      rw [hws] at hanswered
      cases hanswered
      cases rest with
      | nil =>
        cases hrest
        have hcontention : TransactionError.ofStore e = .contention e.message := if_pos he
        refine ⟨⟨e.message, ?_⟩, rfl⟩
        rw [← hcontention]
        rfl
      | cons exchange rest => cases hrest

/-- An undisturbed run of a transaction comes to the commit after its body has gone well: `said` is
what the body asked and was told, and `ctx` is what was gathered. -/
inductive ReachesCommit (body : Interaction (Request ε) (Except TransactionError α))
    (start : Context) (s : Store) (calls : List (Exchange (Call ε))) (s' : Store)
    (r' : Routine ε (Except TransactionError α)) (a : α) (said : List (Exchange (Request ε)))
    (ctx : Context) : Prop
  | mk {served closing : List (Exchange (Call ε))} (leads : body.Leads said (.done (.ok a)))
      (serves : start.ServesAll said served ctx)
      (commits : Runs s (commit ctx a) (closing.map Event.own) s' r')
      (made : calls = served ++ closing)

theorem ReachesCommit.ask {q : Request ε β} {b : β}
    {next : β → Interaction (Request ε) (Except TransactionError α)} {start ctx₁ : Context}
    {first more : List (Exchange (Call ε))} {a : α} {said : List (Exchange (Request ε))}
    (served : start.Serves ⟨q, b⟩ first ctx₁)
    (h : ReachesCommit (next b) ctx₁ s more s' r' a said ctx) :
    ReachesCommit (.ask q next) start s (first ++ more) s' r' a (⟨q, b⟩ :: said) ctx := by
  obtain ⟨leads, serves, commits, rfl⟩ := h
  exact ⟨.ask leads, .cons served serves, commits, (List.append_assoc _ _ _).symm⟩

/-- Unless a foreign question breaks it off, an editing body that is alone goes well and has
gathered edits by the commit. -/
theorem runs_editing {body : Interaction (Request ε) (Except TransactionError α)} {start : Context}
    (hbody : body.OnlyEdits limit s.jobs start) (hstart : start.EditsOf s.jobs)
    (havailable : s.available = true)
    (h : Runs s (runFrom limit body start) (calls.map Event.own) s' r') (hover : r'.isOver = true)
    (hsound : ∀ call ∈ calls, call.isBroken = false) :
    ∃ a said ctx, ReachesCommit body start s calls s' r' a said ctx ∧ ctx.EditsOf s.jobs := by
  induction body generalizing start calls with
  | done outcome =>
    cases outcome with
    | error e => exact hbody.elim
    | ok a =>
      have hlimit : start.exceeds limit = false := hbody
      rw [runFrom, hlimit, if_neg Bool.false_ne_true] at h
      exact ⟨a, [], start, ⟨.stop _, .nil start, h, rfl⟩, hstart⟩
  | abort reason => exact hbody.elim
  | ask q next ih =>
    -- Each request is served, and the rest of the body goes on from there.
    cases q with
    | find id =>
      rw [runFrom] at h
      obtain ⟨answer, s₁, rest, rfl, hanswered, hrest⟩ := runs_ask h hover
      rw [Call.Answered, Store.respond_get, Store.get, Store.answer, if_pos havailable]
        at hanswered
      cases hanswered
      have hrestSound := (List.forall_mem_cons.1 hsound).2
      have hnote := hstart.note id
      rw [Interaction.OnlyEdits] at hbody
      cases hrow : s.jobs.find? id with
      | none =>
        rw [hrow] at hbody hrest hnote
        obtain ⟨a, said, ctx, hreaches, hedits⟩ := ih _ hbody hnote hrest hrestSound
        exact ⟨a, _, ctx, hreaches.ask (.missed id), hedits⟩
      | some row =>
        obtain rfl := JobTable.id_of_find? hrow
        rw [hrow] at hbody hrest hnote
        obtain ⟨a, said, ctx, hreaches, hedits⟩ := ih _ hbody hnote hrest hrestSound
        exact ⟨a, _, ctx, hreaches.ask (.found row), hedits⟩
    | now =>
      obtain ⟨a, said, ctx, hreaches, hedits⟩ := ih _ hbody hstart h hsound
      exact ⟨a, _, ctx, hreaches.ask .now, hedits⟩
    | hasPending =>
      obtain ⟨a, said, ctx, hreaches, hedits⟩ := ih _ hbody hstart h hsound
      exact ⟨a, _, ctx, hreaches.ask .hasPending, hedits⟩
    | stage change =>
      obtain ⟨a, said, ctx, hreaches, hedits⟩ := ih _ hbody.2 (hstart.stage hbody.1) h hsound
      exact ⟨a, _, ctx, hreaches.ask (.stage change), hedits⟩
    | draw =>
      rw [runFrom] at h
      obtain ⟨id, s₁, rest, rfl, rfl, hrest⟩ := runs_ask h hover
      obtain ⟨a, said, ctx, hreaches, hedits⟩ :=
        ih id (hbody id) hstart hrest (List.forall_mem_cons.1 hsound).2
      exact ⟨a, _, ctx, hreaches.ask (.draw id), hedits⟩
    | wallClock =>
      rw [runFrom] at h
      obtain ⟨t, s₁, rest, rfl, rfl, hrest⟩ := runs_ask h hover
      obtain ⟨a, said, ctx, hreaches, hedits⟩ :=
        ih t (hbody t) hstart hrest (List.forall_mem_cons.1 hsound).2
      exact ⟨a, _, ctx, hreaches.ask (.wallClock t), hedits⟩
    | spend time =>
      have hspent : (start.spend time).EditsOf s.jobs := ⟨hstart.observed, hstart.edited⟩
      obtain ⟨a, said, ctx, hreaches, hedits⟩ := ih _ hbody hspent h hsound
      exact ⟨a, _, ctx, hreaches.ask (.spend time), hedits⟩
    | foreign q =>
      rw [runFrom] at h
      obtain ⟨answer, s₁, rest, rfl, rfl, hrest⟩ := runs_ask h hover
      obtain ⟨hhead, hrestSound⟩ := List.forall_mem_cons.1 hsound
      cases answer with
      | error reason => cases hhead
      | ok b =>
        obtain ⟨a, said, ctx, hreaches, hedits⟩ := ih b (hbody b) hstart hrest hrestSound
        exact ⟨a, _, ctx, hreaches.ask (.foreign q b), hedits⟩

/-- A transaction that edits, and is alone with the store from its first call of it to the last one,
has its body go well and commits what the body has staged if no job is guarded twice by it;
otherwise it reports contention and leaves the store as it was.  It can always be run to its end. -/
theorem edits_contend_only_with_themselves {command : Command ε α} {t : Store}
    (havailable : t.available = true)
    (hedits : ∀ now, command.run.OnlyEdits limit t.jobs { now := now }) :
    (∃ (calls : List (Exchange (Call ε))) (t' : Store) (r' : Routine ε (Except TransactionError α)),
      Runs t (run limit command) (calls.map Event.own) t' r' ∧ r'.isOver = true) ∧
    ∀ (s : Store) (calls : List (Exchange (Call ε))) (t' s' : Store)
      (r' : Routine ε (Except TransactionError α)),
      RunsApart s (run limit command) t calls t' s' r' → r'.isOver = true →
      (∀ call ∈ calls, call.isBroken = false) →
      ∃ now more a said ctx, calls = ⟨.clock, now⟩ :: more ∧
        ReachesCommit command.run { now := now } t more t' r' a said ctx ∧
        if (said.filterMap Exchange.guarded?).Nodup then
          r' = .done (.ok a) ∧ ∃ rows, t.apply ctx.writes = .ok (rows, t')
        else (∃ reason, r' = .done (.error (.contention reason))) ∧ t' = t := by
  refine ⟨exists_runs _ t, fun s calls t' s' r' hruns hover hsound => ?_⟩
  obtain ⟨now, t₁, more, rfl, rfl, hrest⟩ := runs_ask hruns.undisturbed hover
  obtain ⟨a, said, ctx, hreaches, hgathered⟩ :=
    runs_editing (hedits now) (Context.editsOf_start t₁.jobs now) havailable hrest hover
      (List.forall_mem_cons.1 hsound).2
  refine ⟨now, more, a, said, ctx, rfl, hreaches, ?_⟩
  obtain ⟨leads, serves, commits, made⟩ := hreaches
  have hguarded : ctx.writes.filterMap Write.guarded? = said.filterMap Exchange.guarded? :=
    serves.guarded
  rw [← hguarded]
  exact runs_commit_edits hgathered havailable commits hover

/-! ## Two runs -/

/-- Reads a job and stages changes that depend on it. -/
def change (id : JobId) (changes : Job → List Staged) : Command ε Unit := do
  match ← Command.find id with
  | none => return ()
  | some job => (changes job).forM Command.stage

/-- The report is deleted and a summary takes its place. -/
def summarize : Command (fun _ => Empty) Unit :=
  change (Job.report 1).id fun job => [.insert (.new ⟨"summary"⟩ "mail" .epoch), .delete job]

/-- The report is given a priority, and then suspended too. -/
def demote : Command (fun _ => Empty) Unit :=
  change (Job.report 1).id fun job =>
    [.update { job with priority := 9 }, .update { job with priority := 9, suspended := true }]

theorem onlyEdits_summarize (now : Instant) :
    summarize.run.OnlyEdits (.ofMillis 1) (Store.ofRow (.report 1)).jobs { now := now } :=
  ⟨⟨rfl, List.not_mem_nil⟩, rfl, rfl⟩

theorem onlyEdits_demote (now : Instant) :
    demote.run.OnlyEdits (.ofMillis 1) (Store.ofRow (.report 1)).jobs { now := now } :=
  ⟨rfl, rfl, rfl⟩

/-- A job that is deleted, with another one in its place, guards one revision, and is committed. -/
theorem summarize_commits :
    ∃ calls t' now more said ctx,
      RunsApart (.ofRow (.report 1)) (run (.ofMillis 1) summarize) (.ofRow (.report 1)) calls t' t'
        (.done (.ok ())) ∧
      ReachesCommit summarize.run { now := now } (.ofRow (.report 1)) more t'
        (.done (.ok ())) () said ctx ∧
      ∃ rows, (Store.ofRow (.report 1)).apply ctx.writes = .ok (rows, t') := by
  have hvalue : ((run (.ofMillis 1) summarize).play .early (.ofRow (.report 1))).2.1 =
      some (.ok ()) := by
    decide +kernel
  have hruns := runsApart_of_alone (runs_play .early hvalue)
  have hsound : ∀ call ∈ ((run (.ofMillis 1) summarize).play .early (.ofRow (.report 1))).1,
      call.isBroken = false := by
    decide +kernel
  obtain ⟨now, more, a, said, ctx, -, hreaches, hends⟩ :=
    (edits_contend_only_with_themselves rfl onlyEdits_summarize).2 _ _ _ _ _ hruns rfl hsound
  split at hends
  · exact ⟨_, _, now, more, said, ctx, hruns, hreaches, hends.2⟩
  · obtain ⟨⟨reason, hcontention⟩, -⟩ := hends
    cases hcontention

/-- A transaction that updates a job twice is refused by itself: it is alone with the store and
reports contention. -/
theorem demote_contends_alone :
    (∀ now, demote.run.OnlyEdits (.ofMillis 1) (Store.ofRow (.report 1)).jobs { now := now }) ∧
      (Store.ofRow (.report 1)).available = true ∧
      ∃ (calls : List (Exchange (Call fun _ => Empty))) (t' : Store) (reason : String),
        Runs (.ofRow (.report 1)) (run (.ofMillis 1) demote) (calls.map Event.own) t'
          (.done (.error (.contention reason))) := by
  have hcontends : ((run (.ofMillis 1) demote).play .early (.ofRow (.report 1))).2.1.any
      (fun outcome => match outcome with
        | .error e => e.isContention
        | .ok _ => false) = true := by
    decide +kernel
  obtain ⟨outcome, hvalue, hcontention⟩ := (Option.any_eq_true _ _).1 hcontends
  cases outcome with
  | ok value => cases hcontention
  | error e =>
    cases e with
    | contention reason =>
      exact ⟨onlyEdits_demote, rfl, _, _, reason, runs_play .early hvalue⟩
    | _ => cases hcontention

end Transaction

end DeferredWork

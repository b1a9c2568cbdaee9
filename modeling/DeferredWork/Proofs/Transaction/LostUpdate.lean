import Mathlib.Data.List.Basic
import DeferredWork.Proofs.Transaction.Service

set_option autoImplicit false

/-!
# No lost updates

A transaction guards its updates and deletions by the revision at which its body first read the row.
This module shows that the guard pins the whole row: while others commit whatever they like between
the readings and the commit, a transaction that goes well commits on rows that are what its body
first read (`Transaction.commits_on_first_readings`), as long as no name is inserted twice.  A
transaction that fails leaves the store to the others and tells the operators nothing.
-/

namespace DeferredWork

variable {ε : Type → Type} {α : Type}

/-! ## First readings -/

/-- The row of a name that a request found. -/
def Exchange.found? (id : JobId) : Exchange (Request ε) → Option Job
  | ⟨.find k, .ok (some row)⟩ => if k = id then some row else none
  | _ => none

/-- The change that a request staged. -/
def Exchange.staged? : Exchange (Request ε) → Option Staged
  | ⟨.stage change, _⟩ => some change
  | _ => none

/-- The name of the row that a staged change guards by the revision of its first reading. -/
def Staged.guarded? : Staged → Option JobId
  | .update job => some job.id
  | .delete job => some job.id
  | _ => none

namespace Context

theorem observed?_observe (ctx : Context) (row : Job) (id : JobId) :
    (ctx.observe row).observed? id =
      (ctx.observed? id).or (if row.id = id then some row.revision else none) := by
  unfold observe
  cases hrow : ctx.observed? row.id with
  | some revision =>
    by_cases hid : row.id = id
    · rw [← hid, hrow, Option.some_or]
    · rw [if_neg hid, Option.or_none]
  | none =>
    simp only [observed?, List.find?_append, Option.map_or, List.find?_cons, List.find?_nil]
    by_cases hid : row.id = id
    · simp [hid]
    · rw [beq_eq_false_iff_ne.2 hid, if_neg hid]
      rfl

theorem Serves.observed? {ctx ctx' : Context} {exchange : Exchange (Request ε)}
    {calls : List (Exchange (Call ε))} (h : ctx.Serves exchange calls ctx') (id : JobId) :
    ctx'.observed? id =
      (ctx.observed? id).or ((exchange.found? id).map Job.revision) := by
  cases h with
  | found row =>
    rw [observed?_observe, Exchange.found?]
    split <;> rfl
  | _ => exact (Option.or_none).symm

theorem Serves.read? {ctx ctx' : Context} {exchange : Exchange (Request ε)}
    {calls : List (Exchange (Call ε))} (h : ctx.Serves exchange calls ctx') (id : JobId) :
    calls.findSome? (Exchange.read? id) = exchange.found? id := by
  cases h with
  | found row => rw [List.findSome?_singleton, Exchange.read?, Exchange.found?]
  | _ => rfl

theorem Serves.writes {ctx ctx' : Context} {exchange : Exchange (Request ε)}
    {calls : List (Exchange (Call ε))} (h : ctx.Serves exchange calls ctx') :
    ctx'.writes = ctx.writes ++ (exchange.staged?.map ctx.writeOf).toList := by
  cases h with
  | found row =>
    unfold observe
    split <;> exact (List.append_nil _).symm
  | stage change => rfl
  | _ => exact (List.append_nil _).symm

/-- What is observed of a name is the revision of its first reading. -/
theorem ServesAll.observed? {ctx ctx' : Context} {talk : List (Exchange (Request ε))}
    {calls : List (Exchange (Call ε))} (h : ctx.ServesAll talk calls ctx') (id : JobId) :
    ctx'.observed? id =
      (ctx.observed? id).or ((talk.findSome? (Exchange.found? id)).map Job.revision) := by
  induction h with
  | nil ctx => exact (Option.or_none).symm
  | @cons ctx ctx₁ _ exchange _ _ talk head rest ih =>
    rw [ih, head.observed? id, Option.or_assoc, List.findSome?_cons]
    cases exchange.found? id with
    | none => rfl
    | some row => rfl

/-- The first reading of a name in a conversation is the first call that read it. -/
theorem ServesAll.read? {ctx ctx' : Context} {talk : List (Exchange (Request ε))}
    {calls : List (Exchange (Call ε))} (h : ctx.ServesAll talk calls ctx') (id : JobId) :
    calls.findSome? (Exchange.read? id) = talk.findSome? (Exchange.found? id) := by
  induction h with
  | nil ctx => rfl
  | @cons ctx ctx₁ _ exchange calls more talk head rest ih =>
    rw [List.findSome?_append, ih, head.read? id, List.findSome?_cons]
    cases exchange.found? id with
    | none => rfl
    | some row => rfl

theorem ServesAll.writes {ctx ctx' : Context} {talk : List (Exchange (Request ε))}
    {calls : List (Exchange (Call ε))} (h : ctx.ServesAll talk calls ctx') {w : Write}
    (hw : w ∈ ctx.writes) : w ∈ ctx'.writes := by
  induction h with
  | nil ctx => exact hw
  | cons head rest ih => exact ih (head.writes ▸ List.mem_append_left _ hw)

theorem reliesOn_writeOf {ctx : Context} {change : Staged} {id : JobId} {revision : Nat}
    (hguarded : change.guarded? = some id) (hobserved : ctx.observed? id = some revision) :
    (ctx.writeOf change).ReliesOn id revision := by
  cases change with
  | update job =>
    cases hguarded
    rw [writeOf, guard, hobserved]
    exact .update rfl
  | delete job =>
    cases hguarded
    rw [writeOf, guard, hobserved]
    exact .delete
  | _ => cases hguarded

/-- A guarded change that is staged after its row was read relies on the first reading. -/
theorem ServesAll.relies {now : Instant} {ctx : Context} {early late : List (Exchange (Request ε))}
    {change : Staged} {calls : List (Exchange (Call ε))} {id : JobId} {row : Job}
    (h : ServesAll { now := now } (early ++ ⟨.stage change, ()⟩ :: late) calls ctx)
    (hguarded : change.guarded? = some id)
    (hfound : early.findSome? (Exchange.found? id) = some row) :
    ∃ w ∈ ctx.writes, w.ReliesOn id row.revision := by
  obtain ⟨ctx₁, calls₁, calls₂, hearly, hrest, -⟩ := h.split
  have hobserved : ctx₁.observed? id = some row.revision := by
    rw [hearly.observed? id, hfound]
    rfl
  cases hrest with
  | @cons _ ctx₂ _ _ _ _ _ head hlate =>
    have hstaged : ctx₁.writeOf change ∈ ctx₂.writes := by
      rw [head.writes]
      exact List.mem_append_right _ List.mem_cons_self
    exact ⟨_, hlate.writes hstaged, reliesOn_writeOf hguarded hobserved⟩

end Context

/-! ## Transactions that go well and transactions that fail -/

namespace Transaction

/-- A transaction has run its body to the end and is about to commit: `talk` is what the body asked
and was told, and `ctx` is what was gathered. -/
structure Prepares (limit : Duration) (command : Command ε α) (s : Store) (trace : List (Event ε))
    (talk : List (Exchange (Request ε))) (a : α) (s' : Store) (ctx : Context) : Prop where
  body : command.run.Leads talk (.done (.ok a))
  served : ∃ now calls, trace.filterMap Event.own? = ⟨.clock, now⟩ :: calls ∧
    Context.ServesAll { now := now } talk calls ctx
  runs : Routine.Runs s (run limit command) trace s' (commit ctx a)

/-- A transaction has run its body and committed what it staged, in a store that kept each row which
the body first read and then updated or deleted. -/
def CommitsOnFirstReadings (limit : Duration) (command : Command ε α) (s : Store)
    (trace : List (Event ε)) (a : α) : Prop :=
  ∃ before after s₁ talk ctx, trace = before ++ after ∧
    Prepares limit command s before talk a s₁ ctx ∧
    (ctx.writes = [] ∨ ∃ rows s₂ rest,
      after = .own ⟨.store (.apply ctx.writes), .ok rows⟩ :: rest ∧
        s₁.apply ctx.writes = .ok (rows, s₂)) ∧
    ∀ early change late id row, talk = early ++ ⟨.stage change, ()⟩ :: late →
      change.guarded? = some id → early.findSome? (Exchange.found? id) = some row →
      s₁.Keeps before id row

/-- A transaction has done nothing that anybody could notice: what became of the store is what the
others made of it, and the operators were told nothing. -/
def LeavesNoTrace (s : Store) (trace : List (Event ε)) (s' : Store) : Prop :=
  s.Commits (trace.filterMap Event.others?) s' ∧ ∀ incident, .own (Incident.told incident) ∉ trace

theorem leads_run {limit : Duration} {command : Command ε α} {calls : List (Exchange (Call ε))}
    {result : Except TransactionError α} (h : (run limit command).Leads calls (.done result)) :
    ∃ now more, calls = ⟨.clock, now⟩ :: more ∧
      (runFrom limit command.run { now := now }).Leads more (.done result) := by
  cases h with
  | @ask _ _ now _ more _ rest => exact ⟨now, more, rfl, rest⟩

/-- Cut where the requests of its body have been served, a run of a transaction is about to
commit. -/
theorem prepares_of_split {limit : Duration} {command : Command ε α} {s s' : Store}
    {before after : List (Event ε)} {r' : Routine ε (Except TransactionError α)} {now : Instant}
    {talk : List (Exchange (Request ε))} {served : List (Exchange (Call ε))} {ctx : Context} {a : α}
    (hrun : Routine.Runs s (run limit command) (before ++ after) s' r')
    (hown : before.filterMap Event.own? = ⟨.clock, now⟩ :: served)
    (hbody : command.run.Leads talk (.done (.ok a)))
    (hserved : Context.ServesAll { now := now } talk served ctx)
    (hleads : (runFrom limit command.run { now := now }).Leads served (commit ctx a)) :
    ∃ s₁, Prepares limit command s before talk a s₁ ctx ∧
      Routine.Runs s₁ (commit ctx a) after s' r' := by
  obtain ⟨s₁, r₁, hfirst, hrest⟩ := hrun.split
  have hcommit : (run limit command).Leads (before.filterMap Event.own?) (commit ctx a) := by
    rw [hown]
    exact .ask hleads
  obtain rfl := hfirst.leads.unique hcommit
  exact ⟨s₁, ⟨hbody, ⟨now, served, hown, hserved⟩, hfirst⟩, hrest⟩

/-- The store that takes the writes of a transaction keeps the rows that its body first read and
then updated or deleted. -/
theorem Prepares.keeps {limit : Duration} {command : Command ε α} {s s₁ s₂ : Store}
    {trace : List (Event ε)} {early late : List (Exchange (Request ε))} {change : Staged} {a : α}
    {ctx : Context} {rows : List Job} {id : JobId} {row : Job}
    (h : Prepares limit command s trace (early ++ ⟨.stage change, ()⟩ :: late) a s₁ ctx)
    (haccepted : s₁.apply ctx.writes = .ok (rows, s₂))
    (honce : s.InsertsOnce (trace.filterMap Event.batch? ++ [ctx.writes]))
    (hguarded : change.guarded? = some id)
    (hfound : early.findSome? (Exchange.found? id) = some row) : s₁.Keeps trace id row := by
  obtain ⟨now, calls, hown, hserved⟩ := h.served
  refine h.runs.keeps haccepted honce ?_ (hserved.relies hguarded hfound)
  rw [Event.findSome?_read?, hown, List.findSome?_cons]
  have hread := hserved.read? id
  rw [List.findSome?_append, hfound, Option.some_or] at hread
  exact hread

theorem commits_of_runs_ok {limit : Duration} {command : Command ε α} {s s' : Store}
    {trace : List (Event ε)} {a : α}
    (hrun : Routine.Runs s (run limit command) trace s' (.done (.ok a)))
    (honce : s.InsertsOnce (trace.filterMap Event.batch?)) :
    CommitsOnFirstReadings limit command s trace a := by
  obtain ⟨now, calls, hown, hleads⟩ := leads_run hrun.leads
  have htruth : ∀ call ∈ calls, call.IsTruthful := by
    intro call hmem
    refine hrun.truthful call ?_
    rw [hown]
    exact List.mem_cons_of_mem _ hmem
  obtain ⟨talk, served, closing, ctx, rfl, hbody, hserved, -, hserve, hclose⟩ :=
    leads_runFrom_ok hleads htruth
  rw [← List.cons_append] at hown
  rcases (leads_commit_ok hclose).2 with ⟨hempty, -⟩ | ⟨rows, rfl⟩
  · obtain ⟨before, after, rfl, hbefore, -⟩ := List.filterMap_eq_append_iff.1 hown
    obtain ⟨s₁, hprepares, -⟩ := prepares_of_split hrun hbefore hbody hserved hserve
    refine ⟨before, after, s₁, talk, ctx, rfl, hprepares, .inl hempty, ?_⟩
    rintro early change late id row rfl hguarded hfound
    obtain ⟨w, hw, -⟩ := hserved.relies hguarded hfound
    rw [hempty] at hw
    cases hw
  · obtain ⟨before, after, rfl, hbefore, -⟩ := Event.split_own hown
    obtain ⟨s₁, hprepares, hrest⟩ := prepares_of_split hrun hbefore hbody hserved hserve
    have haccepted : ∃ s₂, s₁.apply ctx.writes = .ok (rows, s₂) := by
      generalize commit ctx a = r at hrest
      cases hrest with
      | own answered rest => exact ⟨_, answered.apply⟩
    obtain ⟨s₂, haccepted⟩ := haccepted
    refine ⟨before, _, s₁, talk, ctx, rfl, hprepares,
      .inr ⟨rows, s₂, after, rfl, haccepted⟩, ?_⟩
    rintro early change late id row rfl hguarded hfound
    refine hprepares.keeps haccepted ?_ hguarded hfound
    rw [List.filterMap_append, List.filterMap_cons] at honce
    exact (List.append_cons _ _ _ ▸ honce).of_append

theorem leavesNoTrace_of_runs_error {limit : Duration} {command : Command ε α} {s s' : Store}
    {trace : List (Event ε)} {e : TransactionError}
    (hrun : Routine.Runs s (run limit command) trace s' (.done (.error e))) :
    LeavesNoTrace s trace s' := by
  obtain ⟨now, calls, hown, hleads⟩ := leads_run hrun.leads
  have htruth := hrun.truthful
  rw [hown, List.forall_mem_cons] at htruth
  have hquiet : ∀ exchange ∈ trace.filterMap Event.own?, exchange.isNoticed = false := by
    rw [hown]
    exact List.forall_mem_cons.2 ⟨rfl, leads_runFrom_error hleads htruth.2⟩
  constructor
  · have hcommits := hrun.commits
    rw [List.filterMap_congr (g := Event.others?)] at hcommits
    · exact hcommits
    · intro event hmem
      cases event with
      | own exchange =>
        exact exchange.batch?_of_not_noticed (hquiet _ (List.mem_filterMap.2 ⟨_, hmem, rfl⟩))
      | _ => rfl
  · intro incident hmem
    cases hquiet _ (List.mem_filterMap.2 ⟨_, hmem, rfl⟩)

/-- A transaction that goes well commits on the rows that its body first read, whatever others
commit in the meantime, and a transaction that fails leaves no trace. -/
theorem commits_on_first_readings {limit : Duration} {command : Command ε α} {s s' : Store}
    {trace : List (Event ε)} {result : Except TransactionError α}
    (hrun : Routine.Runs s (run limit command) trace s' (.done result))
    (honce : s.InsertsOnce (trace.filterMap Event.batch?)) :
    match result with
    | .ok a => CommitsOnFirstReadings limit command s trace a
    | .error _ => LeavesNoTrace s trace s' := by
  cases result with
  | ok a => exact commits_of_runs_ok hrun honce
  | error e => exact leavesNoTrace_of_runs_error hrun

/-! ## A run -/

/-- Gives the job of a name a priority, if there is one. -/
def prioritize (id : JobId) (priority : Int) : Command ε Unit := do
  match ← Command.find id with
  | none => return ()
  | some job => Command.stage (.update { job with priority := priority })

/-- Another writer resolves incidents between the reading of a job and the commit of its priority.
-/
def prioritizing : List (Event fun _ => Empty) :=
  [.own ⟨.clock, .epoch⟩,
    .own ⟨.store (.get (Job.report 1).id), .ok (some (.report 1))⟩,
    .other [.resolve (Job.report 1).id .epoch],
    .own ⟨.store (.apply [.update { Job.report 1 with priority := 9 } (.exactly 1)]),
      .ok [{ Job.report 2 with priority := 9 }]⟩]

theorem prioritize_commits_on_first_reading :
    Routine.Runs (.ofRow (.report 1)) (run (.ofMillis 1) (prioritize (Job.report 1).id 9))
        prioritizing (.ofRow { Job.report 2 with priority := 9 }) (.done (.ok ())) ∧
      (Store.ofRow (.report 1)).InsertsOnce (prioritizing.filterMap Event.batch?) ∧
      CommitsOnFirstReadings (.ofMillis 1) (prioritize (Job.report 1).id 9) (.ofRow (.report 1))
        prioritizing () := by
  have hother : (Store.ofRow (.report 1)).apply [.resolve (Job.report 1).id .epoch] =
      .ok ([], .ofRow (.report 1)) := rfl
  have hown : (Store.ofRow (.report 1)).apply
      [.update { Job.report 1 with priority := 9 } (.exactly 1)] =
        .ok ([{ Job.report 2 with priority := 9 }], .ofRow { Job.report 2 with priority := 9 }) :=
    rfl
  have hrun : Routine.Runs (.ofRow (.report 1))
      (run (.ofMillis 1) (prioritize (Job.report 1).id 9)) prioritizing
      (.ofRow { Job.report 2 with priority := 9 }) (.done (.ok ())) := by
    refine .own rfl ?_
    change Routine.Runs _ (runFrom _ (.ask (.find (Job.report 1).id) _) _) _ _ _
    rw [runFrom]
    refine .own rfl (.other hother ?_)
    change Routine.Runs _
      (runFrom _ (.ask (.stage (.update { Job.report 1 with priority := 9 })) _) _) _ _ _
    rw [runFrom]
    change Routine.Runs _ (runFrom _ (.done (.ok ())) _) _ _ _
    rw [runFrom, if_neg (by decide)]
    exact .own (Call.answered_apply hown) (.stop _ _)
  have honce : (Store.ofRow (.report 1)).InsertsOnce (prioritizing.filterMap Event.batch?) :=
    List.pairwise_singleton _ _
  exact ⟨hrun, honce, commits_on_first_readings hrun honce⟩

end Transaction

end DeferredWork

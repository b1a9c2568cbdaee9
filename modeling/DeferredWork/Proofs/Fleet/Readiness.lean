import DeferredWork.Proofs.Fleet.Alterations
import DeferredWork.Proofs.Fleet.Leases

set_option autoImplicit false

/-!
# What locked jobs are like

A stored job that some task has locked was due when it was polled, and has retries left unless an
operator has set them, as long as it has an owner (`Fleet.Reachable.ready`).  A worker's job was locked
and read again before the worker said anything (`Fleet.Reachable.locked_of_run`); so it was due by
each time that the worker reads, if clocks agree and never go back (`Fleet.Reachable.due_of_run`).  What
a job is has not changed since it was stored first (`Fleet.Reachable.born`).
-/

namespace DeferredWork

namespace Job

/-- What is said of a job once and for all: nothing that is done to it changes this, and its next run
takes it over. -/
structure Definition where
  kind : String
  payload : Option String
  scope : Option ScopeId
  exclusive : Bool
  priority : Int
  interval : Option Duration
  retriesPerRun : Nat
  deriving DecidableEq

/-- The definition of a job. -/
def definition (job : Job) : Definition where
  kind := job.kind
  payload := job.payload
  scope := job.scope
  exclusive := job.exclusive
  priority := job.priority
  interval := job.interval
  retriesPerRun := job.retriesPerRun

theorem definition_nextRun (job : Job) (id : JobId) (due now : Instant) :
    (job.nextRun id due now).definition = job.definition := rfl

/-- A job that can be acquired is due and has retries left. -/
theorem ready_of_isAcquirable {job : Job} {now : Instant} (h : job.isAcquirable now = true) :
    job.isDue now = true ∧ 0 < job.retries := by
  simp only [isAcquirable, Bool.and_eq_true, decide_eq_true_eq] at h
  exact ⟨h.1.1.1, h.1.2⟩

theorem isDue_mono {job : Job} {time now : Instant} (h : job.isDue time = true) (hle : time ≤ now) :
    job.isDue now = true := by
  unfold isDue at h ⊢
  split
  · rfl
  · rename_i due hdue
    rw [hdue] at h
    exact decide_eq_true (Int.le_trans (of_decide_eq_true h) hle)

end Job

variable {ι : Type} {ε : Type → Type} {β : Type} {engine : ι → Engine ε}

/-- The task may give retries back to a job. -/
def Task.setsRetries : Task ι ε → Bool
  | .setRetries _ _ _ => true
  | _ => false

namespace Fleet

variable [DecidableEq ι] {s : Store} {f : Fleet engine} {place : Place ι} {thread : Thread engine}
  {id : JobId}

/-- Whatever is done to a job leaves its definition as it is. -/
theorem Alters.definition_eq {ws : List Write} {row row' : Job}
    (h : f.Alters place thread id ws (some row) (some row')) : row'.definition = row.definition := by
  cases h <;> rfl

/-- A job that is stored under a new name is a newcomer. -/
theorem Alters.newcomer {ws : List Write} {row : Job}
    (h : f.Alters place thread id ws none (some row)) :
    ∃ job ∈ ws.filterMap Write.newcomer?, job.id = id ∧ row = { job with revision := 1 } := by
  cases h with
  | begins task named unfailed stored clock recurs succeeds handed =>
    subst handed
    exact ⟨_, List.mem_singleton_self _, named, rfl⟩
  | stores task named stores =>
    cases stores with
    | active active => exact ⟨_, List.mem_singleton_self _, named, rfl⟩
    | parked parked incident now => exact ⟨_, List.mem_singleton_self _, named, rfl⟩

/-! ## What is on the log -/

theorem Accepts.lockTimes_eq {f' : Fleet engine} {exchange : Exchange (Call ε)} {ws : List Write}
    (h : f.Accepts f' place thread exchange ws) (id : JobId) :
    f'.lockTimes id = f.lockTimes id ++ ws.filterMap (Write.locksAt? id) := by
  rw [lockTimes, h.log_eq, List.flatten_append, List.flatten_singleton, List.filterMap_append, lockTimes]

theorem Accepts.births_eq {f' : Fleet engine} {exchange : Exchange (Call ε)} {ws : List Write}
    (h : f.Accepts f' place thread exchange ws) :
    s.births f'.log.flatten = s.births f.log.flatten ++ ws.filterMap Write.newcomer? := by
  rw [h.log_eq, List.flatten_append, List.flatten_singleton, Store.births_append]

/-- A job that was locked is one that the store knows. -/
theorem Reachable.named_of_lockTimes (h : Reachable s f) (hlocked : f.lockTimes id ≠ []) :
    id ∈ s.jobs.rows.map Job.id ++ f.log.flatten.flatMap Write.inserted := by
  obtain ⟨rows, hws⟩ := h.commits.writeAll
  obtain ⟨time, htime⟩ := List.exists_mem_of_ne_nil _ hlocked
  obtain ⟨w, hw, hlock⟩ := List.mem_filterMap.1 htime
  obtain ⟨before, after, hsplit⟩ := List.append_of_mem hw
  obtain ⟨revision, owner, expiry, rfl⟩ := Write.locksAt?_eq_some_iff.1 hlock
  rw [hsplit] at hws ⊢
  obtain ⟨t, first, rest, hbefore, hrest, -⟩ := JobTable.writeAll_append_eq_ok_iff.1 hws
  obtain ⟨t₁, left, rest', hone, -⟩ := JobTable.writeAll_cons_eq_ok_iff.1 hrest
  obtain ⟨row, hrow, -⟩ := JobTable.find?_of_reliesOn hone .lock
  have hnamed := Store.named_of_writeAll hbefore hrow
  rw [List.flatMap_append, ← List.append_assoc]
  exact List.mem_append_left _ hnamed

/-! ## Locked jobs are ready -/

/-- A stored row of a name that has an owner, and of which some task took a lock: it is due, and has
retries left unless those were set. -/
structure IsReady (f : Fleet engine) (row : Job) : Prop where
  due : ∃ time ∈ f.readings, row.isDue time = true
  retries : (∀ turn ∈ f.history, turn.task.setsRetries = false) → 0 < row.retries

variable {f' : Fleet engine}

/-- How a row with an owner came about: it was locked when it was due and had retries left, it was
stored under a new name, or it had an owner before. -/
theorem Alters.of_owned {ws : List Write} {before : Option Job} {row : Job}
    (h : f.Alters place thread id ws before (some row)) (howned : row.owner ≠ none) :
    ((∃ time ∈ f.readings, row.isDue time = true) ∧ 0 < row.retries) ∨
    ((∀ w ∈ ws, w.locksAt? id = none) ∧
      ((∃ w ∈ ws, id ∈ w.inserted) ∨
        ∃ row₀, before = some row₀ ∧ row₀.owner ≠ none ∧ row.due = row₀.due ∧
          (thread.task.setsRetries = false → row.retries = row₀.retries))) := by
  cases h with
  | leaves untouched other =>
    refine .inr ⟨fun w hw => ?_, .inr ⟨row, rfl, howned, rfl, fun _ => rfl⟩⟩
    exact Write.locksAt?_eq_none_of_touches (untouched w hw).1
  | locks task acquirable shown later handed =>
    obtain ⟨hdue, hretries⟩ := Job.ready_of_isAcquirable acquirable
    exact .inl ⟨⟨_, shown, hdue⟩, hretries⟩
  | gives | releases | retries | parks => exact (howned rfl).elim
  | begins task named unfailed stored clock recurs succeeds handed =>
    subst handed named
    refine .inr ⟨List.forall_mem_cons.2 ⟨rfl, List.forall_mem_singleton.2 rfl⟩, .inl ?_⟩
    exact ⟨_, List.mem_cons_of_mem _ List.mem_cons_self, List.mem_singleton_self _⟩
  | stores task named stores =>
    subst named
    cases stores with
    | active active =>
      exact .inr ⟨List.forall_mem_singleton.2 rfl, .inl ⟨_, List.mem_cons_self, List.mem_singleton_self _⟩⟩
    | parked parked incident now =>
      refine .inr ⟨List.forall_mem_cons.2 ⟨rfl, List.forall_mem_singleton.2 rfl⟩, .inl ?_⟩
      exact ⟨_, List.mem_cons_of_mem _ List.mem_cons_self, List.mem_singleton_self _⟩
  | resets task resets =>
    have hno : ∀ w ∈ ws, w.locksAt? id = none := by
      cases resets with
      | renewed parked renews now => exact List.forall_mem_cons.2 ⟨rfl, List.forall_mem_singleton.2 rfl⟩
      | parked active used incident now =>
        exact List.forall_mem_cons.2 ⟨rfl, List.forall_mem_singleton.2 rfl⟩
      | same like => exact List.forall_mem_singleton.2 rfl
    refine .inr ⟨hno, .inr ⟨_, rfl, howned, rfl, fun hset => ?_⟩⟩
    rw [task] at hset
    cases hset
  | suspends task handed | activates task handed =>
    subst handed
    exact .inr ⟨List.forall_mem_singleton.2 rfl, .inr ⟨_, rfl, howned, rfl, fun _ => rfl⟩⟩

/-- The job of a worker was read again when its lock had been taken, before the worker said anything. -/
theorem Reachable.locked_of_run (h : Reachable s f) (here : f.threads place = some thread) {seat : ι}
    {d : Dispatched} (htask : thread.task = .run seat d) :
    ∃ (g : Fleet engine) (since : List (Turn ι ε)), Reachable s g ∧ f.history = g.history ++ since ∧
      thread.talk.Sublist (since.map Turn.exchange) ∧ g.store.jobs.find? d.job.id = some d.job ∧
      d.job.isLockedBy (engine seat).owner = true ∧ g.lockTimes d.job.id ≠ [] := by
  obtain ⟨g₁, cycle, batch, since, hg₁, hhistory, hsub, hthere, -, hdispatches⟩ :=
    h.dispatched here htask
  have htalk := hg₁.talk_sublist hthere
  generalize cycle.talk = talk at hdispatches htalk
  cases hdispatches with
  | @reread earlier row expiry _ holds named owned carried =>
    obtain ⟨early, late, hsplit, hearly, hlate⟩ := List.append_sublist_iff.1 htalk
    obtain ⟨mid, rest, rfl⟩ := List.append_of_mem (List.singleton_sublist.1 hlate)
    rw [← List.append_assoc] at hsplit
    obtain ⟨before, turns, hcut, hbefore, hturns⟩ := List.map_eq_append_iff.1 hsplit
    obtain ⟨turn, after, rfl, hturn, -⟩ := List.map_eq_cons_iff.1 hturns
    obtain ⟨g, s', hg, rfl, htakes⟩ := hg₁.cut hcut
    refine ⟨g, turn :: after ++ since, hg, ?_, ?_, ?_, owned, ?_⟩
    · rw [hhistory, hcut, List.append_assoc]
    · rw [List.map_append]
      exact hsub.trans (List.sublist_append_right _ _)
    · cases htakes with
      | mk there asks replies =>
        cases hturn
        exact JobTable.find?_eq_some_of_mem
          (replies.answered.mem_rows (List.mem_singleton_self _)).1
    · obtain ⟨exchange, hmem, ws, hbatch, hgrant⟩ := Grip.exists_taken holds.lock
      obtain ⟨time, htime⟩ := Grant.exists_locksAt? hgrant
      obtain ⟨w, hw, hlock⟩ := List.exists_of_findSome?_eq_some htime
      have hsaid : exchange ∈ g.history.map Turn.exchange :=
        hbefore ▸ List.mem_append_left mid (hearly.mem hmem)
      obtain ⟨turn', hturn', rfl⟩ := List.mem_map.1 hsaid
      rw [named]
      refine List.ne_nil_of_mem (List.mem_filterMap.2 ⟨w, List.mem_flatten.2 ⟨ws, ?_, hw⟩, hlock⟩)
      exact List.mem_filterMap.2 ⟨turn', hturn', hbatch⟩

variable (hquiet : ∀ seat kind handler,
  (engine seat).handlers.resolve kind = some handler → handler.StagesNothing)

include hquiet

/-- A stored job that some task has locked is ready as long as it has an owner. -/
theorem Reachable.ready (h : Reachable s f) (honce : s.InsertsOnce f.log)
    (hnamed : ∀ turn ∈ f.history, turn.task.isNamed = true) {row : Job}
    (hrow : f.store.jobs.find? id = some row) (howned : row.owner ≠ none)
    (hlocked : f.lockTimes id ≠ []) : f.IsReady row := by
  revert row
  refine h.induction_on_batches hquiet (P := fun f => f.lockTimes id ≠ [] → ∀ {row : Job},
    f.store.jobs.find? id = some row → row.owner ≠ none → f.IsReady row)
    ?_ ?_ ?_ honce hnamed hlocked
  · exact fun hlocked => absurd rfl hlocked
  · intro f f' _ hrests ih hlocked row hrow howned
    obtain ⟨turn?, hhistory, -⟩ := hrests.quiet
    rw [hrests.jobs] at hrow
    rw [lockTimes, hrests.log_eq] at hlocked
    obtain ⟨⟨time, htime, hdue⟩, hretries⟩ := ih hlocked hrow howned
    have hearlier : f.history <+: f'.history := hhistory ▸ List.prefix_append _ _
    exact ⟨⟨time, (hearlier.filterMap _).mem htime, hdue⟩,
      fun hset => hretries fun turn hmem => hset turn (hearlier.mem hmem)⟩
  · intro f f' place thread exchange ws h honce hnamed hacc ih hlocked row hrow howned
    have hearlier : f.history <+: f'.history := hacc.history ▸ List.prefix_append _ _
    have halters := hacc.alters id
    rw [hrow] at halters
    rcases halters.of_owned howned with ⟨⟨time, htime, hdue⟩, hretries⟩ | ⟨hno, hcame⟩
    · exact ⟨⟨time, (hearlier.filterMap _).mem htime, hdue⟩, fun _ => hretries⟩
    · have hold : f.lockTimes id ≠ [] := by
        rw [hacc.lockTimes_eq, List.filterMap_eq_nil_iff.2 hno, List.append_nil] at hlocked
        exact hlocked
      rcases hcame with ⟨w, hw, hins⟩ | ⟨row₀, hbefore, howned₀, hdueSame, hretriesSame⟩
      · -- A name that was locked is not inserted any more.
        have hnot := honce.not_inserted (h.named_of_lockTimes hold)
        rw [List.flatten_singleton] at hnot
        exact absurd hins (hnot w hw)
      · obtain ⟨⟨time, htime, hdue⟩, hretries⟩ := ih hold hbefore howned₀
        refine ⟨⟨time, (hearlier.filterMap _).mem htime, ?_⟩, fun hset => ?_⟩
        · rwa [Job.isDue, hdueSame]
        · rw [hretriesSame (hset _ (hacc.history ▸ List.mem_append_right _ (List.mem_singleton_self _)))]
          exact hretries fun turn hmem => hset turn (hearlier.mem hmem)

/-- The job of a worker was due by each time that the worker has read, if clocks agree and never go
back. -/
theorem Reachable.due_of_run (h : Reachable s f) (honce : s.InsertsOnce f.log)
    (hnamed : ∀ turn ∈ f.history, turn.task.isNamed = true) (hclock : f.readings.Pairwise (· ≤ ·))
    (here : f.threads place = some thread) {seat : ι} {d : Dispatched}
    (htask : thread.task = .run seat d) {now : Instant}
    (hnow : (⟨.clock, now⟩ : Exchange (Call ε)) ∈ thread.talk) : d.job.isDue now = true := by
  obtain ⟨g, since, hg, hhistory, hsub, hstored, howned, hlocked⟩ := h.locked_of_run here htask
  have hlog : f.log = g.log ++ since.filterMap Turn.batch? := by
    rw [log, hhistory, List.filterMap_append, log]
  have hreadings : f.readings = g.readings ++ since.filterMap Turn.reading? := by
    rw [readings, hhistory, List.filterMap_append, readings]
  have howner : d.job.owner ≠ none := by
    rw [eq_of_beq howned]
    exact Option.some_ne_none _
  rw [hlog] at honce
  obtain ⟨⟨time, htime, hdue⟩, -⟩ := hg.ready hquiet honce.of_append
    (fun turn hmem => hnamed turn (hhistory ▸ List.mem_append_left _ hmem)) hstored howner hlocked
  refine Job.isDue_mono hdue ?_
  rw [hreadings] at hclock
  obtain ⟨turn, hturn, hexchange⟩ := List.mem_map.1 (hsub.mem hnow)
  refine (List.pairwise_append.1 hclock).2.2 time htime now (List.mem_filterMap.2 ⟨turn, hturn, ?_⟩)
  rw [Turn.reading?, hexchange]

/-- As long as no operator sets retries, a job of a worker that has an owner has retries left. -/
theorem Reachable.retries_of_run (h : Reachable s f) (honce : s.InsertsOnce f.log)
    (hnamed : ∀ turn ∈ f.history, turn.task.isNamed = true)
    (hset : ∀ turn ∈ f.history, turn.task.setsRetries = false)
    (here : f.threads place = some thread) {seat : ι} {d : Dispatched}
    (htask : thread.task = .run seat d) {row : Job}
    (hrow : f.store.jobs.find? d.job.id = some row) (howned : row.owner ≠ none) : 0 < row.retries := by
  obtain ⟨g, since, hg, hhistory, -, -, -, hlocked⟩ := h.locked_of_run here htask
  have hlater : f.lockTimes d.job.id ≠ [] := by
    rw [lockTimes, log, hhistory, List.filterMap_append, List.flatten_append, List.filterMap_append]
    exact List.append_ne_nil_of_left_ne_nil hlocked _
  exact (h.ready hquiet honce hnamed hrow howned hlater).retries hset

/-! ## What jobs are -/

omit [DecidableEq ι] hquiet in
theorem births_subset {g : Fleet engine} (s : Store) (hearlier : g.history <+: f.history) :
    s.births g.log.flatten ⊆ s.births f.log.flatten := by
  obtain ⟨more, hmore⟩ := hearlier
  rw [log, log, ← hmore, List.filterMap_append, List.flatten_append, Store.births_append]
  exact List.subset_append_left _ _

/-- Each stored job has the definition with which it was stored first. -/
theorem Reachable.born (h : Reachable s f) (honce : s.InsertsOnce f.log)
    (hnamed : ∀ turn ∈ f.history, turn.task.isNamed = true) {row : Job}
    (hrow : f.store.jobs.find? id = some row) :
    ∃ birth ∈ s.births f.log.flatten, birth.id = id ∧ birth.definition = row.definition := by
  revert row
  refine h.induction_on_batches hquiet (P := fun f => ∀ {row : Job},
    f.store.jobs.find? id = some row →
      ∃ birth ∈ s.births f.log.flatten, birth.id = id ∧ birth.definition = row.definition)
    ?_ ?_ ?_ honce hnamed
  · intro row hrow
    obtain ⟨hmem, hname⟩ := JobTable.find?_eq_some_iff.1 hrow
    exact ⟨row, List.mem_append_left _ hmem, hname, rfl⟩
  · intro f f' _ hrests ih row hrow
    rw [hrests.log_eq]
    exact ih (hrests.jobs ▸ hrow)
  · intro f f' place thread exchange ws _ _ _ hacc ih row hrow
    have halters := hacc.alters id
    rw [hacc.births_eq]
    rw [hrow] at halters
    cases hbefore : f.store.jobs.find? id with
    | some before =>
      rw [hbefore] at halters
      obtain ⟨birth, hbirth, hname, hdefinition⟩ := ih hbefore
      exact ⟨birth, List.mem_append_left _ hbirth, hname,
        hdefinition.trans halters.definition_eq.symm⟩
    | none =>
      rw [hbefore] at halters
      obtain ⟨job, hjob, hname, rfl⟩ := halters.newcomer
      exact ⟨job, List.mem_append_right _ hjob, hname, rfl⟩

/-- The job of a worker has the definition with which it was stored first. -/
theorem Reachable.born_of_run (h : Reachable s f) (honce : s.InsertsOnce f.log)
    (hnamed : ∀ turn ∈ f.history, turn.task.isNamed = true) (here : f.threads place = some thread)
    {seat : ι} {d : Dispatched} (htask : thread.task = .run seat d) :
    ∃ birth ∈ s.births f.log.flatten, birth.id = d.job.id ∧ birth.definition = d.job.definition := by
  obtain ⟨g, since, hg, hhistory, -, hstored, -⟩ := h.locked_of_run here htask
  have hearlier : g.history <+: f.history := hhistory ▸ List.prefix_append _ _
  have hlog : f.log = g.log ++ since.filterMap Turn.batch? := by
    rw [log, hhistory, List.filterMap_append, log]
  rw [hlog] at honce
  obtain ⟨birth, hbirth, hsame⟩ := hg.born hquiet honce.of_append
    (fun turn hmem => hnamed turn (hearlier.mem hmem)) hstored
  exact ⟨birth, births_subset s hearlier hbirth, hsame⟩

end Fleet

end DeferredWork

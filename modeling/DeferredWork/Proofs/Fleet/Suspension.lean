import DeferredWork.Proofs.Fleet.Deeds
import DeferredWork.Proofs.Fleet.Leases

set_option autoImplicit false

/-!
# Suspended jobs

From when a suspension is accepted until the job is activated, no poll returns the job and no cycle
locks it; and a worker executes it only if its cycle had locked the job before and read it again after
the suspension (`Fleet.Reachable.suspended_job_ends_only_if_caught`).  A cycle that is caught there
dispatches the suspended job (`Fleet.caught_job_ends_while_suspended`), since it looks at the owner of
the row that it reads again, and at nothing else.
-/

namespace DeferredWork

/-! ## Writes that keep suspensions -/

/-- If it is an update, the change was made from a row that was seen, and is suspended if that is. -/
def Staged.KeepsSuspension (seen : List Job) : Staged → Prop
  | .update job => ∃ row, (seen.find? fun row => row.id == job.id) = some row ∧
      (row.suspended = true → job.suspended = true)
  | _ => True

/-- If it is an update, the write was made from a known row, and its row is suspended if that is. -/
def Write.KeepsSuspension (known : List Job) : Write → Prop
  | .update job expected => ∃ row ∈ known, row.id = job.id ∧ expected = .exactly row.revision ∧
      (row.suspended = true → job.suspended = true)
  | _ => True

theorem carries_keepsSuspension :
    Transaction.Carries Staged.KeepsSuspension Write.KeepsSuspension where
  mono := by
    intro known more w hsub h
    cases w with
    | update job expected =>
      obtain ⟨row, hmem, hrow⟩ := h
      exact ⟨row, hsub hmem, hrow⟩
    | _ => trivial
  write := by
    intro ctx seen change hnotes hchange
    cases change with
    | update job =>
      obtain ⟨row, hfirst, hkeeps⟩ := hchange
      have hname : row.id = job.id := by simpa using List.find?_some hfirst
      refine ⟨row, List.mem_of_find?_eq_some hfirst, hname, ?_, hkeeps⟩
      rw [Context.guard, hnotes job.id, hfirst]
      rfl
    | _ => trivial

namespace JobTable

/-- The row of a name is suspended, if there is one. -/
def IsSuspended (t : JobTable) (id : JobId) : Prop :=
  ∀ row, t.find? id = some row → row.suspended = true

variable {t t' : JobTable} {id : JobId} {known : List Job}

theorem IsSuspended.write {w : Write} {left : Option Job} (h : t.IsSuspended id)
    (hw : t.write w = .ok (t', left)) (hins : id ∉ w.inserted)
    (hreached : ∀ row ∈ known, row.id = id → t.HasReached row)
    (hkeeps : w.touches id = true → w.KeepsSuspension known) : t'.IsSuspended id := by
  intro after hafter
  rw [find?_write hw id] at hafter
  cases w with
  | insert job =>
    have hne : job.id ≠ id := fun heq => hins (heq ▸ List.mem_singleton_self _)
    rw [Write.remake, if_neg hne] at hafter
    exact h after hafter
  | update job expected =>
    by_cases hid : job.id = id
    · subst hid
      obtain ⟨row, hmem, hname, rfl, hsuspended⟩ := hkeeps (beq_self_eq_true _)
      rw [Write.remake, if_pos rfl] at hafter
      obtain ⟨current, hcurrent, rfl⟩ := Option.map_eq_some_iff.1 hafter
      obtain ⟨before, hbefore, hrevision⟩ := find?_of_reliesOn hw (.update rfl)
      -- The update was made from the row that the table holds.
      obtain rfl : before = row :=
        (hreached row hmem hname).eq_of_revision (hname ▸ hbefore) hrevision
      exact hsuspended (h before hbefore)
    · rw [Write.remake, if_neg hid] at hafter
      exact h after hafter
  | lock k revision owner expiry now =>
    rw [Write.remake] at hafter
    split at hafter
    · obtain ⟨current, hcurrent, rfl⟩ := Option.map_eq_some_iff.1 hafter
      exact h current hcurrent
    · exact h after hafter
  | delete k expected =>
    rw [Write.remake] at hafter
    split at hafter
    · cases hafter
    · exact h after hafter
  | raise incident => exact h after hafter
  | resolve k now => exact h after hafter

theorem IsSuspended.writeAll {ws : List Write} {rows : List Job} (h : t.IsSuspended id)
    (hws : t.writeAll ws = .ok (t', rows)) (hins : ∀ w ∈ ws, id ∉ w.inserted)
    (hreached : ∀ row ∈ known, row.id = id → t.HasReached row)
    (hkeeps : ∀ w ∈ ws, w.touches id = true → w.KeepsSuspension known) : t'.IsSuspended id := by
  have hboth : t'.IsSuspended id ∧ ∀ row ∈ known, row.id = id → t'.HasReached row := by
    refine writeAll_preserves
      (P := fun t => t.IsSuspended id ∧ ∀ row ∈ known, row.id = id → t.HasReached row)
      ?_ hws ⟨h, hreached⟩
    rintro w hw t₁ t₂ left hwrite ⟨hsuspended, hreached⟩
    refine ⟨hsuspended.write hwrite (hins w hw) hreached (hkeeps w hw), fun row hrow hname => ?_⟩
    exact (hreached row hrow hname).write hwrite (hname ▸ hins w hw)
  exact hboth.1

end JobTable

theorem Job.Ends.keepsSuspension {row : Job} {now : Instant} {completion : Completion}
    {ws : List Write} {known : List Job} (h : row.Ends now completion ws) :
    ∀ w ∈ ws, w.KeepsSuspension known := by
  cases h with
  | deleted once => exact List.forall_mem_singleton.2 trivial
  | rescheduled recurs id =>
    exact List.forall_mem_cons.2 ⟨trivial, List.forall_mem_singleton.2 trivial⟩

/-! ## A suspended job in a fleet -/

variable {ι : Type} {ε : Type → Type} {β : Type} {engine : ι → Engine ε}

/-- A suspension of the job is accepted, and no activation of it since then. -/
structure Turn.Suspends (id : JobId) (m : Turn ι ε) (since : List (Turn ι ε)) : Prop where
  task : ∃ operator, m.task = .suspend operator id
  accepted : ∃ ws, m.batch? = some ws
  active : ∀ turn ∈ since, ∀ operator, turn.task = .activate operator id → turn.batch? = none

theorem Turn.Suspends.of_append {id : JobId} {m : Turn ι ε} {since later : List (Turn ι ε)}
    (h : m.Suspends id (since ++ later)) : m.Suspends id since :=
  ⟨h.task, h.accepted, (List.forall_mem_append.1 h.active).1⟩

namespace Fleet

variable [DecidableEq ι] {s : Store} {f : Fleet engine} {place : Place ι} {thread : Thread engine} {id : JobId}

/-- Unless it activates the job, what is made of the jobs keeps the job's suspension. -/
theorem Makes.keepsSuspension {ws : List Write}
    (h : f.Makes Write.KeepsSuspension place thread ws)
    (hactive : ∀ operator, thread.task ≠ .activate operator id) :
    ∃ known, (∀ row ∈ known, f.store.jobs.HasReached row) ∧
      ∀ w ∈ ws, w.touches id = true → w.KeepsSuspension known := by
  have hfrom : ∀ {row : Job}, f.store.jobs.find? row.id = some row →
      (∀ w ∈ ws, w.KeepsSuspension [row]) →
      ∃ known, (∀ row ∈ known, f.store.jobs.HasReached row) ∧
        ∀ w ∈ ws, w.touches id = true → w.KeepsSuspension known :=
    fun hstored hws => ⟨_, List.forall_mem_singleton.2 (.inl hstored), fun w hw _ => hws w hw⟩
  have hfree : (∀ w ∈ ws, w.KeepsSuspension []) →
      ∃ known, (∀ row ∈ known, f.store.jobs.HasReached row) ∧
        ∀ w ∈ ws, w.touches id = true → w.KeepsSuspension known :=
    fun hws => ⟨[], List.forall_mem_nil _, fun w hw _ => hws w hw⟩
  have hupdate : ∀ {row job : Job}, job.id = row.id →
      (row.suspended = true → job.suspended = true) →
      (Write.update job (.exactly row.revision)).KeepsSuspension [row] :=
    fun hname hkeeps => ⟨_, List.mem_singleton_self _, hname.symm, rfl, hkeeps⟩
  cases h with
  | locks task stored acquirable shown later => exact hfree (List.forall_mem_singleton.2 trivial)
  | gives task stored owned => exact hfrom stored (List.forall_mem_singleton.2 (hupdate rfl fun h => h))
  | executes task unfailed stored owned clock pinned allowed ends =>
    refine ⟨_, pinned, fun w hw _ => ?_⟩
    rcases List.mem_append.1 hw with hw | hw
    · exact allowed w hw
    · exact ends.keepsSuspension w hw
  | releases task unfailed stored named owned =>
    exact hfrom stored (List.forall_mem_singleton.2 (hupdate rfl fun h => h))
  | charges task failed stored named owned fails =>
    refine hfrom stored ?_
    cases fails with
    | retried decided => exact List.forall_mem_singleton.2 (hupdate rfl fun h => h)
    | parked incident decided =>
      exact List.forall_mem_cons.2 ⟨hupdate rfl fun h => h, List.forall_mem_singleton.2 trivial⟩
  | stores task stores =>
    refine hfree ?_
    cases stores with
    | active active => exact List.forall_mem_singleton.2 trivial
    | parked parked incident now =>
      exact List.forall_mem_cons.2 ⟨trivial, List.forall_mem_singleton.2 trivial⟩
  | deletes task => exact hfree (List.forall_mem_singleton.2 trivial)
  | resets task stored resets =>
    refine hfrom stored ?_
    cases resets with
    | renewed parked renews now =>
      exact List.forall_mem_cons.2 ⟨trivial, List.forall_mem_singleton.2 (hupdate rfl fun h => h)⟩
    | parked active used incident now =>
      exact List.forall_mem_cons.2 ⟨trivial, List.forall_mem_singleton.2 (hupdate rfl fun h => h)⟩
    | same like => exact List.forall_mem_singleton.2 (hupdate rfl fun h => h)
  | suspends task stored => exact hfrom stored (List.forall_mem_singleton.2 (hupdate rfl fun _ => rfl))
  | @activates operator row task stored =>
    refine ⟨[], List.forall_mem_nil _, List.forall_mem_singleton.2 fun htouches => ?_⟩
    obtain rfl : row.id = id := beq_iff_eq.1 htouches
    exact absurd task (hactive operator)

/-- What a suspension makes of the jobs. -/
theorem Makes.of_suspend {P : List Job → Write → Prop} {ws : List Write}
    (h : f.Makes P place thread ws) {operator : Operator}
    (htask : thread.task = .suspend operator id) :
    ∃ row, f.store.jobs.find? row.id = some row ∧ row.id = id ∧
      ws = [.update { row with suspended := true } (.exactly row.revision)] := by
  cases h with
  | suspends task stored =>
    cases htask.symm.trans task
    exact ⟨_, stored, rfl, rfl⟩
  | locks task | gives task | executes task | releases task | charges task | stores task
  | deletes task | resets task | activates task => cases htask.symm.trans task

/-- What is made of the jobs while the row of a name is suspended: no cycle locks the job. -/
theorem Makes.not_locks {P : List Job → Write → Prop} {ws : List Write}
    (h : f.Makes P place thread ws) (hsuspended : f.store.jobs.IsSuspended id) {seat : ι}
    {batch : Nat} (htask : thread.task = .acquire seat batch) : ∀ w ∈ ws, w.locksAt? id = none := by
  cases h with
  | @locks _ _ row time now expiry task stored acquirable =>
    refine List.forall_mem_singleton.2 (if_neg ?_)
    rintro rfl
    have hactive := Job.suspended_of_isAcquirable acquirable
    rw [hsuspended row stored] at hactive
    cases hactive
  | gives task => exact List.forall_mem_singleton.2 rfl
  | executes task | releases task | charges task | stores task | deletes task | resets task
  | suspends task | activates task => cases htask.symm.trans task

/-- What is made of the jobs while the row of a name is suspended: a worker that ends the job was given
the suspended row. -/
theorem Makes.suspended_of_deletes {P : List Job → Write → Prop} {ws : List Write}
    (h : f.Makes P place thread ws) (hsuspended : f.store.jobs.IsSuspended id) {seat : ι}
    {d : Dispatched} (htask : thread.task = .run seat d) (hname : d.job.id = id)
    (hdeletes : ∃ w ∈ ws, w.deletes id = true) :
    f.store.jobs.find? id = some d.job ∧ d.job.suspended = true := by
  obtain ⟨w, hw, hdeletes⟩ := hdeletes
  subst hname
  cases h with
  | executes task unfailed stored =>
    cases htask.symm.trans task
    exact ⟨stored, hsuspended d.job stored⟩
  | releases task =>
    cases List.mem_singleton.1 hw
    cases hdeletes
  | charges task failed stored named owned fails =>
    cases fails with
    | retried decided =>
      cases List.mem_singleton.1 hw
      cases hdeletes
    | parked incident decided =>
      simp only [List.mem_cons, List.not_mem_nil, or_false] at hw
      rcases hw with rfl | rfl <;> cases hdeletes
  | locks task | gives task | stores task | deletes task | resets task | suspends task
  | activates task => cases htask.symm.trans task

variable (hhandlers : ∀ seat, (engine seat).HandlersObey Staged.KeepsSuspension)

include hhandlers

/-- A call that does not activate the job keeps its suspension. -/
theorem Reachable.isSuspended_of_replies (h : Reachable s f) {call : Call ε β}
    {next : β → Routine ε thread.task.Result} {answer : β} {s' : Store}
    (here : f.threads place = some thread) (asks : thread.rest = .ask call next)
    (replies : f.Replies thread.task.seat? call answer s') (hnamed : thread.task.isNamed = true)
    (honce : s.InsertsOnce (f.log ++ (Event.batch? (.own ⟨call, answer⟩)).toList))
    (hknown : id ∈ s.jobs.rows.map Job.id ++ f.log.flatten.flatMap Write.inserted)
    (hactive : ∀ operator, thread.task = .activate operator id →
      Event.batch? (.own ⟨call, answer⟩) = none)
    (hsuspended : f.store.jobs.IsSuspended id) : s'.jobs.IsSuspended id := by
  cases hbatch : Event.batch? (.own ⟨call, answer⟩) with
  | none =>
    rw [replies.answered.unchanged hbatch]
    exact hsuspended
  | some ws =>
    rw [hbatch] at honce
    have hmakes := h.makes carries_keepsSuspension hhandlers here asks replies hnamed hbatch honce
    have hnot : ∀ operator, thread.task ≠ .activate operator id := by
      intro operator htask
      rw [hactive operator htask] at hbatch
      cases hbatch
    obtain ⟨known, hreached, hkeeps⟩ := hmakes.keepsSuspension hnot
    have hins := honce.not_inserted hknown
    rw [Option.toList_some, List.flatten_singleton] at hins
    obtain ⟨rows, hexchange⟩ := Event.batch?_own_eq_some_iff.1 hbatch
    cases hexchange
    exact hsuspended.writeAll (Store.writeAll_of_apply replies.answered.apply) hins
      (fun row hrow _ => hreached row hrow) hkeeps

/-- From when a suspension of a job is accepted until the job is activated, its row is suspended, if
there still is one. -/
theorem Reachable.suspended_since (h : Reachable s f) (honce : s.InsertsOnce f.log)
    (hnamed : ∀ turn ∈ f.history, turn.task.isNamed = true) {before since : List (Turn ι ε)}
    {m : Turn ι ε} (hhistory : f.history = before ++ m :: since) (hsuspends : m.Suspends id since) :
    f.store.jobs.IsSuspended id ∧
      id ∈ s.jobs.rows.map Job.id ++ f.log.flatten.flatMap Write.inserted := by
  induction h generalizing since with
  | start => cases (List.append_eq_nil_iff.1 hhistory.symm).2
  | @step f f' h hstep ih =>
    cases hstep with
    | enter suits vacant => exact ih honce hnamed hhistory hsuspends
    | @turn place thread _ call next answer s' here asks replies =>
      rw [log_advance] at honce ⊢
      obtain ⟨hold, hturn⟩ := List.forall_mem_append.1 hnamed
      have hthread : thread.task.isNamed = true := hturn _ (List.mem_singleton_self _)
      rw [List.flatten_append, List.flatMap_append, ← List.append_assoc]
      obtain ⟨⟨operator, htask⟩, ⟨ws, hbatch⟩, hactive⟩ := hsuspends
      rcases List.eq_nil_or_concat since with rfl | ⟨since, last, rfl⟩
      · -- This call suspends the job.
        obtain ⟨-, hlast⟩ := List.append_inj' hhistory rfl
        obtain rfl := (List.cons.inj hlast).1
        rw [hbatch] at honce
        have hmakes := h.makes carries_keepsSuspension hhandlers here asks replies hthread hbatch honce
        obtain ⟨row, hstored, rfl, rfl⟩ := hmakes.of_suspend htask
        refine ⟨fun after hafter => ?_, List.mem_append_left _ (h.commits.named hstored)⟩
        replace hafter : s'.jobs.find? row.id = some after := hafter
        obtain ⟨rows, hexchange⟩ := Event.batch?_own_eq_some_iff.1 hbatch
        cases hexchange
        rw [JobTable.find?_writeAll (Store.writeAll_of_apply replies.answered.apply) row.id, hstored,
          List.foldl_cons, List.foldl_nil, Write.remake, if_pos rfl] at hafter
        cases hafter
        rfl
      · rw [List.concat_eq_append] at hhistory hactive
        rw [← List.cons_append, ← List.append_assoc] at hhistory
        obtain ⟨hbefore, hlast⟩ := List.append_inj' hhistory rfl
        obtain rfl := (List.cons.inj hlast).1
        obtain ⟨hsince, hthis⟩ := List.forall_mem_append.1 hactive
        obtain ⟨hsuspended, hknown⟩ :=
          ih honce.of_append hold hbefore ⟨⟨operator, htask⟩, ⟨ws, hbatch⟩, hsince⟩
        refine ⟨?_, List.mem_append_left _ hknown⟩
        exact h.isSuspended_of_replies hhandlers here asks replies hthread honce hknown
          (hthis _ (List.mem_singleton_self _)) hsuspended
    | reach value => exact ih honce hnamed hhistory hsuspends

section History

variable {before since later : List (Turn ι ε)} {m turn : Turn ι ε}

/-- Up to a call since a suspension, the row of the job is suspended. -/
theorem Reachable.suspended_at (h : Reachable s f) (honce : s.InsertsOnce f.log)
    (hnamed : ∀ turn ∈ f.history, turn.task.isNamed = true)
    (hhistory : f.history = before ++ m :: (since ++ turn :: later)) (hsuspends : m.Suspends id since) :
    ∃ (g : Fleet engine) (s' : Store), Reachable s g ∧ g.history = before ++ m :: since ∧
      g.Takes turn s' ∧ s.InsertsOnce (g.log ++ turn.batch?.toList) ∧
      (∀ turn ∈ g.history, turn.task.isNamed = true) ∧ turn.task.isNamed = true ∧
      g.store.jobs.IsSuspended id := by
  rw [← List.cons_append, ← List.append_assoc] at hhistory
  rw [hhistory] at hnamed
  obtain ⟨hold, hthis⟩ := List.forall_mem_append.1 hnamed
  obtain ⟨g, s', hg, hbefore, htakes, honce⟩ := h.cut_once honce hhistory
  rw [← hbefore] at hold
  exact ⟨g, s', hg, hbefore, htakes, honce, hold, hthis turn List.mem_cons_self,
    (hg.suspended_since hhandlers honce.of_append hold hbefore hsuspends).1⟩

/-- A job that was suspended is not locked by a cycle until it is activated. -/
theorem Reachable.not_locked_since (h : Reachable s f) (honce : s.InsertsOnce f.log)
    (hnamed : ∀ turn ∈ f.history, turn.task.isNamed = true)
    (hhistory : f.history = before ++ m :: (since ++ turn :: later)) (hsuspends : m.Suspends id since)
    {seat : ι} {batch : Nat} (htask : turn.task = .acquire seat batch) :
    turn.locksAt? id = none := by
  obtain ⟨g, s', hg, -, htakes, honce, -, hturn, hsuspended⟩ :=
    h.suspended_at hhandlers honce hnamed hhistory hsuspends
  cases htakes with
  | @mk place thread _ call next answer _ here asks replies =>
    cases hbatch : Turn.batch? (⟨place, thread.task, ⟨call, answer⟩⟩ : Turn ι ε) with
    | none => rw [Turn.locksAt?, hbatch, Option.bind_none]
    | some ws =>
      rw [hbatch] at honce
      have hmakes := hg.makes carries_keepsSuspension hhandlers here asks replies hturn hbatch honce
      rw [Turn.locksAt?, hbatch, Option.bind_some, List.findSome?_eq_none_iff]
      exact hmakes.not_locks hsuspended htask

/-- A suspension that is accepted writes the row of the job. -/
theorem Reachable.touches_of_suspends (h : Reachable s f) (honce : s.InsertsOnce f.log)
    (hnamed : ∀ turn ∈ f.history, turn.task.isNamed = true)
    (hhistory : f.history = before ++ m :: since) (hsuspends : m.Suspends id since) :
    ∃ ws, m.batch? = some ws ∧ ∃ w ∈ ws, w.touches id = true := by
  obtain ⟨⟨operator, htask⟩, ⟨ws, hbatch⟩, -⟩ := hsuspends
  have hturn : m.task.isNamed = true :=
    hnamed m (hhistory ▸ List.mem_append_right _ List.mem_cons_self)
  obtain ⟨g, s', hg, -, htakes, honce⟩ := h.cut_once honce hhistory
  rw [hbatch] at honce
  cases htakes with
  | mk here asks replies =>
    have hmakes := hg.makes carries_keepsSuspension hhandlers here asks replies hturn hbatch honce
    obtain ⟨row, -, rfl, rfl⟩ := hmakes.of_suspend htask
    exact ⟨_, hbatch, _, List.mem_singleton_self _, beq_self_eq_true _⟩

/-- If the job of a worker is the row that is stored after a suspension, its cycle had locked the job
before the suspension and read it again after that. -/
theorem Reachable.caught_of_run (h : Reachable s f) (honce : s.InsertsOnce f.log)
    (hnamed : ∀ turn ∈ f.history, turn.task.isNamed = true)
    (hhistory : f.history = before ++ m :: since) {seat : ι} {d : Dispatched}
    (hsuspends : m.Suspends d.job.id since) (here : f.threads place = some thread)
    (htask : thread.task = .run seat d) (hstored : f.store.jobs.find? d.job.id = some d.job) :
    ∃ batch,
      (∃ lock ∈ before, lock.place = .cycle seat ∧ lock.task = .acquire seat batch ∧
        lock.locksAt? d.job.id ≠ none) ∧
      (⟨.cycle seat, .acquire seat batch, ⟨.store (.get d.job.id), .ok (some d.job)⟩⟩ : Turn ι ε) ∈
        since := by
  obtain ⟨operator, hsuspend⟩ := hsuspends.task
  obtain ⟨g, cycle, batch, late, hg, hcut, -, hthere, hacquires, hdispatches⟩ :=
    h.dispatched here htask
  refine ⟨batch, ?_⟩
  -- What the cycle has said is on the record, and is not the suspension.
  have hrecorded : ∀ exchange ∈ cycle.talk,
      (⟨.cycle seat, .acquire seat batch, exchange⟩ : Turn ι ε) ∈ before ∨
        (⟨.cycle seat, .acquire seat batch, exchange⟩ : Turn ι ε) ∈ since := by
    intro exchange hmem
    have hturn : (⟨.cycle seat, cycle.task, exchange⟩ : Turn ι ε) ∈ f.history :=
      hcut ▸ List.mem_append_left late (hg.recorded hthere hmem)
    rw [hacquires, hhistory, List.mem_append, List.mem_cons] at hturn
    rcases hturn with hturn | rfl | hturn
    · exact .inl hturn
    · cases hsuspend
    · exact .inr hturn
  generalize cycle.talk = talk at hdispatches hrecorded
  cases hdispatches with
  | @reread earlier row expiry _ holds named owned carried =>
    constructor
    · obtain ⟨exchange, hmem, ws, hbatch, hgrant⟩ := Grip.exists_taken holds.lock
      have hlocks : Turn.locksAt? d.job.id
          (⟨.cycle seat, .acquire seat batch, exchange⟩ : Turn ι ε) ≠ none := by
        obtain ⟨now, hnow⟩ := Grant.exists_locksAt? hgrant
        have hturn : Turn.batch? (⟨.cycle seat, .acquire seat batch, exchange⟩ : Turn ι ε) = some ws :=
          hbatch
        rw [Turn.locksAt?, hturn, Option.bind_some, named, hnow]
        exact Option.some_ne_none now
      refine ⟨_, (hrecorded exchange (List.mem_append_left _ hmem)).resolve_right fun hsince => ?_,
        rfl, rfl, hlocks⟩
      obtain ⟨first, rest, rfl⟩ := List.append_of_mem hsince
      exact hlocks (h.not_locked_since hhandlers honce hnamed hhistory hsuspends.of_append rfl)
    · refine (hrecorded _ (List.mem_append_right _ (List.mem_singleton_self _))).resolve_left ?_
      intro hbefore
      obtain ⟨ws, hbatch, htouches⟩ := h.touches_of_suspends hhandlers honce hnamed hhistory hsuspends
      have hpast := h.isPast_of_touches honce hhistory hbatch hbefore (List.mem_singleton_self _)
        htouches
      exact Nat.lt_irrefl _ (hpast d.job hstored)

/-- From when a suspension of a job is accepted until the job is activated, no poll returns the job
and no cycle locks it; and a worker ends it only if its cycle had locked the job before, and read the
suspended row after that. -/
theorem Reachable.suspended_job_ends_only_if_caught (h : Reachable s f) (honce : s.InsertsOnce f.log)
    (hnamed : ∀ turn ∈ f.history, turn.task.isNamed = true)
    (hhistory : f.history = before ++ m :: (since ++ turn :: later))
    (hsuspends : m.Suspends id since) :
    (∀ now limit rows, turn.exchange = ⟨.store (.findDue now limit), .ok rows⟩ →
      ∀ row ∈ rows, row.id ≠ id) ∧
    (∀ seat batch, turn.task = .acquire seat batch → turn.locksAt? id = none) ∧
    ∀ seat d ws, turn.task = .run seat d → d.job.id = id → turn.batch? = some ws →
      (∃ w ∈ ws, w.deletes id = true) →
        d.job.suspended = true ∧ ∃ batch,
          (∃ lock ∈ before, lock.place = .cycle seat ∧ lock.task = .acquire seat batch ∧
            lock.locksAt? id ≠ none) ∧
          (⟨.cycle seat, .acquire seat batch, ⟨.store (.get id), .ok (some d.job)⟩⟩ : Turn ι ε) ∈
            since := by
  have hnotLocked : ∀ seat batch, turn.task = .acquire seat batch → turn.locksAt? id = none :=
    fun _ _ => h.not_locked_since hhandlers honce hnamed hhistory hsuspends
  obtain ⟨g, s', hg, hbefore, htakes, honce, hold, hturn, hsuspended⟩ :=
    h.suspended_at hhandlers honce hnamed hhistory hsuspends
  cases htakes with
  | @mk place thread _ call next answer _ here asks replies =>
    refine ⟨?_, hnotLocked, ?_⟩
    · rintro now limit rows hexchange row hrow rfl
      cases hexchange
      have hstored := JobTable.find?_eq_some_of_mem (replies.answered.mem_rows hrow).1
      have hactive := Job.suspended_of_isAcquirable (replies.answered.acquirable hrow)
      rw [hsuspended row hstored] at hactive
      cases hactive
    · rintro seat d ws htask rfl hbatch hdeletes
      rw [hbatch] at honce
      have hmakes := hg.makes carries_keepsSuspension hhandlers here asks replies hturn hbatch honce
      obtain ⟨hstored, hsuspendedJob⟩ := hmakes.suspended_of_deletes hsuspended htask rfl hdeletes
      exact ⟨hsuspendedJob, hg.caught_of_run hhandlers honce.of_append hold hbefore hsuspends here
        htask hstored⟩

end History

end Fleet

/-! ## A cycle that is caught -/

/-- The job that an operator suspends. -/
def Task.suspends? : Task ι ε → Option JobId
  | .suspend _ id => some id
  | _ => none

/-- The job that an operator activates. -/
def Task.activates? : Task ι ε → Option JobId
  | .activate _ id => some id
  | _ => none

/-- The job that a worker runs, with the seat of its engine. -/
def Task.runs? : Task ι ε → Option (ι × Dispatched)
  | .run seat d => some (seat, d)
  | _ => none

/-- The job that an operator has suspended, and was told so. -/
def Thread.suspended? : Thread engine → Option JobId
  | ⟨.suspend _ id, _, .done (.ok _), _⟩ => some id
  | _ => none

theorem Task.exists_of_suspends? {task : Task ι ε} {id : JobId} (h : task.suspends? = some id) :
    ∃ operator, task = .suspend operator id := by
  cases task with
  | suspend operator k =>
    cases h
    exact ⟨operator, rfl⟩
  | _ => cases h

theorem Task.eq_run_of_runs? {task : Task ι ε} {seat : ι} {d : Dispatched}
    (h : task.runs? = some (seat, d)) : task = .run seat d := by
  cases task with
  | run k d' =>
    cases h
    rfl
  | _ => cases h

namespace Fleet

/-- The left engine's cycle has taken its lock on the first job when an operator suspends the job. -/
def suspension : Fleet Engine.ofPair :=
  (start Engine.ofPair (.ofTwo (.mail "first") (.mail "second"))).play
    [.begin (.cycle true) (.acquire true 1) rfl, .call (.cycle true) 7 .early,
      .begin (.call 0) (.suspend ⟨.ofMillis 1, 3⟩ ⟨"first"⟩) trivial, .call (.call 0) 3 .early]

/-- The cycle goes on to read the job again, and the job is dispatched and executed. -/
def caught : Fleet Engine.ofPair :=
  suspension.play [.call (.cycle true) 5 .early, .call (.worker 11) 5 .early]

theorem reachable_caught : Reachable (.ofTwo (.mail "first") (.mail "second")) caught :=
  (Reachable.start.play _).play _

theorem insertsOnce_caught : (Store.ofTwo (.mail "first") (.mail "second")).InsertsOnce caught.log := by
  unfold Store.InsertsOnce
  decide +kernel

theorem caught_job_was_locked_before :
    Reachable (.ofTwo (.mail "first") (.mail "second")) caught ∧
      ∃ m turn d, caught.history[9]? = some m ∧ caught.history[17]? = some turn ∧
        m.Suspends ⟨"first"⟩ ((caught.history.drop 10).take 7) ∧ turn.task = .run true d ∧
        turn.batch? = some [.delete ⟨"first"⟩ (.exactly 3)] ∧ d.job.suspended = true ∧ ∃ batch,
          (∃ lock ∈ caught.history.take 9, lock.place = .cycle true ∧
            lock.task = .acquire true batch ∧ lock.locksAt? ⟨"first"⟩ ≠ none) ∧
          ⟨.cycle true, .acquire true batch, ⟨.store (.get ⟨"first"⟩), .ok (some d.job)⟩⟩ ∈
            (caught.history.drop 10).take 7 := by
  have hsuspended : caught.history[9]?.bind (fun turn => turn.task.suspends?) = some ⟨"first"⟩ := by
    decide +kernel
  have hbatches : (caught.history[9]?.bind Turn.batch?).isSome = true ∧
      caught.history[17]?.bind Turn.batch? = some [.delete ⟨"first"⟩ (.exactly 3)] := by
    decide +kernel
  have hsince : (((caught.history.drop 10).take 7).all fun turn => turn.batch?.isNone) = true := by
    decide +kernel
  have hruns : (caught.history[17]?.bind fun turn => turn.task.runs?).map
      (fun run => (run.1, run.2.job.id)) = some (true, ⟨"first"⟩) := by
    decide +kernel
  have hnamed : (caught.history.all fun turn => turn.task.isNamed) = true := by decide +kernel
  obtain ⟨m, hm, hsuspends⟩ := Option.bind_eq_some_iff.1 hsuspended
  obtain ⟨ws, hws⟩ := Option.isSome_iff_exists.1 hbatches.1
  rw [hm, Option.bind_some] at hws
  obtain ⟨turn, hturn, hbatch⟩ := Option.bind_eq_some_iff.1 hbatches.2
  rw [hturn, Option.bind_some] at hruns
  obtain ⟨⟨seat, d⟩, hrun, hjob⟩ := Option.map_eq_some_iff.1 hruns
  cases congrArg Prod.fst hjob
  have hname : d.job.id = ⟨"first"⟩ := congrArg Prod.snd hjob
  have hsplit : m.Suspends ⟨"first"⟩ ((caught.history.drop 10).take 7) :=
    ⟨Task.exists_of_suspends? hsuspends, ⟨ws, hws⟩, fun turn hmem _ _ =>
      Option.isNone_iff_eq_none.1 (List.all_eq_true.1 hsince turn hmem)⟩
  have hcaught := reachable_caught.suspended_job_ends_only_if_caught
    (fun _ => .of_stagesNothing fun _ _ => Engine.stagesNothing_ofPair) insertsOnce_caught
    (List.all_eq_true.1 hnamed) (history_split (by decide) hm hturn) hsplit
  have htask := Task.eq_run_of_runs? hrun
  obtain ⟨hjobSuspended, batch, hlock, hreread⟩ := hcaught.2.2 true d _ htask hname hbatch
    ⟨_, List.mem_singleton_self _, rfl⟩
  exact ⟨reachable_caught, m, turn, d, hm, hturn, hsplit, htask, hbatch, hjobSuspended, batch, hlock,
    hreread⟩

/-- The operator was told that the job is suspended, nobody has activated it, and it is executed all
the same. -/
theorem caught_job_ends_while_suspended :
    Reachable (.ofTwo (.mail "first") (.mail "second")) suspension ∧
      (suspension.threads (.call 0)).bind Thread.suspended? = some ⟨"first"⟩ ∧
      (suspension.store.jobs.find? ⟨"first"⟩).map Job.suspended = some true ∧
      caught = suspension.play [.call (.cycle true) 5 .early, .call (.worker 11) 5 .early] ∧
      (Store.ofTwo (.mail "first") (.mail "second")).InsertsOnce caught.log ∧
      (caught.history.all fun turn => turn.task.activates?.isNone) = true ∧
      (caught.history[17]?.bind fun turn => turn.task.runs?).map
        (fun run => (run.1, run.2.job.id)) = some (true, ⟨"first"⟩) ∧
      caught.history[17]?.bind Turn.batch? = some [.delete ⟨"first"⟩ (.exactly 3)] ∧
      caught.store.jobs.find? ⟨"first"⟩ = none :=
  ⟨Reachable.start.play _, by decide +kernel, by decide +kernel, rfl, insertsOnce_caught,
    by decide +kernel, by decide +kernel, by decide +kernel, by decide +kernel⟩

end Fleet

end DeferredWork

import DeferredWork.Proofs.Fleet.Record
import DeferredWork.Proofs.Operator.Handing

set_option autoImplicit false

/-!
# What is done to jobs

For each task it can be said to the last write what it may hand in, given what it has been told
(`Task.deeds`), up to what the handlers stage, which obey some discipline.  If no name is inserted
twice, a batch that was made from a row is accepted only if the store holds that very row.  So of each
accepted batch it can be said from which stored row it was made, and what it makes of it
(`Fleet.Reachable.makes`).
-/

namespace DeferredWork

variable {ι : Type} {ε : Type → Type} {α β : Type} {engine : ι → Engine ε}

/-! ## What tasks hand in -/

namespace Task

/-- What a task may do after what it was told, with handlers that obey a discipline. -/
def deeds (engine : ι → Engine ε) (P : List Job → Write → Prop) : Task ι ε → Conduct ε
  | .acquire seat _ => Engine.acquiring (engine seat).owner
  | .run seat d => (engine seat).executing P d
  | .schedule _ job => .ofBatches fun _ ws => Operator.Stores job ws
  | .cancel _ id => .ofBatches fun _ ws => ws = [.delete id .any]
  | .setRetries _ id retries => .ofRow id fun row ws => Operator.Resets row retries ws
  | .suspend _ id => .ofRow id fun row ws =>
    ws = [.update { row with suspended := true } (.exactly row.revision)]
  | .activate _ id => .ofRow id fun row ws =>
    ws = [.update { row with suspended := false } (.exactly row.revision)]
  | .transact _ _ => .ofBatches fun _ _ => True

variable {R : List Job → Staged → Prop} {P : List Job → Write → Prop}

theorem keeps_deeds (hcarries : Transaction.Carries R P)
    (hhandlers : ∀ seat, (engine seat).HandlersObey R) (task : Task ι ε) :
    (task.routine engine).Keeps (task.deeds engine P).rules (fun _ _ => True) [] := by
  cases task with
  | acquire seat batch => exact ((engine seat).keeps_acquire batch).mono fun _ _ _ => trivial
  | run seat d => exact (Engine.keeps_runJob hcarries (hhandlers seat)).mono fun _ _ _ => trivial
  | schedule operator job => exact operator.keeps_stores job
  | cancel operator id => exact operator.keeps_deletes id
  | setRetries operator id retries => exact operator.keeps_resets id retries
  | suspend operator id => exact operator.keeps_suspends id
  | activate operator id => exact operator.keeps_activates id
  | transact limit command =>
    have hfree : (Transaction.run limit command).Keeps
        (Conduct.ofBatches (ε := ε) fun _ _ => True).rules (fun _ _ => True) [] :=
      Conduct.keeps_ofBatches limit (fun _ h => h) (fun _ _ _ _ => trivial) []
    exact hfree

end Task

/-! ## Batches that were made from a row -/

theorem Job.Ends.reliesOn {row : Job} {now : Instant} {completion : Completion} {ws : List Write}
    (h : row.Ends now completion ws) : ∃ w ∈ ws, w.ReliesOn row.id row.revision := by
  cases h with
  | deleted once => exact ⟨_, List.mem_cons_self, .delete⟩
  | rescheduled recurs id => exact ⟨_, List.mem_cons_self, .delete⟩

theorem Job.Fails.reliesOn {row : Job} {backoff : Backoff} {handler : Option (Handler ε)}
    {error : HandlerError} {now : Instant} {ws : List Write}
    (h : row.Fails backoff handler error now ws) : ∃ w ∈ ws, w.ReliesOn row.id row.revision := by
  cases h with
  | retried decided => exact ⟨_, List.mem_cons_self, .update rfl⟩
  | parked id decided => exact ⟨_, List.mem_cons_self, .update rfl⟩

theorem Operator.Resets.reliesOn {row : Job} {retries : Nat} {ws : List Write}
    (h : Operator.Resets row retries ws) : ∃ w ∈ ws, w.ReliesOn row.id row.revision := by
  cases h with
  | renewed parked renews now => exact ⟨_, List.mem_cons_of_mem _ List.mem_cons_self, .update rfl⟩
  | parked active used id now => exact ⟨_, List.mem_cons_of_mem _ List.mem_cons_self, .update rfl⟩
  | same like => exact ⟨_, List.mem_cons_self, .update rfl⟩

/-! ## What accepted batches make of jobs -/

namespace Fleet

variable [DecidableEq ι] {s : Store} {f : Fleet engine}

/-- By its record, the worker at a place has counted a failure of its job. -/
def hasFailed (history : List (Turn ι ε)) (place : Place ι) : Bool :=
  history.any fun turn => decide (turn.place = place) && turn.exchange.countsFailure

/-- What is counted at the place of a worker, the worker has counted. -/
theorem Reachable.hasFailed_eq (h : Reachable s f) {n : Nat} {thread : Thread engine}
    (hp : f.threads (.worker n) = some thread) :
    hasFailed f.history (.worker n) = thread.talk.any Exchange.countsFailure := by
  rw [Bool.eq_iff_iff, hasFailed, List.any_eq_true, List.any_eq_true]
  constructor
  · rintro ⟨turn, hturn, hcounts⟩
    obtain ⟨hplace, hcounts⟩ := Bool.and_eq_true_iff.1 hcounts
    refine ⟨turn.exchange, ?_, hcounts⟩
    rw [h.talk_of_worker hp]
    exact List.mem_map_of_mem (List.mem_filter.2 ⟨hturn, hplace⟩)
  · rintro ⟨exchange, hmem, hcounts⟩
    exact ⟨_, h.recorded hp hmem, Bool.and_eq_true_iff.2 ⟨decide_eq_true rfl, hcounts⟩⟩

/-- What a task at a place makes of the jobs with a batch that is accepted: the batch was made from a
row that the store holds, unless it stores a new job or deletes one at whatever revision. -/
inductive Makes (f : Fleet engine) (P : List Job → Write → Prop) (place : Place ι)
    (thread : Thread engine) : List Write → Prop
  | locks {seat : ι} {batch : Nat} {row : Job} {time now expiry : Instant}
      (task : thread.task = .acquire seat batch) (stored : f.store.jobs.find? row.id = some row)
      (acquirable : row.isAcquirable time = true) (shown : time ∈ f.readings)
      (later : f.readings.Pairwise (· ≤ ·) → time ≤ now) :
      Makes f P place thread [.lock row.id row.revision (engine seat).owner expiry now]
  | gives {seat : ι} {batch : Nat} {row : Job} (task : thread.task = .acquire seat batch)
      (stored : f.store.jobs.find? row.id = some row)
      (owned : row.isLockedBy (engine seat).owner = true) :
      Makes f P place thread [.update row.released (.exactly row.revision)]
  | executes {seat : ι} {d : Dispatched} {now : Instant} {completion : Completion}
      {known : List Job} {own ending : List Write} (task : thread.task = .run seat d)
      (unfailed : hasFailed f.history place = false)
      (stored : f.store.jobs.find? d.job.id = some d.job)
      (owned : d.job.isLockedBy (engine seat).owner = true)
      (clock : thread.talk.head? = some ⟨.clock, now⟩)
      (pinned : ∀ row ∈ known, f.store.jobs.HasReached row) (allowed : ∀ w ∈ own, P known w)
      (ends : d.job.Ends now completion ending) : Makes f P place thread (own ++ ending)
  | releases {seat : ι} {d : Dispatched} {row : Job} (task : thread.task = .run seat d)
      (unfailed : hasFailed f.history place = false)
      (stored : f.store.jobs.find? row.id = some row) (named : row.id = d.job.id)
      (owned : row.isLockedBy (engine seat).owner = true) :
      Makes f P place thread [.update row.released (.exactly row.revision)]
  | charges {seat : ι} {d : Dispatched} {row : Job} {error : HandlerError} {now : Instant}
      {ws : List Write} (task : thread.task = .run seat d)
      (failed : hasFailed f.history place = true) (stored : f.store.jobs.find? row.id = some row)
      (named : row.id = d.job.id) (owned : row.isLockedBy (engine seat).owner = true)
      (fails : row.Fails (engine seat).backoff ((engine seat).handlers.resolve d.job.kind) error now
        ws) : Makes f P place thread ws
  | stores {operator : Operator} {job : Job} {ws : List Write}
      (task : thread.task = .schedule operator job) (stores : Operator.Stores job ws) :
      Makes f P place thread ws
  | deletes {operator : Operator} {id : JobId} (task : thread.task = .cancel operator id) :
      Makes f P place thread [.delete id .any]
  | resets {operator : Operator} {row : Job} {retries : Nat} {ws : List Write}
      (task : thread.task = .setRetries operator row.id retries)
      (stored : f.store.jobs.find? row.id = some row) (resets : Operator.Resets row retries ws) :
      Makes f P place thread ws
  | suspends {operator : Operator} {row : Job} (task : thread.task = .suspend operator row.id)
      (stored : f.store.jobs.find? row.id = some row) :
      Makes f P place thread [.update { row with suspended := true } (.exactly row.revision)]
  | activates {operator : Operator} {row : Job} (task : thread.task = .activate operator row.id)
      (stored : f.store.jobs.find? row.id = some row) :
      Makes f P place thread [.update { row with suspended := false } (.exactly row.revision)]

variable {R : List Job → Staged → Prop} {P : List Job → Write → Prop}

/-- What a worker makes of its job, if the rows that it knows are pinned. -/
theorem Reachable.makes_of_concludes (h : Reachable s f) {place : Place ι} {thread : Thread engine}
    {seat : ι} {d : Dispatched} {ws : List Write} (here : f.threads place = some thread)
    (htask : thread.task = .run seat d) (hconcludes : (engine seat).Concludes P d thread.talk ws)
    (hreached : ∀ row ∈ thread.known, f.store.jobs.HasReached row)
    (hstored : ∀ row ∈ thread.known, (∃ w ∈ ws, w.ReliesOn row.id row.revision) →
      f.store.jobs.find? row.id = some row) : f.Makes P place thread ws := by
  have htold : ∀ {row}, row ∈ thread.talk.flatMap Exchange.told → row ∈ thread.known :=
    fun hrow => List.mem_append_right _ hrow
  obtain ⟨n, rfl⟩ := h.exists_worker here htask
  cases hconcludes with
  | @execution row now completion own ending unfailed clock told named current owned allowed ends =>
    obtain ⟨w, hw, hrelies⟩ := ends.reliesOn
    have hrow := hstored row (htold told) ⟨w, List.mem_append_right _ hw, hrelies⟩
    have hjob : d.job ∈ thread.known := by
      rw [Thread.known, htask]
      exact List.mem_append_left _ (List.mem_singleton_self _)
    -- The row that was dispatched and the one that was read again have the same revision.
    obtain rfl : row = d.job := (hreached d.job hjob).eq_of_revision (named ▸ hrow) current
    exact .executes htask ((h.hasFailed_eq here).trans unfailed) hrow owned clock
      (fun row hrow => hreached row (htold hrow)) allowed ends
  | release unfailed told named owned =>
    exact .releases htask ((h.hasFailed_eq here).trans unfailed)
      (hstored _ (htold told) ⟨_, List.mem_singleton_self _, .update rfl⟩) named owned
  | failure counted clock told named owned fails =>
    exact .charges htask ((h.hasFailed_eq here).trans counted)
      (hstored _ (htold told) fails.reliesOn) named owned fails

/-- What a batch that is accepted makes of the jobs. -/
theorem Reachable.makes (h : Reachable s f) (hcarries : Transaction.Carries R P)
    (hhandlers : ∀ seat, (engine seat).HandlersObey R) {place : Place ι} {thread : Thread engine}
    {call : Call ε β} {next : β → Routine ε thread.task.Result} {answer : β} {s' : Store}
    {ws : List Write} (here : f.threads place = some thread) (asks : thread.rest = .ask call next)
    (replies : f.Replies thread.task.seat? call answer s') (hnamed : thread.task.isNamed = true)
    (hbatch : Event.batch? (.own ⟨call, answer⟩) = some ws) (honce : s.InsertsOnce (f.log ++ [ws])) :
    f.Makes P place thread ws := by
  obtain ⟨rows, hexchange⟩ := Event.batch?_own_eq_some_iff.1 hbatch
  cases hexchange
  have hallowed := h.allowed_of here (thread.task.keeps_deeds hcarries hhandlers) asks
  have hws := Store.writeAll_of_apply replies.answered.apply
  have hpins := h.pins honce.of_append here
  -- A batch that was made from a row that the task knows goes through only if that row is stored.
  have hstored : ∀ row ∈ thread.known, (∃ w ∈ ws, w.ReliesOn row.id row.revision) →
      f.store.jobs.find? row.id = some row :=
    fun row hrow hrelies => (hpins row hrow).find?_of_writeAll hws honce hrelies
  have htold : ∀ {row}, row ∈ thread.talk.flatMap Exchange.told → row ∈ thread.known :=
    fun hrow => List.mem_append_right _ hrow
  generalize htask : thread.task = task at hallowed
  cases task with
  | acquire seat batch =>
    generalize htalk : thread.talk = talk at hallowed
    cases hallowed with
    | @lock earlier row expiry now polled token =>
      have hrow := hstored row (htold (htalk ▸ polled.append _).mem_told)
        ⟨_, List.mem_singleton_self _, .lock⟩
      obtain ⟨time, limit, rows, hclock, hpoll, hmem⟩ := polled
      have hsaid : ∀ {exchange}, exchange ∈ earlier → exchange ∈ thread.talk :=
        fun hmem => htalk ▸ List.mem_append_left _ hmem
      exact .locks htask hrow (h.acquirable (h.recorded here (hsaid hpoll)) hmem)
        (h.mem_readings here (hsaid hclock)) fun hordered => h.le_of_read hordered here htalk hclock
    | release holds told named owned =>
      exact .gives htask (hstored _ (htold (htalk ▸ told)) ⟨_, List.mem_singleton_self _, .update rfl⟩)
        owned
  | run seat d =>
    exact h.makes_of_concludes here htask hallowed.concludes
      (fun row hrow => (hpins row hrow).reached) hstored
  | schedule operator job => exact .stores htask hallowed
  | cancel operator id =>
    obtain rfl : ws = [.delete id .any] := hallowed
    exact .deletes htask
  | setRetries operator id retries =>
    obtain ⟨row, hrow, rfl, hresets⟩ := hallowed
    exact .resets htask (hstored row (htold hrow) hresets.reliesOn) hresets
  | suspend operator id =>
    obtain ⟨row, hrow, rfl, rfl⟩ := hallowed
    exact .suspends htask (hstored row (htold hrow) ⟨_, List.mem_singleton_self _, .update rfl⟩)
  | activate operator id =>
    obtain ⟨row, hrow, rfl, rfl⟩ := hallowed
    exact .activates htask (hstored row (htold hrow) ⟨_, List.mem_singleton_self _, .update rfl⟩)
  | transact limit command =>
    rw [htask] at hnamed
    cases hnamed

end Fleet

end DeferredWork

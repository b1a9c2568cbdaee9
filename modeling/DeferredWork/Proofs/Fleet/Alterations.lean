import DeferredWork.Proofs.Fleet.Deeds
import DeferredWork.Proofs.Fleet.Standing

set_option autoImplicit false

/-!
# What becomes of a job

Where handlers stage nothing, each accepted batch does one of a dozen things to the job of a name
(`Fleet.Alters`): it leaves it alone; locks it, lets it go, charges it with a failure, ends it, or
begins it as the next run of another job; or it is the batch of an operator, who schedules, cancels,
suspends or activates it or sets its retries.
-/

namespace DeferredWork

variable {ι : Type} {ε : Type → Type} {β : Type} {engine : ι → Engine ε}

/-- The writes that a discipline allows which allows none. -/
theorem Transaction.carries_nothing :
    Transaction.Carries (fun _ _ => False) (fun _ _ => False) where
  mono := fun _ h => h
  write := fun _ h => h

/-- The write raises an incident of the job of a name. -/
def Write.reports (id : JobId) : Write → Bool
  | .raise incident => incident.jobId == id
  | _ => false

/-- The job that a write touches or reports, if it does. -/
def Write.subject? : Write → Option JobId
  | .insert job => some job.id
  | .update job _ => some job.id
  | .lock id _ _ _ _ => some id
  | .delete id _ => some id
  | .raise incident => some incident.jobId
  | .resolve _ _ => none

/-- A write leaves all jobs alone but its subject. -/
theorem Write.untouched_of_subject {w : Write} {id : JobId} (h : w.subject? ≠ some id) :
    w.touches id = false ∧ w.reports id = false := by
  have hne : ∀ {k}, w.subject? = some k → (k == id) = false := by
    rintro k hk
    refine beq_eq_false_iff_ne.2 ?_
    rintro rfl
    exact h hk
  cases w with
  | raise incident => exact ⟨rfl, hne rfl⟩
  | resolve k now => exact ⟨rfl, rfl⟩
  | _ => exact ⟨hne rfl, rfl⟩

/-- The write is about no other job than that of a name. -/
def Write.IsAbout (name : JobId) (w : Write) : Prop := ∀ k ∈ w.subject?, k = name

theorem Write.isAbout_of_subject {w : Write} {name : JobId} (h : w.subject? = some name) :
    w.IsAbout name := by
  rw [IsAbout, h]
  exact fun k hk => (Option.some.inj hk).symm

theorem Job.Fails.isAbout {row : Job} {backoff : Backoff} {handler : Option (Handler ε)}
    {error : HandlerError} {now : Instant} {ws : List Write}
    (h : row.Fails backoff handler error now ws) : ∀ w ∈ ws, w.IsAbout row.id := by
  cases h with
  | retried decided => exact List.forall_mem_singleton.2 (Write.isAbout_of_subject rfl)
  | parked id decided =>
    exact List.forall_mem_cons.2 ⟨Write.isAbout_of_subject rfl,
      List.forall_mem_singleton.2 (Write.isAbout_of_subject rfl)⟩

theorem Operator.Stores.isAbout {job : Job} {ws : List Write} (h : Operator.Stores job ws) :
    ∀ w ∈ ws, w.IsAbout job.id := by
  cases h with
  | active active => exact List.forall_mem_singleton.2 (Write.isAbout_of_subject rfl)
  | parked parked id now =>
    exact List.forall_mem_cons.2 ⟨Write.isAbout_of_subject rfl,
      List.forall_mem_singleton.2 (Write.isAbout_of_subject rfl)⟩

theorem Operator.Resets.isAbout {row : Job} {retries : Nat} {ws : List Write}
    (h : Operator.Resets row retries ws) : ∀ w ∈ ws, w.IsAbout row.id := by
  cases h with
  | renewed parked renews now =>
    exact List.forall_mem_cons.2 ⟨fun k hk => (nomatch hk),
      List.forall_mem_singleton.2 (Write.isAbout_of_subject rfl)⟩
  | parked active used id now =>
    exact List.forall_mem_cons.2 ⟨Write.isAbout_of_subject rfl,
      List.forall_mem_singleton.2 (Write.isAbout_of_subject rfl)⟩
  | same like => exact List.forall_mem_singleton.2 (Write.isAbout_of_subject rfl)

/-- To schedule a job stores it, at its first revision. -/
theorem Operator.Stores.find? {job : Job} {ws : List Write} (h : Operator.Stores job ws)
    {t t' : JobTable} {rows : List Job} (hws : t.writeAll ws = .ok (t', rows)) :
    t'.find? job.id = some { job with revision := 1 } := by
  rw [JobTable.find?_writeAll hws]
  cases h with
  | active active => exact if_pos rfl
  | parked parked id now => exact if_pos rfl

/-- To set the retries of a row stores the row with the retries, at the next revision. -/
theorem Operator.Resets.find? {row : Job} {retries : Nat} {ws : List Write}
    (h : Operator.Resets row retries ws) {t t' : JobTable} {rows : List Job}
    (hws : t.writeAll ws = .ok (t', rows)) (hrow : t.find? row.id = some row) :
    t'.find? row.id = some { row with retries := retries, revision := row.revision + 1 } := by
  have hremade := Write.remake_update row { row with retries := retries } (.exactly row.revision) rfl
  rw [JobTable.find?_writeAll hws, hrow]
  cases h with
  | renewed parked renews now => exact hremade
  | parked active used id now => exact hremade
  | same like => exact hremade

/-- The job that a task is about from its beginning, if it is about one. -/
def Task.subject? : Task ι ε → Option JobId
  | .run _ d => some d.job.id
  | .schedule _ job => some job.id
  | .cancel _ id => some id
  | .setRetries _ id _ => some id
  | .suspend _ id => some id
  | .activate _ id => some id
  | _ => none

namespace Fleet

variable [DecidableEq ι]

/-- What a batch of a task at a place makes of the job of a name. -/
inductive Alters (f : Fleet engine) (place : Place ι) (thread : Thread engine) (id : JobId)
    (ws : List Write) : Option Job → Option Job → Prop
  | leaves {row? : Option Job}
      (untouched : ∀ w ∈ ws, w.touches id = false ∧ w.reports id = false)
      (other : thread.task.subject? ≠ some id) :
      Alters f place thread id ws row? row?
  | locks {seat : ι} {batch : Nat} {row : Job} {time now expiry : Instant}
      (task : thread.task = .acquire seat batch) (acquirable : row.isAcquirable time = true)
      (shown : time ∈ f.readings) (later : f.readings.Pairwise (· ≤ ·) → time ≤ now)
      (handed : ws = [.lock id row.revision (engine seat).owner expiry now]) :
      Alters f place thread id ws (some row)
        (some { row.lockedBy (engine seat).owner expiry with revision := row.revision + 1 })
  | gives {seat : ι} {batch : Nat} {row : Job} (task : thread.task = .acquire seat batch)
      (handed : ws = [.update row.released (.exactly row.revision)]) :
      Alters f place thread id ws (some row)
        (some { row.released with revision := row.revision + 1 })
  | releases {seat : ι} {d : Dispatched} {row : Job} (task : thread.task = .run seat d)
      (unfailed : hasFailed f.history place = false)
      (handed : ws = [.update row.released (.exactly row.revision)]) :
      Alters f place thread id ws (some row)
        (some { row.released with revision := row.revision + 1 })
  | retries {seat : ι} {d : Dispatched} {row : Job} {error : HandlerError} {now due : Instant}
      {retries : Nat} (task : thread.task = .run seat d) (runs : d.job.id = id)
      (failed : hasFailed f.history place = true) (owned : row.isLockedBy (engine seat).owner = true)
      (decided : (row.charged error).decideFailure (engine seat).backoff
        ((engine seat).handlers.resolve d.job.kind) error now = .retry retries due)
      (handed : ws = [.update { row.charged error with retries := retries, due := some due }
        (.exactly row.revision)]) :
      Alters f place thread id ws (some row)
        (some { row.charged error with
          retries := retries, due := some due, revision := row.revision + 1 })
  | parks {seat : ι} {d : Dispatched} {row : Job} {error : HandlerError} {now : Instant}
      {incident : Uuid} (task : thread.task = .run seat d) (runs : d.job.id = id)
      (named : row.id = id) (failed : hasFailed f.history place = true)
      (owned : row.isLockedBy (engine seat).owner = true)
      (decided : (row.charged error).decideFailure (engine seat).backoff
        ((engine seat).handlers.resolve d.job.kind) error now = .incident)
      (handed : ws = [.update { row.charged error with retries := 0 } (.exactly row.revision),
        .raise (.forJob incident { row.charged error with retries := 0 } error.message error.details
          now)]) :
      Alters f place thread id ws (some row)
        (some { row.charged error with retries := 0, revision := row.revision + 1 })
  | ends {seat : ι} {d : Dispatched} {now : Instant} {completion : Completion}
      (task : thread.task = .run seat d) (runs : d.job.id = id)
      (unfailed : hasFailed f.history place = false)
      (owned : d.job.isLockedBy (engine seat).owner = true)
      (clock : thread.talk.head? = some ⟨.clock, now⟩)
      (ends : d.job.Ends now completion ws) : Alters f place thread id ws (some d.job) none
  | begins {seat : ι} {d : Dispatched} {interval : Duration} {uuid : Uuid} {now : Instant} {next : Job}
      (task : thread.task = .run seat d) (named : next.id = id)
      (unfailed : hasFailed f.history place = false)
      (stored : f.store.jobs.find? d.job.id = some d.job)
      (clock : thread.talk.head? = some ⟨.clock, now⟩) (recurs : d.job.interval = some interval)
      (succeeds : next = d.job.nextRun (.ofUuid uuid) (d.job.nextOccurrence now interval) now)
      (handed : ws = [.delete d.job.id (.exactly d.job.revision), .insert next]) :
      Alters f place thread id ws none (some { next with revision := 1 })
  | stores {operator : Operator} {job : Job} (task : thread.task = .schedule operator job)
      (named : job.id = id) (stores : Operator.Stores job ws) :
      Alters f place thread id ws none (some { job with revision := 1 })
  | deletes {operator : Operator} {row : Job} (task : thread.task = .cancel operator id)
      (handed : ws = [.delete id .any]) : Alters f place thread id ws (some row) none
  | resets {operator : Operator} {row : Job} {retries : Nat}
      (task : thread.task = .setRetries operator id retries)
      (resets : Operator.Resets row retries ws) :
      Alters f place thread id ws (some row)
        (some { row with retries := retries, revision := row.revision + 1 })
  | suspends {operator : Operator} {row : Job} (task : thread.task = .suspend operator id)
      (handed : ws = [.update { row with suspended := true } (.exactly row.revision)]) :
      Alters f place thread id ws (some row)
        (some { row with suspended := true, revision := row.revision + 1 })
  | activates {operator : Operator} {row : Job} (task : thread.task = .activate operator id)
      (handed : ws = [.update { row with suspended := false } (.exactly row.revision)]) :
      Alters f place thread id ws (some row)
        (some { row with suspended := false, revision := row.revision + 1 })

variable {s : Store} {f : Fleet engine} {place : Place ι} {thread : Thread engine}

/-- A batch that is about one job leaves the others alone. -/
theorem alters_of_isAbout {ws : List Write} {t' : JobTable} {rows : List Job} {name : JobId}
    (hws : f.store.jobs.writeAll ws = .ok (t', rows)) (habout : ∀ w ∈ ws, w.IsAbout name)
    (hsubject : ∀ k ∈ thread.task.subject?, k = name)
    (hname : f.Alters place thread name ws (f.store.jobs.find? name) (t'.find? name)) (id : JobId) :
    f.Alters place thread id ws (f.store.jobs.find? id) (t'.find? id) := by
  by_cases hid : id = name
  · rw [hid]
    exact hname
  · have hnot : ∀ w ∈ ws, w.touches id = false ∧ w.reports id = false :=
      fun w hw => Write.untouched_of_subject fun hw' => hid (habout w hw id hw')
    rw [JobTable.find?_writeAll_of_not_touches hws fun w hw => (hnot w hw).1]
    exact .leaves hnot fun htask => hid (hsubject id htask)

/-- A batch of one update of a stored row leaves the others alone. -/
theorem alters_of_update {t' : JobTable} {rows : List Job} {row job : Job} {expected : Expected}
    (hws : f.store.jobs.writeAll [.update job expected] = .ok (t', rows))
    (stored : f.store.jobs.find? row.id = some row) (hname : job.id = row.id)
    (hsubject : ∀ k ∈ thread.task.subject?, k = row.id)
    (halters : f.Alters place thread row.id [.update job expected] (some row)
      (some { job with revision := row.revision + 1 })) (id : JobId) :
    f.Alters place thread id [.update job expected] (f.store.jobs.find? id) (t'.find? id) := by
  have habout : (Write.update job expected).IsAbout row.id :=
    Write.isAbout_of_subject (congrArg some hname)
  refine alters_of_isAbout hws (List.forall_mem_singleton.2 habout) hsubject ?_ id
  rw [JobTable.find?_writeAll hws, stored, List.foldl_cons, List.foldl_nil,
    Write.remake_update row job expected hname]
  exact halters

/-- What the end of a job makes of the job of a name. -/
theorem alters_of_ends {ws : List Write} {t' : JobTable} {rows : List Job}
    (hws : f.store.jobs.writeAll ws = .ok (t', rows))
    (hfresh : ∀ row, f.store.jobs.find? row.id = some row → ∀ w ∈ ws, row.id ∉ w.inserted)
    (id : JobId) {seat : ι} {d : Dispatched} {now : Instant} {completion : Completion}
    (task : thread.task = .run seat d) (unfailed : hasFailed f.history place = false)
    (stored : f.store.jobs.find? d.job.id = some d.job)
    (owned : d.job.isLockedBy (engine seat).owner = true)
    (clock : thread.talk.head? = some ⟨.clock, now⟩)
    (ends : d.job.Ends now completion ws) :
    f.Alters place thread id ws (f.store.jobs.find? id) (t'.find? id) := by
  cases ends with
  | deleted once =>
    refine alters_of_isAbout hws (List.forall_mem_singleton.2 (Write.isAbout_of_subject rfl)) ?_ ?_ id
    · rw [task]
      exact fun k hk => (Option.some.inj hk).symm
    · have hgone : t'.find? d.job.id = none :=
        (JobTable.find?_writeAll hws d.job.id).trans (if_pos rfl)
      rw [hgone, stored]
      exact .ends task rfl unfailed owned clock (.deleted once)
  | @rescheduled interval recurs uuid =>
    -- The name of the next run is not taken.
    have hfree : f.store.jobs.find? (.ofUuid uuid) = none :=
      JobTable.find?_eq_none_of_inserted hfresh
        ⟨_, List.mem_cons_of_mem _ List.mem_cons_self, List.mem_singleton_self _⟩
    have hne : JobId.ofUuid uuid ≠ d.job.id := fun heq => nomatch (heq ▸ hfree).symm.trans stored
    have hafter := JobTable.find?_writeAll hws id
    rw [List.foldl_cons, List.foldl_cons, List.foldl_nil, Write.remake, Write.remake] at hafter
    by_cases hid : d.job.id = id
    · subst hid
      have hgone : t'.find? d.job.id = none :=
        hafter.trans ((if_neg hne).trans (if_pos rfl))
      rw [hgone, stored]
      exact .ends task rfl unfailed owned clock (.rescheduled recurs uuid)
    · by_cases hnamed : JobId.ofUuid uuid = id
      · subst hnamed
        have hnew : t'.find? (.ofUuid uuid) =
            some { d.job.nextRun (.ofUuid uuid) (d.job.nextOccurrence now interval) now with
              revision := 1 } := hafter.trans (if_pos rfl)
        rw [hnew, hfree]
        exact .begins task rfl unfailed stored clock recurs rfl rfl
      · have hnot : ∀ w ∈ [Write.delete d.job.id (.exactly d.job.revision),
            .insert (d.job.nextRun (.ofUuid uuid) (d.job.nextOccurrence now interval) now)],
            w.touches id = false ∧ w.reports id = false :=
          List.forall_mem_cons.2 ⟨⟨beq_eq_false_iff_ne.2 hid, rfl⟩,
            List.forall_mem_singleton.2 ⟨beq_eq_false_iff_ne.2 hnamed, rfl⟩⟩
        rw [JobTable.find?_writeAll_of_not_touches hws fun w hw => (hnot w hw).1]
        refine .leaves hnot ?_
        rw [task]
        exact fun hsame => hid (Option.some.inj hsame)

/-- What an accepted batch makes of the job of a name, if it inserts no name that is taken. -/
theorem Makes.alters {ws : List Write} {t' : JobTable} {rows : List Job}
    (h : f.Makes (fun _ _ => False) place thread ws)
    (hws : f.store.jobs.writeAll ws = .ok (t', rows))
    (hfresh : ∀ row, f.store.jobs.find? row.id = some row → ∀ w ∈ ws, row.id ∉ w.inserted)
    (id : JobId) : f.Alters place thread id ws (f.store.jobs.find? id) (t'.find? id) := by
  have hsubject : ∀ {task : Task ι ε} {name : JobId}, thread.task = task →
      (∀ k ∈ task.subject?, k = name) → ∀ k ∈ thread.task.subject?, k = name :=
    fun htask hall => htask ▸ hall
  have hsole : ∀ {name k : JobId}, k ∈ some name → k = name := fun hk => (Option.some.inj hk).symm
  cases h with
  | @locks seat batch row time now expiry task stored acquirable shown later =>
    refine alters_of_isAbout hws (List.forall_mem_singleton.2 (Write.isAbout_of_subject rfl))
      (hsubject task fun k hk => nomatch hk) ?_ id
    rw [JobTable.find?_writeAll hws, stored, List.foldl_cons, List.foldl_nil, Write.remake_lock]
    exact .locks task acquirable shown later rfl
  | @gives seat batch row task stored owned =>
    exact alters_of_update hws stored rfl (hsubject task fun k hk => nomatch hk) (.gives task rfl) id
  | @executes seat d now completion known own ending task unfailed stored owned clock pinned allowed
      ends =>
    obtain rfl : own = [] := List.eq_nil_iff_forall_not_mem.2 allowed
    rw [List.nil_append] at hws hfresh ⊢
    exact alters_of_ends hws hfresh id task unfailed stored owned clock ends
  | @releases seat d row task unfailed stored named owned =>
    exact alters_of_update hws stored rfl (hsubject task fun k hk => named ▸ hsole hk)
      (.releases task unfailed rfl) id
  | @charges seat d row error now _ task failed stored named owned fails =>
    refine alters_of_isAbout hws fails.isAbout (hsubject task fun k hk => named ▸ hsole hk) ?_ id
    rw [JobTable.find?_writeAll hws, stored]
    cases fails with
    | @retried retries due decided =>
      rw [List.foldl_cons, List.foldl_nil,
        Write.remake_update row { row.charged error with retries := retries, due := some due } _ rfl]
      exact .retries task named.symm failed owned decided rfl
    | parked incident decided =>
      rw [List.foldl_cons, Write.remake_update row { row.charged error with retries := 0 } _ rfl]
      exact .parks task named.symm rfl failed owned decided rfl
  | @stores operator job _ task stores =>
    refine alters_of_isAbout hws stores.isAbout (hsubject task fun k hk => hsole hk) ?_ id
    have hins : ∃ w ∈ ws, job.id ∈ w.inserted := by
      cases stores with
      | active active => exact ⟨_, List.mem_cons_self, List.mem_singleton_self _⟩
      | parked parked incident now =>
        exact ⟨_, List.mem_cons_of_mem _ List.mem_cons_self, List.mem_singleton_self _⟩
    rw [stores.find? hws, JobTable.find?_eq_none_of_inserted hfresh hins]
    exact .stores task rfl stores
  | @deletes operator k task =>
    refine alters_of_isAbout hws (List.forall_mem_singleton.2 (Write.isAbout_of_subject rfl))
      (hsubject task fun k hk => hsole hk) ?_ id
    obtain ⟨row, hrow⟩ := JobTable.exists_of_delete hws
    have hgone : t'.find? k = none := (JobTable.find?_writeAll hws k).trans (if_pos rfl)
    rw [hgone, hrow]
    exact .deletes task rfl
  | @resets operator row retries _ task stored resets =>
    refine alters_of_isAbout hws resets.isAbout (hsubject task fun k hk => hsole hk) ?_ id
    rw [resets.find? hws stored, stored]
    exact .resets task resets
  | @suspends operator row task stored =>
    exact alters_of_update hws stored rfl (hsubject task fun k hk => hsole hk) (.suspends task rfl) id
  | @activates operator row task stored =>
    exact alters_of_update hws stored rfl (hsubject task fun k hk => hsole hk) (.activates task rfl) id

/-! ## Steps -/

/-- With this step a batch of the task at a place is accepted. -/
structure Accepts (f f' : Fleet engine) (place : Place ι) (thread : Thread engine)
    (exchange : Exchange (Call ε)) (ws : List Write) : Prop where
  here : f.threads place = some thread
  history : f'.history = f.history ++ [⟨place, thread.task, exchange⟩]
  batch : Event.batch? (.own exchange) = some ws
  alters : ∀ id, f.Alters place thread id ws (f.store.jobs.find? id) (f'.store.jobs.find? id)

theorem Accepts.log_eq {f' : Fleet engine} {exchange : Exchange (Call ε)} {ws : List Write}
    (h : f.Accepts f' place thread exchange ws) : f'.log = f.log ++ [ws] := by
  have hbatch : Turn.batch? (⟨place, thread.task, exchange⟩ : Turn ι ε) = some ws := h.batch
  rw [log, h.history, List.filterMap_append, List.filterMap_cons_some hbatch, List.filterMap_nil, log]

/-- With this step no batch is accepted. -/
structure Rests (f f' : Fleet engine) : Prop where
  jobs : f'.store.jobs = f.store.jobs
  quiet : ∃ turn? : Option (Turn ι ε), f'.history = f.history ++ turn?.toList ∧
    ∀ turn ∈ turn?, turn.batch? = none

omit [DecidableEq ι] in
theorem Rests.log_eq {f' : Fleet engine} (h : f.Rests f') : f'.log = f.log := by
  obtain ⟨turn?, hhistory, hquiet⟩ := h.quiet
  rw [log, hhistory, List.filterMap_append, log]
  cases turn? with
  | none => exact List.append_nil _
  | some turn =>
    rw [Option.toList_some, List.filterMap_cons_none (hquiet turn rfl), List.filterMap_nil,
      List.append_nil]

theorem Step.history_prefix {f' : Fleet engine} (hstep : Step f f') : f.history <+: f'.history := by
  cases hstep with
  | enter suits vacant => exact List.prefix_rfl
  | turn here asks replies => exact List.prefix_append _ _
  | reach value => exact List.prefix_rfl

variable (hquiet : ∀ seat kind handler,
  (engine seat).handlers.resolve kind = some handler → handler.StagesNothing)

include hquiet

/-- If handlers stage nothing, a batch that is accepted alters the jobs. -/
theorem Reachable.accepts (h : Reachable s f) {call : Call ε β}
    {next : β → Routine ε thread.task.Result} {answer : β} {s' : Store} {ws : List Write}
    (here : f.threads place = some thread) (asks : thread.rest = .ask call next)
    (replies : f.Replies thread.task.seat? call answer s') (hnamed : thread.task.isNamed = true)
    (hbatch : Event.batch? (.own ⟨call, answer⟩) = some ws) (honce : s.InsertsOnce (f.log ++ [ws])) :
    f.Accepts (f.advance ⟨place, thread.task, ⟨call, answer⟩⟩ (thread.goOn asks answer) s') place thread
      ⟨call, answer⟩ ws := by
  refine ⟨here, rfl, hbatch, fun id => ?_⟩
  have hmakes := h.makes Transaction.carries_nothing (fun seat => .of_stagesNothing (hquiet seat))
    here asks replies hnamed hbatch honce
  obtain ⟨rows, hexchange⟩ := Event.batch?_own_eq_some_iff.1 hbatch
  cases hexchange
  refine hmakes.alters (Store.writeAll_of_apply replies.answered.apply) (fun row hrow => ?_) id
  have hnot := honce.not_inserted (h.commits.named hrow)
  rwa [List.flatten_singleton] at hnot

/-- If handlers stage nothing, each step alters the jobs with a batch that is accepted, or not at
all. -/
theorem Reachable.rests_or_accepts (h : Reachable s f) {f' : Fleet engine} (hstep : Step f f')
    (honce : s.InsertsOnce f'.log) (hnamed : ∀ turn ∈ f'.history, turn.task.isNamed = true) :
    f.Rests f' ∨ ∃ place thread exchange ws, f.Accepts f' place thread exchange ws := by
  cases hstep with
  | enter suits vacant => exact .inl ⟨rfl, none, (List.append_nil _).symm, fun _ h => nomatch h⟩
  | @turn place thread _ call next answer s' here asks replies =>
    cases hbatch : Event.batch? (.own ⟨call, answer⟩) with
    | none =>
      refine .inl ⟨congrArg Store.jobs (replies.answered.unchanged hbatch), some _, rfl, ?_⟩
      rintro turn ⟨⟩
      exact hbatch
    | some ws =>
      have hturn : Turn.batch? (⟨place, thread.task, ⟨call, answer⟩⟩ : Turn ι ε) = some ws := hbatch
      rw [log_advance, hturn] at honce
      have hthread := hnamed _ (List.mem_append_right _ (List.mem_singleton_self _))
      exact .inr ⟨place, thread, _, ws, h.accepts hquiet here asks replies hthread hbatch honce⟩
  | reach value => exact .inl ⟨rfl, none, (List.append_nil _).symm, fun _ h => nomatch h⟩

/-- A history can be cut before each batch that was accepted. -/
theorem Reachable.cut_accepts (h : Reachable s f) (honce : s.InsertsOnce f.log)
    (hnamed : ∀ turn ∈ f.history, turn.task.isNamed = true) {before after : List (Turn ι ε)}
    {turn : Turn ι ε} (hhistory : f.history = before ++ turn :: after) {ws : List Write}
    (hbatch : turn.batch? = some ws) :
    ∃ (g g' : Fleet engine) (thread : Thread engine), Reachable s g ∧ g.history = before ∧
      thread.task = turn.task ∧ s.InsertsOnce (g.log ++ [ws]) ∧
      g.Accepts g' turn.place thread turn.exchange ws := by
  obtain ⟨g, s', hg, hbefore, htakes, honce⟩ := h.cut_once honce hhistory
  have hturn := hnamed turn (hhistory ▸ List.mem_append_right _ List.mem_cons_self)
  rw [hbatch] at honce
  cases htakes with
  | @mk place thread _ call next answer _ here asks replies =>
    exact ⟨g, _, thread, hg, hbefore, rfl, honce,
      hg.accepts hquiet here asks replies hturn hbatch honce⟩

/-- What holds at the start and is kept by each accepted batch holds at all times, if no name is
inserted twice. -/
theorem Reachable.induction_on_batches {P : Fleet engine → Prop} (hstart : P (.start engine s))
    (hrests : ∀ {f f' : Fleet engine}, Reachable s f → f.Rests f' → P f → P f')
    (haccepts : ∀ {f f' : Fleet engine} {place : Place ι} {thread : Thread engine}
      {exchange : Exchange (Call ε)} {ws : List Write}, Reachable s f → s.InsertsOnce (f.log ++ [ws]) →
      (∀ turn ∈ f'.history, turn.task.isNamed = true) → f.Accepts f' place thread exchange ws →
      P f → P f')
    (h : Reachable s f) (honce : s.InsertsOnce f.log)
    (hnamed : ∀ turn ∈ f.history, turn.task.isNamed = true) : P f := by
  induction h with
  | start => exact hstart
  | @step f f' h hstep ih =>
    have hold : ∀ turn ∈ f.history, turn.task.isNamed = true :=
      fun turn hmem => hnamed turn (hstep.history_prefix.mem hmem)
    rcases h.rests_or_accepts hquiet hstep honce hnamed with hrest | ⟨place, thread, exchange, ws, hacc⟩
    · exact hrests h hrest (ih (hrest.log_eq ▸ honce) hold)
    · rw [hacc.log_eq] at honce
      exact haccepts h honce hnamed hacc (ih honce.of_append hold)

end Fleet

end DeferredWork

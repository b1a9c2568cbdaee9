import Mathlib.Data.List.Infix
import DeferredWork.Proofs.Fleet.Readiness

set_option autoImplicit false

/-!
# Retries account for failures

While handlers stage nothing and no operator sets retries, a job loses retries only when a worker
records its failure (`Turn.recordsFailure`), and then it loses one at least and counts the failure; the
record that takes the last of them raises the one incident that the job ever has.  So a job that is
stored with some retries has at most that many recorded failures, and once it is parked no poll returns
it (`Fleet.Reachable.retries_account_for_failures`).
-/

namespace DeferredWork

variable {ι : Type} {ε : Type → Type} {β : Type} {engine : ι → Engine ε} [DecidableEq ι]

/-- With this call, after a history, a worker records the failure of its job: it has counted a failure
before, and now a batch of it is accepted. -/
def Turn.recordsFailure (past : List (Turn ι ε)) (id : JobId) (turn : Turn ι ε) : Bool :=
  match turn.task with
  | .run _ d => d.job.id == id && turn.batch?.isSome && Fleet.hasFailed past turn.place
  | _ => false

theorem Turn.recordsFailure_eq_false {past : List (Turn ι ε)} {id : JobId} {turn : Turn ι ε}
    (h : ∀ seat d, turn.task = .run seat d → d.job.id = id →
      turn.batch? = none ∨ Fleet.hasFailed past turn.place = false) :
    turn.recordsFailure past id = false := by
  unfold recordsFailure
  split
  · rename_i seat d htask
    by_cases hname : d.job.id = id
    · rcases h seat d htask hname with hnone | hunfailed
      · rw [hnone, Option.isSome_none, Bool.and_false, Bool.false_and]
      · rw [hunfailed, Bool.and_false]
    · rw [beq_eq_false_iff_ne.2 hname, Bool.false_and, Bool.false_and]
  · rfl

theorem Turn.recordsFailure_eq_true {past : List (Turn ι ε)} {turn : Turn ι ε} {seat : ι}
    {d : Dispatched} {ws : List Write} (htask : turn.task = .run seat d) (hbatch : turn.batch? = some ws)
    (hfailed : Fleet.hasFailed past turn.place = true) : turn.recordsFailure past d.job.id = true := by
  unfold recordsFailure
  rw [htask, hbatch, hfailed]
  exact (Bool.and_true _).trans ((Bool.and_true _).trans (beq_self_eq_true d.job.id))

/-- The handlers of the engine for a kind of jobs leave it at one retry fewer after a failure. -/
def Engine.CountsDown (engine : Engine ε) (kind : String) : Prop :=
  ∀ handler, engine.handlers.resolve kind = some handler →
    ∀ job, handler.retriesAfter job = job.retries - 1

namespace Fleet

/-- How many failures of a job were recorded in a history. -/
def failureRecords (history : List (Turn ι ε)) (id : JobId) : Nat :=
  history.inits.countP fun past => past.getLast?.any (Turn.recordsFailure past.dropLast id)

/-- How many incidents of a job were raised. -/
def incidents (f : Fleet engine) (id : JobId) : Nat := f.log.flatten.countP (Write.reports id)

theorem failureRecords_append (history : List (Turn ι ε)) (turn : Turn ι ε) (id : JobId) :
    failureRecords (history ++ [turn]) id =
      failureRecords history id + if turn.recordsFailure history id then 1 else 0 := by
  have hinits : (history ++ [turn]).inits = history.inits ++ [history ++ [turn]] := by
    rw [List.inits_append]
    rfl
  rw [failureRecords, hinits, List.countP_append, failureRecords, List.countP_singleton,
    List.getLast?_concat, List.dropLast_concat]
  rfl

/-! ## One batch -/

variable {s : Store} {f f' : Fleet engine} {place : Place ι} {thread : Thread engine} {id : JobId}
  {exchange : Exchange (Call ε)} {ws : List Write}

theorem Accepts.failureRecords_eq (h : f.Accepts f' place thread exchange ws) (id : JobId) :
    failureRecords f'.history id = failureRecords f.history id +
      if Turn.recordsFailure f.history id ⟨place, thread.task, exchange⟩ then 1 else 0 := by
  rw [h.history, failureRecords_append]

theorem Accepts.incidents_eq (h : f.Accepts f' place thread exchange ws) (id : JobId) :
    f'.incidents id = f.incidents id + ws.countP (Write.reports id) := by
  rw [incidents, h.log_eq, List.flatten_append, List.flatten_singleton, List.countP_append, incidents]

theorem Rests.failureRecords_eq (h : f.Rests f') (id : JobId) :
    failureRecords f'.history id = failureRecords f.history id := by
  obtain ⟨turn?, hhistory, hquiet⟩ := h.quiet
  rw [hhistory]
  cases turn? with
  | none => rw [Option.toList_none, List.append_nil]
  | some turn =>
    have hno : turn.recordsFailure f.history id = false :=
      Turn.recordsFailure_eq_false fun _ _ _ _ => .inl (hquiet turn rfl)
    rw [Option.toList_some, failureRecords_append, hno, if_neg Bool.false_ne_true, Nat.add_zero]

omit [DecidableEq ι] in
theorem Rests.incidents_eq (h : f.Rests f') (id : JobId) : f'.incidents id = f.incidents id := by
  rw [incidents, h.log_eq, incidents]

/-- What an accepted batch means for the retries of the job of a name: they are as before, or they are
fewer by the record of a failure; and how many incidents of the job it raises. -/
inductive Bills (thread : Thread engine) (ws : List Write) (id : JobId) :
    Bool → Nat → Option Job → Option Job → Prop
  | spares {raised : Nat} {before after : Option Job}
      (silent : (∀ job ∈ ws.filterMap Write.newcomer?, job.id = id → 0 < job.retries) → raised = 0)
      (same : ∀ row ∈ before, ∀ row' ∈ after,
        row'.retries = row.retries ∧ row'.failures = row.failures) :
      Bills thread ws id false raised before after
  | charges {row row' : Job} {seat : ι} {d : Dispatched} {raised : Nat}
      (task : thread.task = .run seat d) (runs : d.job.id = id)
      (owned : row.isLockedBy (engine seat).owner = true)
      (spent : 0 < row.retries → row'.retries < row.retries)
      (counted : row'.failures = min (row.failures + 1) Job.maxFailures)
      (usual : (engine seat).CountsDown d.job.kind → row'.retries = row.retries - 1)
      (raises : raised = if row'.retries = 0 then 1 else 0) :
      Bills thread ws id true raised (some row) (some row')

section

variable {turn : Turn ι ε} {before after : Option Job}

/-- A task that has counted no failure spares the retries if it leaves those of the row alone and, unless
it stores the job without any, raises no incident. -/
theorem Bills.of_unfailed
    (hunfailed : ∀ seat d, turn.task = .run seat d → d.job.id = id →
      hasFailed f.history turn.place = false)
    (hsilent : (∀ job ∈ ws.filterMap Write.newcomer?, job.id = id → 0 < job.retries) →
      ws.countP (Write.reports id) = 0)
    (hsame : ∀ row ∈ before, ∀ row' ∈ after,
      row'.retries = row.retries ∧ row'.failures = row.failures) :
    Bills thread ws id (turn.recordsFailure f.history id) (ws.countP (Write.reports id)) before
      after := by
  rw [Turn.recordsFailure_eq_false fun seat d htask hname => .inr (hunfailed seat d htask hname)]
  exact .spares hsilent hsame

/-- The same holds of a task that runs no job. -/
theorem Bills.of_not_run (hnot : ∀ seat d, turn.task ≠ .run seat d)
    (hsilent : (∀ job ∈ ws.filterMap Write.newcomer?, job.id = id → 0 < job.retries) →
      ws.countP (Write.reports id) = 0)
    (hsame : ∀ row ∈ before, ∀ row' ∈ after,
      row'.retries = row.retries ∧ row'.failures = row.failures) :
    Bills thread ws id (turn.recordsFailure f.history id) (ws.countP (Write.reports id)) before
      after :=
  .of_unfailed (fun seat d htask => absurd htask (hnot seat d)) hsilent hsame

theorem same_of_row {row row' : Job} (hretries : row'.retries = row.retries)
    (hfailures : row'.failures = row.failures) :
    ∀ before ∈ some row, ∀ after ∈ some row',
      after.retries = before.retries ∧ after.failures = before.failures := by
  rintro _ ⟨⟩ _ ⟨⟩
  exact ⟨hretries, hfailures⟩

end

section

variable {seat : ι} {d : Dispatched} {row : Job} {error : HandlerError} {now : Instant}
  (task : thread.task = .run seat d) (owned : row.isLockedBy (engine seat).owner = true)
include task owned

omit [DecidableEq ι] in
/-- The record of a failure with retries left charges the job, and raises no incident. -/
theorem Bills.of_retry {due : Instant} {retries : Nat}
    (decided : (row.charged error).decideFailure (engine seat).backoff
      ((engine seat).handlers.resolve d.job.kind) error now = .retry retries due)
    (handed : ws = [.update { row.charged error with retries := retries, due := some due }
      (.exactly row.revision)]) :
    Bills thread ws d.job.id true (ws.countP (Write.reports d.job.id)) (some row)
      (some { row.charged error with
        retries := retries, due := some due, revision := row.revision + 1 }) := by
  subst handed
  obtain ⟨hleft, hpos⟩ := Job.decideFailure_eq_retry decided
  have hlt := Job.lt_of_decideFailure_eq_retry decided
  refine .charges task rfl owned (fun _ => hlt) rfl (fun hdown => ?_) ?_
  · exact hleft.trans (Job.retriesAfterFailure_eq fun handler hhandler => hdown handler hhandler _)
  · exact (if_neg (Nat.ne_of_gt hpos)).symm

omit [DecidableEq ι] in
/-- The record of a failure with the last retry charges the job, and raises one incident. -/
theorem Bills.of_parking {incident : Uuid} (named : row.id = d.job.id)
    (decided : (row.charged error).decideFailure (engine seat).backoff
      ((engine seat).handlers.resolve d.job.kind) error now = .incident)
    (handed : ws = [.update { row.charged error with retries := 0 } (.exactly row.revision),
      .raise (.forJob incident { row.charged error with retries := 0 } error.message error.details
        now)]) :
    Bills thread ws d.job.id true (ws.countP (Write.reports d.job.id)) (some row)
      (some { row.charged error with retries := 0, revision := row.revision + 1 }) := by
  subst handed
  refine .charges task rfl owned (fun hpos => hpos) rfl (fun hdown => ?_) ?_
  · have hzero := Job.decideFailure_eq_incident decided
    rw [Job.retriesAfterFailure_eq fun handler hhandler => hdown handler hhandler _] at hzero
    exact hzero.symm
  · have hreports : Write.reports d.job.id (.raise (.forJob incident
        { row.charged error with retries := 0 } error.message error.details now)) = true :=
      beq_iff_eq.2 named
    rw [List.countP_cons_of_neg Bool.false_ne_true, List.countP_cons_of_pos hreports]
    rfl

end

/-- What an accepted batch means for the retries of a job is read off what it makes of its row. -/
theorem Accepts.bills (h : f.Accepts f' place thread exchange ws)
    (hset : thread.task.setsRetries = false) (id : JobId) :
    Bills thread ws id (Turn.recordsFailure f.history id ⟨place, thread.task, exchange⟩)
      (ws.countP (Write.reports id)) (f.store.jobs.find? id) (f'.store.jobs.find? id) := by
  have hbatch : Turn.batch? (⟨place, thread.task, exchange⟩ : Turn ι ε) = some ws := h.batch
  have halters := h.alters id
  generalize f.store.jobs.find? id = before at halters
  generalize f'.store.jobs.find? id = after at halters
  cases halters with
  | leaves untouched other =>
    have hother : ∀ seat d, thread.task = .run seat d → d.job.id ≠ id :=
      fun seat d htask hname => other (htask ▸ congrArg some hname)
    refine .of_unfailed (fun seat d htask hname => absurd hname (hother seat d htask)) (fun _ => ?_) ?_
    · exact List.countP_eq_zero.2 fun w hw => Bool.eq_false_iff.1 (untouched w hw).2
    · intro row hrow row' hrow'
      cases Option.mem_unique hrow hrow'
      exact ⟨rfl, rfl⟩
  | locks task acquirable shown later handed =>
    subst handed
    exact .of_not_run (fun _ _ htask => nomatch task.symm.trans htask) (fun _ => rfl)
      (same_of_row rfl rfl)
  | gives task handed =>
    subst handed
    exact .of_not_run (fun _ _ htask => nomatch task.symm.trans htask) (fun _ => rfl)
      (same_of_row rfl rfl)
  | releases task unfailed handed =>
    subst handed
    exact .of_unfailed (fun _ _ _ _ => unfailed) (fun _ => rfl) (same_of_row rfl rfl)
  | retries task runs failed owned decided handed =>
    subst runs
    rw [Turn.recordsFailure_eq_true task hbatch failed]
    exact .of_retry task owned decided handed
  | parks task runs named failed owned decided handed =>
    subst runs
    rw [Turn.recordsFailure_eq_true task hbatch failed]
    exact .of_parking task owned named decided handed
  | ends task runs unfailed owned clock ends =>
    refine .of_unfailed (fun _ _ _ _ => unfailed) (fun _ => ?_) fun _ _ _ hnone => nomatch hnone
    cases ends with
    | deleted once => rfl
    | rescheduled recurs uuid => rfl
  | begins task named unfailed stored clock recurs succeeds handed =>
    subst handed
    exact .of_unfailed (fun _ _ _ _ => unfailed) (fun _ => rfl) fun _ hnone => nomatch hnone
  | stores task named stores =>
    refine .of_not_run (fun _ _ htask => nomatch task.symm.trans htask) (fun hpos => ?_)
      fun _ hnone => nomatch hnone
    cases stores with
    | active active => rfl
    | parked parked incident now =>
      -- A job that is scheduled without retries comes with an incident.
      have hjob := hpos _ (List.mem_singleton_self _) named
      exact absurd (eq_of_beq parked) (Nat.ne_of_gt hjob)
  | deletes task handed =>
    subst handed
    exact .of_not_run (fun _ _ htask => nomatch task.symm.trans htask) (fun _ => rfl)
      fun _ _ _ hnone => nomatch hnone
  | resets task resets =>
    rw [task] at hset
    cases hset
  | suspends task handed | activates task handed =>
    subst handed
    exact .of_not_run (fun _ _ htask => nomatch task.symm.trans htask) (fun _ => rfl)
      (same_of_row rfl rfl)

/-! ## Runs -/

/-- What is said of a job that was stored first with some retries. -/
structure Accounts (f : Fleet engine) (job : Job) : Prop where
  records_le : failureRecords f.history job.id ≤ job.retries
  incidents_le : f.incidents job.id ≤ 1
  stored : ∀ row, f.store.jobs.find? job.id = some row →
    failureRecords f.history job.id + row.retries ≤ job.retries ∧
      f.incidents job.id = if row.retries = 0 then 1 else 0
  usual : (∀ seat, (engine seat).CountsDown job.kind) →
    (∀ row, f.store.jobs.find? job.id = some row →
      failureRecords f.history job.id + row.retries = job.retries) ∧
    (f.incidents job.id ≠ 0 → failureRecords f.history job.id = job.retries)

/-- A job that was stored with some retries, and of which an incident was raised, is not polled. -/
theorem Accounts.not_polled {job : Job} (h : f.Accounts job) (hraised : f.incidents job.id ≠ 0)
    (now : Instant) (limit : Nat) : ∀ row ∈ f.store.jobs.poll now limit, row.id ≠ job.id := by
  intro row hrow hname
  obtain ⟨hmem, heligible⟩ := JobTable.mem_poll hrow
  have hstored := JobTable.find?_eq_some_of_mem hmem
  rw [hname] at hstored
  have hpos := (Job.ready_of_isAcquirable (Bool.and_eq_true_iff.1 heligible).1).2
  rw [(h.stored row hstored).2, if_neg (Nat.ne_of_gt hpos)] at hraised
  exact hraised rfl

/-- A step with which nothing is counted of a job, and which leaves it its retries, keeps its
accounts. -/
theorem Accounts.of_same {job : Job} (h : f.Accounts job)
    (hrecords : failureRecords f'.history job.id = failureRecords f.history job.id)
    (hincidents : f'.incidents job.id = f.incidents job.id)
    (hsame : ∀ row', f'.store.jobs.find? job.id = some row' →
      ∃ row, f.store.jobs.find? job.id = some row ∧ row'.retries = row.retries) :
    f'.Accounts job := by
  refine ⟨?_, ?_, fun row' hrow' => ?_, fun husual => ⟨fun row' hrow' => ?_, ?_⟩⟩
  · rw [hrecords]
    exact h.records_le
  · rw [hincidents]
    exact h.incidents_le
  · obtain ⟨row, hrow, hretries⟩ := hsame row' hrow'
    rw [hrecords, hincidents, hretries]
    exact h.stored row hrow
  · obtain ⟨row, hrow, hretries⟩ := hsame row' hrow'
    rw [hrecords, hretries]
    exact (h.usual husual).1 row hrow
  · rw [hrecords, hincidents]
    exact (h.usual husual).2

/-- A step that records a failure of a job and takes a retry of it keeps its accounts. -/
theorem Accounts.of_charge {job row row' : Job} (h : f.Accounts job)
    (hrecords : failureRecords f'.history job.id = failureRecords f.history job.id + 1)
    (hincidents : f'.incidents job.id = f.incidents job.id + if row'.retries = 0 then 1 else 0)
    (hrow : f.store.jobs.find? job.id = some row) (hrow' : f'.store.jobs.find? job.id = some row')
    (hspent : row'.retries < row.retries)
    (hdown : (∀ seat, (engine seat).CountsDown job.kind) → row'.retries = row.retries - 1) :
    f'.Accounts job := by
  obtain ⟨hle, hnone⟩ := h.stored row hrow
  rw [if_neg (Nat.ne_of_gt (Nat.zero_lt_of_lt hspent))] at hnone
  rw [hnone, Nat.zero_add] at hincidents
  refine ⟨?_, ?_, fun after hafter => ?_, fun husual => ⟨fun after hafter => ?_, fun hraised => ?_⟩⟩
  · omega
  · rw [hincidents]
    split <;> decide
  · cases hrow'.symm.trans hafter
    exact ⟨by omega, hincidents⟩
  · cases hrow'.symm.trans hafter
    have hexact := (h.usual husual).1 row hrow
    have hone := hdown husual
    omega
  · have hexact := (h.usual husual).1 row hrow
    have hone := hdown husual
    rw [hincidents] at hraised
    split at hraised
    · omega
    · exact absurd rfl hraised

/-- The batch is not one of an operator who sets retries, if the history holds no call of such a task. -/
theorem Accepts.not_setsRetries (h : f.Accepts f' place thread exchange ws)
    (hset : ∀ turn ∈ f'.history, turn.task.setsRetries = false) :
    (∀ turn ∈ f.history, turn.task.setsRetries = false) ∧ thread.task.setsRetries = false := by
  rw [h.history, List.forall_mem_append] at hset
  exact ⟨hset.1, hset.2 _ (List.mem_singleton_self _)⟩

variable (hquiet : ∀ seat kind handler,
  (engine seat).handlers.resolve kind = some handler → handler.StagesNothing)

include hquiet

/-- Nothing is counted of a job that was never stored. -/
theorem Reachable.uncounted (h : Reachable s f) (honce : s.InsertsOnce f.log)
    (hnamed : ∀ turn ∈ f.history, turn.task.isNamed = true)
    (hset : ∀ turn ∈ f.history, turn.task.setsRetries = false)
    (hnew : ∀ birth ∈ s.births f.log.flatten, birth.id ≠ id) :
    failureRecords f.history id = 0 ∧ f.incidents id = 0 := by
  revert hset hnew
  refine h.induction_on_batches hquiet (P := fun f =>
    (∀ turn ∈ f.history, turn.task.setsRetries = false) →
      (∀ birth ∈ s.births f.log.flatten, birth.id ≠ id) →
      failureRecords f.history id = 0 ∧ f.incidents id = 0) ?_ ?_ ?_ honce hnamed
  · exact fun _ _ => ⟨rfl, rfl⟩
  · intro f f' _ hrests ih hset hnew
    obtain ⟨turn?, hhistory, -⟩ := hrests.quiet
    rw [hrests.failureRecords_eq, hrests.incidents_eq]
    rw [hhistory, List.forall_mem_append] at hset
    rw [hrests.log_eq] at hnew
    exact ih hset.1 hnew
  · intro f f' place thread exchange ws h honce hnamed hacc ih hset hnew
    rw [hacc.births_eq] at hnew
    obtain ⟨hold, hnewcomers⟩ := List.forall_mem_append.1 hnew
    obtain ⟨hsetOld, hsetThread⟩ := hacc.not_setsRetries hset
    rw [hacc.history] at hnamed
    have hfree : f.store.jobs.find? id = none := by
      refine Option.eq_none_iff_forall_not_mem.2 fun row hrow => ?_
      obtain ⟨birth, hbirth, hname, -⟩ :=
        h.born hquiet honce.of_append (List.forall_mem_append.1 hnamed).1 hrow
      exact hold birth hbirth hname
    have hbills := hacc.bills hsetThread id
    rw [hfree] at hbills
    rw [hacc.failureRecords_eq, hacc.incidents_eq]
    obtain ⟨hrecords, hincidents⟩ := ih hsetOld hold
    rw [hrecords, hincidents]
    generalize Turn.recordsFailure f.history id _ = recorded at hbills ⊢
    generalize ws.countP (Write.reports id) = raised at hbills ⊢
    cases hbills with
    | spares silent same =>
      exact ⟨rfl, (Nat.zero_add _).trans (silent fun job hjob hname => absurd hname (hnewcomers job hjob))⟩

/-- A batch that is accepted keeps the accounts of a job that was stored before. -/
theorem Accounts.of_accepts (h : Reachable s f) (honce : s.InsertsOnce (f.log ++ [ws]))
    (hnamed : ∀ turn ∈ f.history, turn.task.isNamed = true)
    (hset : ∀ turn ∈ f.history, turn.task.setsRetries = false)
    (hacc : f.Accepts f' place thread exchange ws) (hsetThread : thread.task.setsRetries = false)
    {job : Job} (hbirth : job ∈ s.births f.log.flatten) (haccounts : f.Accounts job) :
    f'.Accounts job := by
  have hbills := hacc.bills hsetThread job.id
  have hrecords := hacc.failureRecords_eq job.id
  have hincidents := hacc.incidents_eq job.id
  have hnewcomers : ∀ other ∈ ws.filterMap Write.newcomer?, other.id ≠ job.id :=
    fun other hother => honce.newcomer_ne hbirth hother
  have hafter : ∀ row', f'.store.jobs.find? job.id = some row' →
      ∃ row, f.store.jobs.find? job.id = some row := by
    intro row' hrow'
    cases hbefore : f.store.jobs.find? job.id with
    | some row => exact ⟨row, rfl⟩
    | none =>
      have halters := hacc.alters job.id
      rw [hbefore, hrow'] at halters
      obtain ⟨other, hother, hname, -⟩ := halters.newcomer
      exact absurd hname (hnewcomers other hother)
  generalize Turn.recordsFailure f.history job.id _ = recorded at hbills hrecords
  generalize ws.countP (Write.reports job.id) = raised at hbills hincidents
  generalize hbefore : f.store.jobs.find? job.id = before at hbills hafter
  generalize hstored : f'.store.jobs.find? job.id = after at hbills
  cases hbills with
  | spares silent same =>
    rw [silent fun other hother hname => absurd hname (hnewcomers other hother)] at hincidents
    rw [if_neg Bool.false_ne_true] at hrecords
    refine haccounts.of_same hrecords hincidents fun row' hrow' => ?_
    obtain ⟨row, rfl⟩ := hafter row' hrow'
    exact ⟨row, hbefore, (same row rfl row' (hstored ▸ hrow')).1⟩
  | @charges row row' seat d _ task runs owned spent counted usual raises =>
    have howned : row.owner ≠ none := by
      rw [eq_of_beq owned]
      exact Option.some_ne_none _
    have hpos := h.retries_of_run hquiet honce.of_append hnamed hset hacc.here task
      (runs ▸ hbefore) howned
    rw [if_pos rfl] at hrecords
    rw [raises] at hincidents
    refine haccounts.of_charge hrecords hincidents hbefore hstored (spent hpos) fun husual => ?_
    obtain ⟨birth, hmem, hname, hdefinition⟩ :=
      h.born_of_run hquiet honce.of_append hnamed hacc.here task
    obtain rfl := honce.of_append.birth_eq hmem hbirth (hname.trans runs)
    refine usual ?_
    rw [← show birth.kind = d.job.kind from congrArg Job.Definition.kind hdefinition]
    exact husual seat

/-- A batch that stores a job with some retries opens its accounts. -/
theorem Accounts.of_newcomer (h : Reachable s f) (honce : s.InsertsOnce (f.log ++ [ws]))
    (hnamed : ∀ turn ∈ f.history, turn.task.isNamed = true)
    (hset : ∀ turn ∈ f.history, turn.task.setsRetries = false)
    (hacc : f.Accepts f' place thread exchange ws) (hsetThread : thread.task.setsRetries = false)
    {job : Job} (hnew : job ∈ ws.filterMap Write.newcomer?) (hpos : 0 < job.retries) :
    f'.Accounts job := by
  have hself : ∀ other ∈ ws.filterMap Write.newcomer?, other.id = job.id → other = job := by
    intro other hother hname
    refine honce.birth_eq ?_ ?_ hname <;>
      rw [List.flatten_append, List.flatten_singleton, Store.births_append]
    · exact List.mem_append_right _ hother
    · exact List.mem_append_right _ hnew
  have hunknown : ∀ birth ∈ s.births f.log.flatten, birth.id ≠ job.id :=
    fun birth hbirth hname => honce.newcomer_ne hbirth hnew hname.symm
  have hfree : f.store.jobs.find? job.id = none := by
    refine Option.eq_none_iff_forall_not_mem.2 fun row hrow => ?_
    obtain ⟨birth, hbirth, hname, -⟩ := h.born hquiet honce.of_append hnamed hrow
    exact hunknown birth hbirth hname
  have hafter : ∀ row, f'.store.jobs.find? job.id = some row → row.retries = job.retries := by
    intro row hrow
    have halters := hacc.alters job.id
    rw [hfree, hrow] at halters
    obtain ⟨other, hother, hname, rfl⟩ := halters.newcomer
    rw [hself other hother hname]
  have hbills := hacc.bills hsetThread job.id
  have hrecords := hacc.failureRecords_eq job.id
  have hincidents := hacc.incidents_eq job.id
  obtain ⟨hnoRecords, hnoIncidents⟩ := h.uncounted hquiet honce.of_append hnamed hset hunknown
  rw [hnoRecords] at hrecords
  rw [hnoIncidents] at hincidents
  rw [hfree] at hbills
  generalize Turn.recordsFailure f.history job.id _ = recorded at hbills hrecords
  generalize ws.countP (Write.reports job.id) = raised at hbills hincidents
  cases hbills with
  | spares silent same =>
    replace hrecords : failureRecords f'.history job.id = 0 := hrecords
    rw [silent fun other hother hname => (hself other hother hname).symm ▸ hpos] at hincidents
    refine ⟨?_, ?_, fun row hrow => ?_, fun _ => ⟨fun row hrow => ?_, fun hraised => ?_⟩⟩
    · exact hrecords ▸ Nat.zero_le _
    · exact hincidents ▸ Nat.zero_le _
    · rw [hrecords, hincidents, hafter row hrow, if_neg (Nat.ne_of_gt hpos), Nat.zero_add]
      exact ⟨Nat.le_refl _, rfl⟩
    · rw [hrecords, hafter row hrow, Nat.zero_add]
    · exact absurd hincidents hraised

/-- The accounts of every job that was stored first with some retries. -/
theorem Reachable.accounts (h : Reachable s f) (honce : s.InsertsOnce f.log)
    (hnamed : ∀ turn ∈ f.history, turn.task.isNamed = true)
    (hset : ∀ turn ∈ f.history, turn.task.setsRetries = false) :
    ∀ job ∈ s.births f.log.flatten, 0 < job.retries → f.Accounts job := by
  revert hset
  refine h.induction_on_batches hquiet (P := fun f =>
    (∀ turn ∈ f.history, turn.task.setsRetries = false) →
      ∀ job ∈ s.births f.log.flatten, 0 < job.retries → f.Accounts job) ?_ ?_ ?_ honce hnamed
  · intro _ job hjob hpos
    have hrow : ∀ row, s.jobs.find? job.id = some row → row = job := by
      intro row hrow
      rcases List.mem_append.1 hjob with hmem | hmem
      · exact Option.some.inj (hrow.symm.trans (JobTable.find?_eq_some_of_mem hmem))
      · cases hmem
    refine ⟨Nat.zero_le _, Nat.zero_le _, fun row hstored => ?_, fun _ => ⟨fun row hstored => ?_, ?_⟩⟩
    · obtain rfl := hrow row hstored
      exact ⟨(Nat.zero_add _).le, (if_neg (Nat.ne_of_gt hpos)).symm⟩
    · obtain rfl := hrow row hstored
      exact Nat.zero_add _
    · exact fun hraised => absurd rfl hraised
  · intro f f' _ hrests ih hset job hjob hpos
    obtain ⟨turn?, hhistory, -⟩ := hrests.quiet
    rw [hhistory, List.forall_mem_append] at hset
    rw [hrests.log_eq] at hjob
    refine (ih hset.1 job hjob hpos).of_same (hrests.failureRecords_eq job.id)
      (hrests.incidents_eq job.id) fun row hrow => ⟨row, ?_, rfl⟩
    rwa [← hrests.jobs]
  · intro f f' place thread exchange ws h honce hnamed hacc ih hset job hjob hpos
    obtain ⟨hsetOld, hsetThread⟩ := hacc.not_setsRetries hset
    rw [hacc.history, List.forall_mem_append] at hnamed
    rw [hacc.births_eq] at hjob
    rcases List.mem_append.1 hjob with hold | hnew
    · exact (ih hsetOld job hold hpos).of_accepts hquiet h honce hnamed.1 hsetOld hacc hsetThread hold
    · exact .of_newcomer hquiet h honce hnamed.1 hsetOld hacc hsetThread hnew hpos

/-- In each step a stored job keeps its retries and its failures; or one failure of it is recorded, it
has fewer retries after that and one failure more, and an incident is raised if no retries are left.
Of a job that was stored first with some retries, no more failures are recorded than it had retries,
and exactly as many by the time that it is parked if its handlers take one retry each; at most one
incident of it is raised, and from then on no poll returns it. -/
theorem Reachable.retries_account_for_failures (h : Reachable s f) (hstep : Step f f')
    (honce : s.InsertsOnce f'.log) (hnamed : ∀ turn ∈ f'.history, turn.task.isNamed = true)
    (hset : ∀ turn ∈ f'.history, turn.task.setsRetries = false) :
    (∀ id row row', f.store.jobs.find? id = some row → f'.store.jobs.find? id = some row' →
      (row'.retries = row.retries ∧ row'.failures = row.failures ∧
        failureRecords f'.history id = failureRecords f.history id ∧
        f'.incidents id = f.incidents id) ∨
      (row'.retries < row.retries ∧ row'.failures = min (row.failures + 1) Job.maxFailures ∧
        failureRecords f'.history id = failureRecords f.history id + 1 ∧
        f'.incidents id = f.incidents id + if row'.retries = 0 then 1 else 0)) ∧
    ∀ job ∈ s.births f'.log.flatten, 0 < job.retries →
      f'.Accounts job ∧ (f'.incidents job.id ≠ 0 →
        ∀ now limit, ∀ row ∈ f'.store.jobs.poll now limit, row.id ≠ job.id) := by
  refine ⟨fun id row row' hrow hrow' => ?_, fun job hjob hpos => ?_⟩
  · rcases h.rests_or_accepts hquiet hstep honce hnamed with
      hrests | ⟨place, thread, exchange, ws, hacc⟩
    · rw [hrests.jobs, hrow] at hrow'
      cases hrow'
      exact .inl ⟨rfl, rfl, hrests.failureRecords_eq id, hrests.incidents_eq id⟩
    · obtain ⟨hsetOld, hsetThread⟩ := hacc.not_setsRetries hset
      rw [hacc.history, List.forall_mem_append] at hnamed
      rw [hacc.log_eq] at honce
      have hbills := hacc.bills hsetThread id
      rw [hrow, hrow'] at hbills
      rw [hacc.failureRecords_eq, hacc.incidents_eq]
      generalize Turn.recordsFailure f.history id _ = recorded at hbills ⊢
      generalize ws.countP (Write.reports id) = raised at hbills ⊢
      cases hbills with
      | spares silent same =>
        obtain ⟨hretries, hfailures⟩ := same row rfl row' rfl
        obtain ⟨birth, hbirth, hname, -⟩ := h.born hquiet honce.of_append hnamed.1 hrow
        refine .inl ⟨hretries, hfailures, rfl, ?_⟩
        rw [silent fun job hjob hid =>
          absurd (hid.trans hname.symm) (honce.newcomer_ne hbirth hjob), Nat.add_zero]
      | charges task runs owned spent counted usual raises =>
        subst runs
        have howned : row.owner ≠ none := by
          rw [eq_of_beq owned]
          exact Option.some_ne_none _
        have hpos := h.retries_of_run hquiet honce.of_append hnamed.1 hsetOld hacc.here task hrow howned
        exact .inr ⟨spent hpos, counted, rfl, congrArg _ raises⟩
  · have haccounts := (h.step hstep).accounts hquiet honce hnamed hset job hjob hpos
    exact ⟨haccounts, haccounts.not_polled⟩

end Fleet

/-! ## A job that is parked -/

/-- A stored job with one retry, of a kind that the two engines have no handler for. -/
def Job.unhandled (name : String) : Job := { Job.mail name with kind := "fax", retries := 1 }

namespace Fleet

/-- The worker of the left engine has counted the failure of the first job, and is about to record it. -/
def parking : Fleet Engine.ofPair :=
  (start Engine.ofPair (.ofTwo (.unhandled "first") (.mail "second"))).play
    [.begin (.cycle true) (.acquire true 1) rfl, .call (.cycle true) 12 .early,
      .call (.worker 8) 4 .early]

/-- The failure is recorded. -/
def parked : Fleet Engine.ofPair := parking.call .early (.worker 8)

theorem unhandled_job_is_parked :
    Reachable (.ofTwo (.unhandled "first") (.mail "second")) parking ∧ Step parking parked ∧
      (Store.ofTwo (.unhandled "first") (.mail "second")).InsertsOnce parked.log ∧
      (parked.history.all fun turn => turn.task.isNamed && !turn.task.setsRetries) = true ∧
      Job.unhandled "first" ∈
        (Store.ofTwo (.unhandled "first") (.mail "second")).births parked.log.flatten ∧
      (parked.store.jobs.find? ⟨"first"⟩).map (fun row => (row.retries, row.failures)) = some (0, 1) ∧
      failureRecords parked.history ⟨"first"⟩ = 1 ∧ parked.incidents ⟨"first"⟩ = 1 ∧
      ∀ now limit, ∀ row ∈ parked.store.jobs.poll now limit, row.id ≠ ⟨"first"⟩ := by
  have hreachable : Reachable (.ofTwo (.unhandled "first") (.mail "second")) parking :=
    Reachable.start.play _
  have hgoes : parked.history.length ≠ parking.history.length := by decide +kernel
  have hstep : Step parking parked :=
    (parking.eq_or_step_call .early (.worker 8)).resolve_left fun hsame =>
      hgoes (congrArg (fun f => f.history.length) hsame)
  have honce : (Store.ofTwo (.unhandled "first") (.mail "second")).InsertsOnce parked.log := by
    unfold Store.InsertsOnce
    decide +kernel
  have htasks : (parked.history.all fun turn => turn.task.isNamed && !turn.task.setsRetries) = true := by
    decide +kernel
  have hbirth : Job.unhandled "first" ∈
      (Store.ofTwo (.unhandled "first") (.mail "second")).births parked.log.flatten := by
    decide +kernel
  have hincidents : parked.incidents ⟨"first"⟩ = 1 := by decide +kernel
  have hall := fun turn hmem => Bool.and_eq_true_iff.1 (List.all_eq_true.1 htasks turn hmem)
  have haccounts := (hreachable.retries_account_for_failures
    (fun _ _ _ => Engine.stagesNothing_ofPair) hstep honce (fun turn hmem => (hall turn hmem).1)
    (fun turn hmem => Bool.not_eq_true' _ ▸ (hall turn hmem).2)).2 _ hbirth Nat.one_pos
  exact ⟨hreachable, hstep, honce, htasks, hbirth, by decide +kernel, by decide +kernel, hincidents,
    haccounts.2 (hincidents ▸ Nat.one_ne_zero)⟩

end Fleet

end DeferredWork

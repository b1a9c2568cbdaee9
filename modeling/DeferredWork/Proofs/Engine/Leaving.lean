import DeferredWork.Proofs.Engine.Handing
import DeferredWork.Proofs.Routine.Play
import DeferredWork.Proofs.Transaction.Solitude

set_option autoImplicit false

/-!
# What an execution leaves

An engine that runs a job while nobody else commits anything leaves one of four things
(`Engine.Leaves`): the jobs and incidents after one batch, of what the handler staged and of the end
of the job; the job without its lock; the job charged with a failure, with an incident if that was
its last retry; or everything as it was.  The result says which, whatever the handler does with the
job and whenever the store goes out of reach (`Engine.run_leaves`).
-/

namespace DeferredWork

variable {ε : Type → Type} {α : Type}

namespace Engine

variable (engine : Engine ε) (setting : Setting) (job : Job) (c : Contents)

/-- The batch of an execution that gets that far: what the handler staged for the stored row, which
is still the one that the engine locked, and then the end of that row. -/
inductive Hands : Completion → List Write → Prop
  | mk {handler : Handler ε} {row : Job} {now : Instant} {said : List (Exchange (Request ε))}
      {calls : List (Exchange (Call ε))} {ctx : Context} {completion : Completion}
      {ending : List Write} (resolved : engine.handlers.resolve job.kind = some handler)
      (stored : c.jobs.find? job.id = some row) (current : row.revision = job.revision)
      (locked : row.isLockedBy engine.owner = true)
      (leads : (handler.handle row).run.Leads said (.done (.ok ())))
      (served : (Context.observe { now := now } row).ServesAll said calls ctx)
      (told : ∀ exchange ∈ said, c.Tells setting exchange) (ends : row.Ends now completion ending) :
      Hands completion (ctx.writes ++ ending)

/-- A transaction of the engine may fail for want of the store or of time. -/
def Hindered : Prop := engine.limit = .zero ∨ setting.outages

/-- What may come of the transaction that executes a job. -/
inductive Performs : Except TransactionError ExecutionOutcome → Contents → Prop
  | committed {completion : Completion} {ws : List Write} {c' : Contents}
      (hands : engine.Hands setting job c completion ws) (takes : c.Takes ws c') :
      Performs (.ok (.committed completion)) c'
  /-- The stored row is not the one that the engine locked. -/
  | stale (changed : ∀ row, c.jobs.find? job.id = some row →
      ¬ (row.revision = job.revision ∧ row.isLockedBy engine.owner = true)) :
      Performs (.ok .contention) c
  | contended {completion : Completion} {ws : List Write} {e : StoreError}
      (hands : engine.Hands setting job c completion ws) (refuses : c.Refuses ws e)
      (contention : e.isContention = true) : Performs (.ok .contention) c
  | failed (error : HandlerError) : Performs (.ok (.handlerFailed error)) c
  | rejected {completion : Completion} {ws : List Write} {e : StoreError}
      (hands : engine.Hands setting job c completion ws) (refuses : c.Refuses ws e)
      (rejection : e.isContention = false) : Performs (.error (.ofStore e)) c
  | unreachable (outage : setting.outages) : Performs (.error (.ofStore Store.outOfReach)) c

/-- What may be left when the engine releases its lock on a job. -/
inductive Frees (id : JobId) : Contents → Prop
  | released {row : Job} (stored : c.jobs.find? id = some row)
      (locked : row.isLockedBy engine.owner = true) : Frees id (c.update row.released)
  | notHeld (free : ∀ row, c.jobs.find? id = some row → row.isLockedBy engine.owner = false) :
      Frees id c

/-- What may be left of an execution that failed. -/
inductive Charges (error : HandlerError) : Contents → Prop
  | retried {row : Job} {now due : Instant} {retries : Nat}
      (stored : c.jobs.find? job.id = some row) (locked : row.isLockedBy engine.owner = true)
      (decided : (row.charged error).decideFailure engine.backoff
        (engine.handlers.resolve job.kind) error now = .retry retries due) :
      Charges error (c.update { row.charged error with retries := retries, due := some due })
  | parked {row : Job} {now : Instant} (id : Uuid)
      (stored : c.jobs.find? job.id = some row) (locked : row.isLockedBy engine.owner = true)
      (decided : (row.charged error).decideFailure engine.backoff
        (engine.handlers.resolve job.kind) error now = .incident) :
      Charges error ((c.update { row.charged error with retries := 0 }).raise
        (.forJob id { row.charged error with retries := 0 } error.message error.details now))
  | notHeld (free : ∀ row, c.jobs.find? job.id = some row → row.isLockedBy engine.owner = false) :
      Charges error c

/-- What an execution and its settlement leave of the contents that they found, as the result
says. -/
inductive Leaves : Except TransactionError ExecutionOutcome → Contents → Prop
  | committed {completion : Completion} {ws : List Write} {c' : Contents}
      (hands : engine.Hands setting job c completion ws) (takes : c.Takes ws c') :
      Leaves (.ok (.committed completion)) c'
  | contention {c' : Contents} (performs : engine.Performs setting job c (.ok .contention) c)
      (frees : engine.Frees c job.id c') : Leaves (.ok .contention) c'
  | handlerFailed {error : HandlerError} {c' : Contents}
      (charges : engine.Charges job c error c') : Leaves (.ok (.handlerFailed error)) c'
  | failed {e : TransactionError} (performs : engine.Performs setting job c (.error e) c) :
      Leaves (.error e) c
  | unsettled {e : TransactionError} (hindered : engine.Hindered setting) : Leaves (.error e) c

end Engine

/-! ## Commands -/

namespace Command

variable {setting : Setting} {c : Contents} {broken : String → Prop}

theorem yields_complete {row : Job} {ctx : Context}
    {post : Except TransactionError Completion → Context → Prop}
    (hobserved : ctx.observed? row.id = some row.revision)
    (hends : ∀ completion ending ctx', row.Ends ctx.now completion ending →
      ctx'.writes = ctx.writes ++ ending → post (.ok completion) ctx') :
    (complete (ε := ε) row).run.Yields setting c post broken ctx := by
  have hdelete : ctx.writeOf (.delete row) = .delete row.id (.exactly row.revision) := by
    rw [Context.writeOf, Context.guard, hobserved, Option.getD_some]
  unfold complete
  split
  · rename_i interval hinterval
    refine yields_now_bind (yields_draw_bind fun id => yields_stage_bind (yields_stage_bind ?_))
    refine yields_pure (hends _ _ _ (.rescheduled hinterval id) ?_)
    rw [← hdelete, Context.stage, Context.stage, List.append_assoc]
    rfl
  · rename_i hinterval
    refine yields_stage_bind (yields_pure (hends _ _ _ (.deleted hinterval) ?_))
    rw [← hdelete]
    rfl

end Command

/-- A batch that begins with the update of a row that the body has read is taken if the rest of it
is. -/
theorem Contents.takes_first_update {c c' : Contents} {now : Instant} {row job : Job}
    {ws : List Write} (stored : c.jobs.find? row.id = some row) (hname : job.id = row.id)
    (hrev : job.revision = row.revision) (htakes : (c.update job).Takes ws c') :
    c.Takes ((Context.observe { now := now } row).writeOf (.update job) :: ws) c' := by
  rw [Context.writeOf_update_observe now hname]
  exact takes_cons.2 ⟨_, allows_update (hname ▸ stored) hrev, htakes⟩

namespace Engine

open Routine

variable (engine : Engine ε) {setting : Setting} (job : Job) {c : Contents}

theorem ensures_execute :
    (engine.execute job).Ensures setting (engine.Performs setting job c) c := by
  unfold execute
  split
  · exact .failed _
  · rename_i handler hresolve
    refine ensures_bind.2 (Transaction.ensures_run fun now => ?_)
    refine Command.yields_find_bind (fun row hrow => ?_) (fun hnone => ?_) fun hout => ?_
    · dsimp only
      split
      · rename_i hcurrent
        obtain ⟨hrevision, hlocked⟩ := hcurrent
        refine Command.yields_ofHandling_bind (fun said calls ctx hleads hserved htold => ?_)
          (fun e _ => .failed e) (fun reason => .failed (.ofAbort reason))
        have hnow : ctx.now = now := hserved.now_eq.trans (Context.now_observe _ row)
        have hobserved : ctx.observed? row.id = some row.revision := by
          rw [hserved.observed? row.id, Context.observed?_observe, if_pos rfl]
          rfl
        refine Command.yields_complete hobserved fun completion ending ctx' hends hwrites => ?_
        rw [hnow] at hends
        have hhands := Hands.mk hresolve hrow hrevision hlocked hleads hserved htold hends
        rw [← hwrites] at hhands
        rw [Transaction.Closes]
        split
        · exact .failed _
        · refine ⟨fun c' htakes => .committed hhands htakes, fun e hrefuses => ?_, .unreachable⟩
          cases e <;> first
            | exact .contended hhands hrefuses rfl
            | exact .rejected hhands hrefuses rfl
      · rename_i hchanged
        exact .stale fun found hfound => Option.some.inj (hrow.symm.trans hfound) ▸ hchanged
    · exact .stale fun row hrow => absurd (hnone.symm.trans hrow) (Option.some_ne_none row).symm
    · exact .unreachable hout

theorem isLockedBy_of_stored {id : JobId} {row : Job} {owner : Owner}
    (hrow : c.jobs.find? id = some row) (hfree : ¬ row.isLockedBy owner = true) :
    ∀ found, c.jobs.find? id = some found → found.isLockedBy owner = false := by
  intro found hfound
  rw [← Option.some.inj (hrow.symm.trans hfound)]
  exact Bool.not_eq_true _ ▸ hfree

/-- The result of a settlement: contention is no failure of it. -/
def settled : Except TransactionError α → Except TransactionError Unit
  | .ok _ => .ok ()
  | .error e => if e.isContention then .ok () else .error e

/-- What a settlement leaves: what it should, or everything as it was if it was hindered. -/
inductive Settles (engine : Engine ε) (setting : Setting) (c : Contents) (left : Contents → Prop) :
    Except TransactionError Unit → Contents → Prop
  | done {c' : Contents} (leaves : left c') : Settles engine setting c left (.ok ()) c'
  | hindered {e : TransactionError} (hindered : engine.Hindered setting) :
      Settles engine setting c left (.error e) c

theorem settles_of_hindered {engine : Engine ε} {left : Contents → Prop}
    (h : engine.Hindered setting) (e : TransactionError) (he : e.isContention = false) :
    engine.Settles setting c left (settled (α := α) (.error e)) c := by
  rw [settled, he]
  exact .hindered h

theorem ensures_releaseLock (engine : Engine ε) (id : JobId) :
    (engine.transact (.releaseLock id engine.owner)).Ensures setting
      (fun result => engine.Settles setting c (engine.Frees c id) (settled result)) c := by
  refine Transaction.ensures_run fun now => ?_
  refine Command.yields_find_bind (fun row hrow => ?_) (fun hnone => ?_) fun h =>
    Transaction.closes_error (settles_of_hindered (.inr h) _ rfl)
  · dsimp only
    split
    · rename_i hlocked
      obtain rfl := JobTable.id_of_find? hrow
      refine Command.yields_stage_bind (Command.yields_pure
        (Transaction.closes_of_takes rfl ?_ (.done (.released hrow hlocked)) settles_of_hindered))
      exact Contents.takes_first_update hrow rfl rfl (Contents.takes_nil.2 rfl)
    · rename_i hfree
      exact Command.yields_pure (Transaction.closes_of_takes rfl (Contents.takes_nil.2 rfl)
        (.done (.notHeld (isLockedBy_of_stored hrow hfree))) settles_of_hindered)
  · exact Command.yields_pure (Transaction.closes_of_takes rfl (Contents.takes_nil.2 rfl)
      (.done (.notHeld fun _ hfound => nomatch hnone.symm.trans hfound)) settles_of_hindered)

theorem ensures_recordFailure (engine : Engine ε) (job : Job) (error : HandlerError) :
    (engine.transact (.recordFailure job.id engine.owner error (engine.handlers.resolve job.kind)
      engine.backoff)).Ensures setting
      (fun result => engine.Settles setting c (engine.Charges job c error) (settled result))
      c := by
  refine Transaction.ensures_run fun now => ?_
  refine Command.yields_find_bind (fun row hrow => ?_) (fun hnone => ?_) fun h =>
    Transaction.closes_error (settles_of_hindered (.inr h) _ rfl)
  · have hstored := hrow
    rw [← JobTable.id_of_find? hrow] at hrow
    dsimp only
    split
    · rename_i hlocked
      refine Command.yields_now_bind ?_
      split
      · rename_i retries due hdecided
        refine Command.yields_stage_bind (Command.yields_pure (Transaction.closes_of_takes rfl ?_
          (.done (.retried hstored hlocked hdecided)) settles_of_hindered))
        exact Contents.takes_first_update hrow rfl rfl (Contents.takes_nil.2 rfl)
      · rename_i hdecided
        refine Command.yields_stage_bind (Command.yields_raiseFor_bind fun id =>
          Command.yields_pure (Transaction.closes_of_takes rfl ?_
            (.done (.parked id hstored hlocked hdecided)) settles_of_hindered))
        exact Contents.takes_first_update hrow rfl rfl
          (Contents.takes_singleton.2 ⟨_, .raise, rfl⟩)
    · rename_i hfree
      exact Settles.done (.notHeld (isLockedBy_of_stored hstored hfree))
  · exact Command.yields_pure (Transaction.closes_of_takes rfl (Contents.takes_nil.2 rfl)
      (.done (.notHeld fun _ hfound => nomatch hnone.symm.trans hfound)) settles_of_hindered)

theorem ensures_settleContention (engine : Engine ε) (job : Job) :
    (engine.settleContention job).Ensures setting
      (engine.Settles setting c (engine.Frees c job.id)) c := by
  refine ensures_query_bind rfl fun _ =>
    ensures_bind.2 ((engine.ensures_releaseLock job.id).mono ?_)
  intro result c' hsettles
  cases result with
  | ok released => exact hsettles
  | error e => exact hsettles

theorem ensures_settleFailure (engine : Engine ε) (job : Job) (error : HandlerError) :
    (engine.settleFailure job error).Ensures setting
      (engine.Settles setting c (engine.Charges job c error)) c := by
  refine ensures_query_bind rfl fun _ =>
    ensures_bind.2 ((engine.ensures_recordFailure job error).mono ?_)
  intro result c' hsettles
  match result, hsettles with
  | .ok .incidentRaised, hsettles => exact ensures_ask rfl fun _ => hsettles
  | .ok (.rescheduled _ _), hsettles => exact hsettles
  | .ok .vanished, hsettles => exact hsettles
  | .error e, hsettles =>
    rw [settled] at hsettles
    dsimp only
    split
    · rename_i hcontention
      rw [if_pos hcontention] at hsettles
      exact ensures_ask rfl fun _ => hsettles
    · rename_i hcontention
      rwa [if_neg hcontention] at hsettles

/-! ## Whole executions -/

theorem ensures_executeAndSettle (engine : Engine ε) (job : Job) :
    (engine.executeAndSettle job).Ensures setting (engine.Leaves setting job c) c := by
  refine ensures_bind.2 ((engine.ensures_execute job).mono ?_)
  intro result c' hperforms
  match result, hperforms with
  | .error e, hperforms =>
    obtain rfl : c' = c := by cases hperforms <;> rfl
    exact .failed hperforms
  | .ok (.committed completion), .committed hands takes =>
    exact ensures_query_bind rfl fun _ => .committed hands takes
  | .ok .contention, hperforms =>
    obtain rfl : c' = c := by cases hperforms <;> rfl
    refine ensures_bind.2 ((engine.ensures_settleContention job).mono ?_)
    intro result c₁ hsettles
    cases hsettles with
    | done frees => exact .contention hperforms frees
    | hindered hindered => exact .unsettled hindered
  | .ok (.handlerFailed error), .failed _ =>
    refine ensures_bind.2 ((engine.ensures_settleFailure job error).mono ?_)
    intro result c₁ hsettles
    cases hsettles with
    | done charges => exact .handlerFailed charges
    | hindered hindered => exact .unsettled hindered

theorem ensures_runJob (engine : Engine ε) (d : Dispatched) :
    (engine.runJob d).Ensures setting (engine.Leaves setting d.job c) c := by
  refine ensures_bind.2 (((engine.ensures_executeAndSettle d.job).onAbort _).mono ?_)
  intro result c' hleaves
  refine ensures_giveBack d.token ?_
  dsimp only
  split
  · exact ensures_query_bind rfl fun _ => hleaves
  · exact hleaves

/-- **An execution leaves its batch, a released or charged job, or nothing.**  An engine runs a job
to its end while nobody else commits anything; the store may go out of reach and come back at any
time, and the handler may do whatever handlers can do.  Then the run does not break off, and what it
leaves of the jobs and incidents is what its result says. -/
theorem run_leaves (engine : Engine ε) (d : Dispatched) {s s' : Store} {trace : List (Event ε)}
    {r' : Routine ε (Except TransactionError ExecutionOutcome)}
    (hruns : Runs s (engine.runJob d) trace s' r') (halone : trace.filterMap Event.others? = [])
    (hover : r'.isOver = true) :
    ∃ result, r' = .done result ∧
      engine.Leaves .unreliable d.job s.contents result s'.contents :=
  (hruns.ensured (engine.ensures_runJob d) (fun _ => trivial)
    (Setting.includes_of_alone trivial halone)).done_of_isOver hover

/-- A handler that stages a second mail. -/
def sendingHandler : Handler fun _ => Empty where
  handle _ := (Command.stage (.insert (.mail "second"))).toHandling

/-- A handler that stages a second mail and then fails. -/
def failingHandler : Handler fun _ => Empty where
  handle _ := do
    (Command.stage (.insert (.mail "second"))).toHandling
    throw { message := "no address" }

/-- A handler that writes into the job that it is called for. -/
def selfWritingHandler : Handler fun _ => Empty where
  handle job := (Command.stage (.update { job with payload := some "seen" })).toHandling

theorem play_failingHandler :
    (((ofMail failingHandler).runJob ⟨.lockedMail, none⟩).play .early
      (.ofRow .lockedMail)).2.1 = some (.ok (.handlerFailed { message := "no address" })) := by
  decide +kernel

/-- A run that commits leaves what its handler staged in the place of the job, one whose batch is
refused leaves the job without its lock, and one that fails leaves the job charged. -/
theorem mail_runs_leave :
    (ofMail sendingHandler).Leaves .unreliable .lockedMail (Store.ofRow .lockedMail).contents
      (.ok (.committed .deleted)) (Store.ofRow (.mail "second")).contents ∧
    (ofMail selfWritingHandler).Leaves .unreliable .lockedMail (Store.ofRow .lockedMail).contents
      (.ok .contention) (Store.ofRow { Job.lockedMail.released with revision := 3 }).contents ∧
    (ofMail failingHandler).Leaves .unreliable .lockedMail (Store.ofRow .lockedMail).contents
      (.ok (.handlerFailed { message := "no address" }))
      (Store.ofRow { Job.lockedMail.charged { message := "no address" } with
        retries := 2, due := some .epoch, revision := 3 }).contents := by
  have hleaves : ∀ {handler : Handler fun _ => Empty} {result s'},
      (((ofMail handler).runJob ⟨.lockedMail, none⟩).play .early (.ofRow .lockedMail)).2 =
        (some result, s') →
      (ofMail handler).Leaves .unreliable .lockedMail (Store.ofRow .lockedMail).contents result
        s'.contents := by
    intro handler result s' hplay
    have hvalue := congrArg Prod.fst hplay
    obtain ⟨_, hdone, hleaves⟩ := run_leaves (ofMail handler) ⟨.lockedMail, none⟩
      (runs_play .early hvalue) (others?_own _) rfl
    cases hdone
    rwa [hplay] at hleaves
  exact ⟨hleaves (by decide +kernel), hleaves (by decide +kernel), hleaves (by decide +kernel)⟩

end Engine

end DeferredWork

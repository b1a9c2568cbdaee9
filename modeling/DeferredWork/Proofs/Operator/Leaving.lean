import DeferredWork.Operator
import DeferredWork.Proofs.Transaction.Solitude

set_option autoImplicit false

/-!
# What operators leave

An operator who changes a job while nobody else commits anything leaves the changed row at the next
revision and is told that row, unless there is no such job or the transaction is hindered
(`Operator.Updates`).  Setting the retries also resolves the incident of a job that was parked, and
raises one for a job that is parked by it (`Job.Resets`).
-/

namespace DeferredWork

variable {ε : Type → Type} {α : Type}

namespace Operator

variable (operator : Operator) (setting : Setting) (c : Contents) (id : JobId)

/-- What is left, and told, when an operator amends a job: the amended row at the next revision, and
incidents that go with the row as it was before. -/
inductive Updates (amend : Job → Job) (incidents : Job → List Incident → Prop) :
    Except TransactionError Job → Contents → Prop
  | done {row : Job} {left : List Incident} (stored : c.jobs.find? id = some row)
      (goes : incidents row left) :
      Updates amend incidents (.ok { amend row with revision := row.revision + 1 })
        { c.put { amend row with revision := row.revision + 1 } with incidents := left }
  | missing (none : c.jobs.find? id = none) :
      Updates amend incidents (.error (.rejected (.notFound id))) c
  | hindered {e : TransactionError} (hindered : operator.limit = .zero ∨ setting.outages) :
      Updates amend incidents (.error e) c

/-- What is left when an operator schedules a job: the job as a new row, with an incident if it is
parked from the beginning. -/
inductive Schedules (job : Job) : Except TransactionError JobId → Contents → Prop
  | stored (free : c.jobs.find? job.id = none) (active : job.isParked = false) :
      Schedules job (.ok job.id) (c.put { job with revision := 1 })
  | parked (free : c.jobs.find? job.id = none) (parked : job.isParked = true) (id : Uuid)
      (now : Instant) : Schedules job (.ok job.id)
        ((c.put { job with revision := 1 }).raise (.forJob id job noRetriesLeft none now))
  | failed (e : TransactionError) : Schedules job (.error e) c

/-- What is left when an operator cancels a job. -/
inductive Cancels : Except TransactionError Bool → Contents → Prop
  | removed {row : Job} (stored : c.jobs.find? id = some row) : Cancels (.ok true) (c.erase id)
  | gone : Cancels (.ok false) c
  | failed (e : TransactionError) : Cancels (.error e) c

end Operator

/-- What becomes of the incidents when the retries of a row are set. -/
inductive Job.Resets (row : Job) (retries : Nat) (incidents : List Incident) :
    List Incident → Prop
  | renewed (now : Instant) (parked : row.isParked = true) (renews : 0 < retries) :
      Resets row retries incidents (Incident.resolveAmong row.id now incidents)
  | parked (id : Uuid) (now : Instant) (active : row.isParked = false) (used : retries = 0) :
      Resets row retries incidents
        ((Incident.forJob id { row with retries := retries } Operator.noRetriesLeft none
          now).raiseAmong incidents)
  | same (like : row.isParked = (retries == 0)) : Resets row retries incidents incidents

/-! ## Bodies -/

namespace Operator

variable {setting : Setting} {c : Contents} {broken : String → Prop}

/-- A body that has found a row comes to an amended form of it, having staged only what makes these
incidents of those that there are. -/
def Prepares (c : Contents) (row changed : Job) (incidents : List Incident → Prop)
    (outcome : Except TransactionError Job) (ctx : Context) : Prop :=
  outcome = .ok changed ∧ ctx.spent = .zero ∧ ctx.observed? row.id = some row.revision ∧
    ∃ left, incidents left ∧ c.Takes ctx.writes { c with incidents := left }

theorem ensures_update (operator : Operator) {id : JobId} {change : Job → Command ε Job}
    {amend : Job → Job} {incidents : Job → List Incident → Prop}
    (hname : ∀ row, (amend row).id = row.id) (hrev : ∀ row, (amend row).revision = row.revision)
    (hchange : ∀ row now broken, c.jobs.find? row.id = some row →
      (change row).run.Yields setting c (Prepares c row (amend row) (incidents row)) broken
        (Context.observe { now := now } row)) :
    (operator.transact (update id change)).Ensures setting
      (Updates operator setting c id amend incidents) c := by
  refine Transaction.ensures_run fun now => ?_
  refine Command.yields_find_bind (fun row hrow => ?_) (fun hnone => ?_) fun hout =>
    Transaction.closes_error (.hindered (.inr hout))
  · obtain rfl := JobTable.id_of_find? hrow
    refine Command.yields_bind.2 ((hchange row now _ hrow).mono ?_)
    rintro _ ctx ⟨rfl, hspent, hobserved, left, hgoes, htakes⟩
    refine Command.yields_stage_bind (Command.yields_pure ?_)
    have hguard : ctx.guard (amend row) = .exactly row.revision := by
      rw [Context.guard, hname, hobserved]
      rfl
    have htaken : c.Takes (ctx.stage (.update (amend row))).writes
        { c.put { amend row with revision := row.revision + 1 } with incidents := left } := by
      rw [Context.stage, Context.writeOf, hguard]
      refine Contents.takes_append.2 ⟨_, htakes, Contents.takes_singleton.2
        ⟨.put { amend row with revision := row.revision + 1 }, ?_, rfl⟩⟩
      exact .update ((hname row).symm ▸ hrow) ((Expected.matches_exactly _ _).2 rfl)
    refine Transaction.closes_of_takes hspent htaken ?_ fun hhindered _ _ => .hindered hhindered
    rw [hrev]
    exact .done hrow hgoes
  · exact Transaction.closes_error (.missing hnone)

theorem observed?_observe_self (now : Instant) (row : Job) :
    (Context.observe { now := now } row).observed? row.id = some row.revision := by
  rw [Context.observed?_observe, if_pos rfl]
  rfl

theorem prepares_changeRetries {row : Job} {retries : Nat} {now : Instant} :
    (changeRetries (ε := ε) retries row).run.Yields setting c
      (Prepares c row { row with retries := retries } (row.Resets retries c.incidents)) broken
      (Context.observe { now := now } row) := by
  unfold changeRetries
  dsimp only
  split
  · rename_i hrenews
    refine Command.yields_stage_bind (Command.yields_pure
      ⟨rfl, rfl, observed?_observe_self now row, _, .renewed now hrenews.2 hrenews.1, ?_⟩)
    exact Contents.takes_singleton.2 ⟨_, .resolve, rfl⟩
  · rename_i hkeeps
    split
    · rename_i hused
      refine Command.yields_raiseFor_bind fun id => Command.yields_pure
        ⟨rfl, rfl, observed?_observe_self now row, _, .parked id now ?_ hused.1, ?_⟩
      · exact Bool.not_eq_true _ ▸ hused.2
      · exact Contents.takes_singleton.2 ⟨_, .raise, rfl⟩
    · rename_i hlike
      refine Command.yields_pure ⟨rfl, rfl, observed?_observe_self now row, _, .same ?_,
        Contents.takes_nil.2 rfl⟩
      cases hparked : row.isParked with
      | true =>
        rw [hparked] at hkeeps
        exact (beq_iff_eq.2 (Nat.eq_zero_of_not_pos fun h => hkeeps ⟨h, rfl⟩)).symm
      | false =>
        rw [hparked] at hlike
        exact (beq_eq_false_iff_ne.2 fun h => hlike ⟨h, Bool.false_ne_true⟩).symm

/-! ## Calls -/

variable (operator : Operator)

theorem ensures_wakeIf {post : α → Contents → Prop} {f : Unit → Routine ε α} (acquirable : Bool)
    (h : (f ()).Ensures setting post c) :
    Routine.Ensures setting post ((wakeIf acquirable).bind f) c := by
  unfold wakeIf
  split
  · exact Routine.ensures_query_bind rfl fun _ => h
  · exact h

theorem ensures_setRetries (id : JobId) (retries : Nat) :
    (operator.setRetries (ε := ε) id retries).Ensures setting
      (operator.Updates setting c id (fun row => { row with retries := retries })
        fun row => row.Resets retries c.incidents) c := by
  have hupdate : (operator.transact (update (ε := ε) id (changeRetries retries))).Ensures setting
      (operator.Updates setting c id (fun row => { row with retries := retries })
        fun row => row.Resets retries c.incidents) c :=
    operator.ensures_update (fun _ => rfl) (fun _ => rfl) fun _ _ _ _ => prepares_changeRetries
  refine Routine.ensures_bind.2 (hupdate.mono fun result c' hleaves => ?_)
  cases result with
  | error e => exact hleaves
  | ok job => exact Routine.ensures_query_bind rfl fun now => ensures_wakeIf _ hleaves

/-- To suspend or to activate a job leaves all incidents as they are. -/
theorem ensures_update_suspended (id : JobId) (suspended : Bool) :
    (operator.transact (update (ε := ε) id
      fun job => pure { job with suspended := suspended })).Ensures setting
      (operator.Updates setting c id (fun row => { row with suspended := suspended })
        fun _ => (· = c.incidents)) c :=
  operator.ensures_update (fun _ => rfl) (fun _ => rfl) fun row now _ _ => Command.yields_pure
    ⟨rfl, rfl, observed?_observe_self now row, _, rfl, Contents.takes_nil.2 rfl⟩

theorem ensures_suspend (id : JobId) :
    (operator.suspend (ε := ε) id).Ensures setting
      (operator.Updates setting c id (fun row => { row with suspended := true })
        fun _ => (· = c.incidents)) c :=
  operator.ensures_update_suspended id true

theorem ensures_activate (id : JobId) :
    (operator.activate (ε := ε) id).Ensures setting
      (operator.Updates setting c id (fun row => { row with suspended := false })
        fun _ => (· = c.incidents)) c := by
  refine Routine.ensures_bind.2
    ((operator.ensures_update_suspended id false).mono fun result c' hleaves => ?_)
  cases result with
  | error e => exact hleaves
  | ok job => exact ensures_wakeIf true hleaves

theorem ensures_schedule (job : Job) :
    (operator.schedule (ε := ε) job).Ensures setting (Schedules c job) c := by
  refine Routine.ensures_query_bind rfl fun now => ?_
  have hschedule : (operator.transact (scheduleCommand (ε := ε) job)).Ensures setting
      (fun result => Schedules c job (result.map fun _ => job.id)) c := by
    refine Transaction.ensures_run fun now => ?_
    unfold scheduleCommand
    have hfailed : ∀ e : TransactionError,
        Schedules c job ((Except.error (α := Unit) e).map fun _ => job.id) c := .failed
    dsimp only
    split
    · rename_i hparked
      refine Command.yields_raiseFor_bind fun id => Command.yields_stage
        (Transaction.closes_of_failed hfailed fun c' htakes => ?_)
      obtain ⟨change, hraise, htakes⟩ := Contents.takes_cons.1 htakes
      obtain ⟨change', hinsert, rfl⟩ := Contents.takes_singleton.1 htakes
      cases hraise with
      | raise =>
        cases hinsert with
        | insert free => exact Schedules.parked (c := c) free hparked id now
    · rename_i hactive
      refine Command.yields_stage (Transaction.closes_of_failed hfailed fun c' htakes => ?_)
      obtain ⟨change, hinsert, rfl⟩ := Contents.takes_singleton.1 htakes
      cases hinsert with
      | insert free => exact .stored free (Bool.not_eq_true _ ▸ hactive)
  refine Routine.ensures_bind.2 (hschedule.mono fun result c' hleaves => ?_)
  cases result with
  | error e => exact hleaves
  | ok _ => exact ensures_wakeIf _ hleaves

theorem ensures_cancel (id : JobId) :
    (operator.cancel (ε := ε) id).Ensures setting (Cancels c id) c := by
  have hcancel : (operator.transact (cancelCommand (ε := ε) id)).Ensures setting
      (Cancels c id) c := by
    refine Transaction.ensures_run fun now => ?_
    refine Command.yields_find_bind (fun row hrow => ?_) (fun hnone => ?_) fun hout =>
      Transaction.closes_error (.failed _)
    · refine Command.yields_stage_bind (Command.yields_pure
        (Transaction.closes_of_failed .failed fun c' htakes => ?_))
      obtain ⟨change, hdelete, rfl⟩ := Contents.takes_singleton.1 htakes
      cases hdelete with
      | delete found met => exact .removed found
    · refine Command.yields_pure (Transaction.closes_of_failed .failed fun c' htakes => ?_)
      obtain rfl := Contents.takes_nil.1 htakes
      exact .gone
  refine Routine.ensures_bind.2 (hcancel.mono fun result c' hleaves => ?_)
  cases hleaves with
  | removed stored => exact .removed stored
  | gone => exact .gone
  | failed e =>
    dsimp only
    split
    · exact .gone
    · exact .failed e

end Operator

end DeferredWork

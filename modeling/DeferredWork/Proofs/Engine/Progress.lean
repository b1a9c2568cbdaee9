import DeferredWork.Proofs.Engine.Leaving

set_option autoImplicit false

/-!
# Executions make progress

A job that an engine holds and runs undisturbed is ended, or comes back without its lock and with
fewer retries, unless the store refuses the very batch that the execution hands in
(`Engine.run_progresses_unless_refused`).  The exception is real: if a handler writes the job that
it is called for, the batch is refused, and the execution costs no retry
(`Engine.own_write_costs_no_retry`).
-/

namespace DeferredWork

variable {ε : Type → Type}

/-! ## The end of a job -/

/-- When the end of a row has been taken, the name of the row is free, unless the next run was drawn
the very same name. -/
theorem Job.Ends.find?_eq_none {row : Job} {now : Instant} {completion : Completion}
    {ending : List Write} {c c' : Contents} (h : row.Ends now completion ending)
    (htakes : c.Takes ending c') :
    c'.jobs.find? row.id = none ∨ ∃ due, completion = .rescheduled row.id due := by
  cases h with
  | deleted once =>
    obtain ⟨change, hdelete, rfl⟩ := Contents.takes_singleton.1 htakes
    rw [Contents.after_delete hdelete]
    exact .inl (c.find?_erase_self row.id)
  | @rescheduled interval recurs id =>
    obtain ⟨change, hdelete, htakes⟩ := Contents.takes_cons.1 htakes
    obtain ⟨change', hinsert, rfl⟩ := Contents.takes_singleton.1 htakes
    by_cases hname : JobId.ofUuid id = row.id
    · exact .inr ⟨_, congrArg (Completion.rescheduled · _) hname⟩
    · rw [(Contents.after_insert hinsert).2, Contents.after_delete hdelete]
      refine .inl (Eq.trans (Contents.find?_put_of_ne ?_) (c.find?_erase_self row.id))
      exact hname

namespace Engine

/-- The job of a row has made progress: its row is gone, or belongs to its next run, or is not held
by the engine and has fewer retries. -/
def Progresses (engine : Engine ε) (row : Job)
    (result : Except TransactionError ExecutionOutcome) (jobs : JobTable) : Prop :=
  ∀ left, jobs.find? row.id = some left →
    (∃ due, result = .ok (.committed (.rescheduled row.id due))) ∨
      left.isLockedBy engine.owner = false ∧ left.retries < row.retries

/-- The store has refused the batch that the execution of a row handed in.  The row is released with
all its retries if the refusal counts as contention, and stays locked if not. -/
inductive Refused (engine : Engine ε) (job row : Job) (c : Contents) :
    Except TransactionError ExecutionOutcome → Contents → Prop
  | released {completion : Completion} {ws : List Write} {e : StoreError}
      (hands : engine.Hands .reliable job c completion ws) (refuses : c.Refuses ws e)
      (contention : e.isContention = true) :
      Refused engine job row c (.ok .contention) (c.update row.released)
  | kept {completion : Completion} {ws : List Write} {e : StoreError}
      (hands : engine.Hands .reliable job c completion ws) (refuses : c.Refuses ws e)
      (rejection : e.isContention = false) : Refused engine job row c (.error (.ofStore e)) c

variable {engine : Engine ε} {job row : Job} {c c' : Contents}

theorem Charges.progresses {error : HandlerError} (h : engine.Charges job c error c')
    (hrow : c.jobs.find? job.id = some row) (hlocked : row.isLockedBy engine.owner = true)
    (hretries : 0 < row.retries) (result : Except TransactionError ExecutionOutcome) :
    engine.Progresses row result c'.jobs := by
  intro left hleft
  right
  cases h with
  | @retried _ _ due retries stored locked decided =>
    obtain rfl := Option.some.inj (hrow.symm.trans stored)
    have hfewer : retries < (row.charged error).retries :=
      Job.lt_of_decideFailure_eq_retry decided
    obtain rfl := Option.some.inj ((Contents.find?_update _ _).symm.trans hleft)
    exact ⟨rfl, hfewer⟩
  | parked id stored locked decided =>
    obtain rfl := Option.some.inj (hrow.symm.trans stored)
    obtain rfl := Option.some.inj ((Contents.find?_update _ _).symm.trans hleft)
    exact ⟨rfl, hretries⟩
  | notHeld free =>
    rw [free row hrow] at hlocked
    cases hlocked

theorem Leaves.progresses_or_refused {result : Except TransactionError ExecutionOutcome}
    (h : engine.Leaves .reliable job c result c') (hlimit : engine.limit ≠ .zero)
    (hrow : c.jobs.find? job.id = some row) (hcurrent : row.revision = job.revision)
    (hlocked : row.isLockedBy engine.owner = true) (hretries : 0 < row.retries) :
    engine.Progresses row result c'.jobs ∨ engine.Refused job row c result c' := by
  cases h with
  | committed hands takes =>
    refine .inl fun left hleft => .inl ?_
    cases hands with
    | mk resolved stored current locked leads served told ends =>
      obtain rfl := Option.some.inj (hrow.symm.trans stored)
      obtain ⟨c₁, -, hending⟩ := Contents.takes_append.1 takes
      rcases ends.find?_eq_none hending with hnone | ⟨due, rfl⟩
      · cases hnone.symm.trans hleft
      · exact ⟨due, rfl⟩
  | contention performs frees =>
    cases frees with
    | released stored locked =>
      obtain rfl := Option.some.inj (hrow.symm.trans stored)
      cases performs with
      | stale changed => exact (changed row hrow ⟨hcurrent, hlocked⟩).elim
      | contended hands refuses contention => exact .inr (.released hands refuses contention)
    | notHeld free =>
      rw [free row hrow] at hlocked
      cases hlocked
  | handlerFailed charges => exact .inl (charges.progresses hrow hlocked hretries _)
  | failed performs =>
    cases performs with
    | rejected hands refuses rejection => exact .inr (.kept hands refuses rejection)
    | unreachable outage => exact outage.elim
  | unsettled hindered => exact (hindered.resolve_left hlimit).elim

/-- A job whose batch was refused is as far from its end as before. -/
theorem Refused.not_progresses {result : Except TransactionError ExecutionOutcome}
    (h : engine.Refused job row c result c') (hrow : c.jobs.find? row.id = some row) :
    ¬ engine.Progresses row result c'.jobs := by
  intro hprogresses
  cases h with
  | released hands refuses contention =>
    rcases hprogresses _ (c.find?_update row.released) with ⟨due, hcommitted⟩ | ⟨-, hfewer⟩
    · cases hcommitted
    · exact Nat.lt_irrefl _ hfewer
  | kept hands refuses rejection =>
    rcases hprogresses _ hrow with ⟨due, hcommitted⟩ | ⟨-, hfewer⟩
    · cases hcommitted
    · exact Nat.lt_irrefl _ hfewer

/-- **An execution makes progress unless its batch is refused.**  An engine runs a job that it
holds, at the revision at which the job was dispatched and with retries left, while the store is in
reach and nobody else commits anything.  Whatever the handler does while it works on the job, the run
comes to an end; after a failure, handler and backoff are taken to answer at once.  Then the job has
made progress, except if the store has refused the batch that the handler and the end of the job make
up. -/
theorem run_progresses_unless_refused {d : Dispatched} {s : Store} (havailable : s.available = true)
    (hlimit : engine.limit ≠ .zero) (hrow : s.jobs.find? d.job.id = some row)
    (hcurrent : row.revision = d.job.revision) (hlocked : row.isLockedBy engine.owner = true)
    (hretries : 0 < row.retries) :
    Routine.Achieves (engine.runJob d) s fun result s' =>
      (engine.Progresses row result s'.jobs ↔
        ¬ engine.Refused d.job row s.contents result s'.contents) := by
  have hstored : s.contents.jobs.find? row.id = some row := by
    rw [JobTable.id_of_find? hrow]
    exact hrow
  refine ((engine.ensures_runJob d).achieves havailable).mono fun result s' hleaves =>
    ⟨fun hprogresses hrefused => hrefused.not_progresses hstored hprogresses, ?_⟩
  exact (hleaves.progresses_or_refused hlimit hrow hcurrent hlocked hretries).resolve_right

/-- A run whose handler failed has used up a retry. -/
theorem failing_run_uses_up_retry :
    (ofMail failingHandler).Progresses .lockedMail
      (.ok (.handlerFailed { message := "no address" }))
      (((ofMail failingHandler).runJob ⟨.lockedMail, none⟩).play .early
        (.ofRow .lockedMail)).2.2.jobs := by
  have hachieves : Routine.Achieves ((ofMail failingHandler).runJob ⟨.lockedMail, none⟩)
      (.ofRow .lockedMail) fun result s' =>
        ((ofMail failingHandler).Progresses .lockedMail result s'.jobs ↔
          ¬ (ofMail failingHandler).Refused .lockedMail .lockedMail
            (Store.ofRow .lockedMail).contents result s'.contents) :=
    run_progresses_unless_refused rfl (by decide +kernel) (by decide +kernel) rfl
      (by decide +kernel) (by decide +kernel)
  obtain ⟨result, hdone, hprogresses⟩ :=
    hachieves.2 _ _ _ (Routine.runs_play .early play_failingHandler) rfl
  cases hdone
  exact hprogresses.2 nofun

/-- The deletion at the end of the job meets a revision that the handler itself has raised.  This
counts as contention with somebody else, and so the job is free again with all its retries. -/
theorem own_write_costs_no_retry :
    Job.lockedMail.isLockedBy (ofMail selfWritingHandler).owner = true ∧
      0 < Job.lockedMail.retries ∧ (Store.ofRow .lockedMail).available = true ∧
      (Store.ofRow .lockedMail).jobs.find? Job.lockedMail.id = some .lockedMail ∧
      ∃ (talk : List (Exchange (Call fun _ => Empty))) (s' : Store),
        Routine.Runs (.ofRow .lockedMail)
          ((ofMail selfWritingHandler).runJob ⟨.lockedMail, none⟩) (talk.map Event.own) s'
          (.done (.ok .contention)) ∧
        s'.jobs.find? Job.lockedMail.id = some { Job.lockedMail.released with revision := 3 } ∧
        ¬ (ofMail selfWritingHandler).Progresses .lockedMail (.ok .contention) s'.jobs := by
  have hvalue : (((ofMail selfWritingHandler).runJob ⟨.lockedMail, none⟩).play .early
      (.ofRow .lockedMail)).2.1 = some (.ok .contention) := by
    decide +kernel
  have hrow : (((ofMail selfWritingHandler).runJob ⟨.lockedMail, none⟩).play .early
      (.ofRow .lockedMail)).2.2.jobs.find? Job.lockedMail.id =
        some { Job.lockedMail.released with revision := 3 } := by
    decide +kernel
  refine ⟨by decide +kernel, by decide +kernel, rfl, by decide +kernel, _, _,
    Routine.runs_play .early hvalue, hrow, fun hprogresses => ?_⟩
  rcases hprogresses _ hrow with ⟨due, hcommitted⟩ | ⟨-, hfewer⟩
  · cases hcommitted
  · exact absurd hfewer (Nat.lt_irrefl _)

end Engine

end DeferredWork

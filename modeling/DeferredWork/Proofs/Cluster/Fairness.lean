import DeferredWork.Engine.Execution
import DeferredWork.Operator
import DeferredWork.Proofs.Transaction.Batches

set_option autoImplicit false

/-!
# Fair writes

A writer is fair if it leaves the locks of other owners alone: an update is guarded by the row that
it was made from and keeps the lock of that row, and only the owner of a lock may give it up, or end
the job that it stands on (`Write.IsFair`).  Locks are no fair writes; they are looked at on their
own.  Handlers are asked to be fair (`Handler.IsFair`); releasing a lock, recording a failure and
executing a job with a fair handler then are fair to all jobs but the owner's own one, and operators
are fair to all (`Operator.keeps_schedule` and so on).
-/

namespace DeferredWork

variable {ε : Type → Type} {α : Type}

/-- The job has no lock, whatever the time. -/
def Job.isUnlocked (job : Job) : Bool := job.owner.isNone || job.lockedUntil.isNone

/-- What is asked of fair writers beyond their leaving locks alone. -/
structure Terms where
  /-- Updates keep the scope in which a job runs exclusively. -/
  scopesFixed : Prop
  /-- The new jobs that may be stored. -/
  mayInsert : Job → Prop
  /-- Jobs may be deleted at whatever revision, as in a cancellation. -/
  mayCancel : Prop

namespace Terms

/-- Any new job may be stored, and any job cancelled. -/
def lenient (scopesFixed : Prop) : Terms := ⟨scopesFixed, fun _ => True, True⟩

/-- New jobs without a lock may be stored, as the next runs of jobs are. -/
def Renews (terms : Terms) : Prop := ∀ job : Job, job.isUnlocked = true → terms.mayInsert job

theorem renews_lenient (scopesFixed : Prop) : (lenient scopesFixed).Renews := fun _ _ => trivial

end Terms

/-- A job that an owner is at work on. -/
structure Charge where
  owner : Owner
  id : JobId
  deriving DecidableEq

namespace Job

/-- The row is the owner's own one, with the lock still in the owner's name. -/
def IsIn (row : Job) (charge : Option Charge) : Prop :=
  ∃ owner, charge = some ⟨owner, row.id⟩ ∧ row.isLockedBy owner = true

/-- The job has the lock of the row, or has given up the owner's own lock; if scopes are fixed, it
has the scope of the row. -/
structure IsFairTo (job row : Job) (terms : Terms) (charge : Option Charge) : Prop where
  scope : terms.scopesFixed → job.exclusivityScope = row.exclusivityScope
  lock : job.owner = row.owner ∧ job.lockedUntil = row.lockedUntil ∨
    job.owner = none ∧ row.IsIn charge

theorem IsFairTo.of_none {job row : Job} {terms : Terms} (charge : Option Charge)
    (h : job.IsFairTo row terms none) : job.IsFairTo row terms charge := by
  refine ⟨h.scope, h.lock.imp_right ?_⟩
  rintro ⟨-, owner, hnone, -⟩
  cases hnone

end Job

/-- The change leaves the locks of other owners alone, given the rows that were found. -/
def Staged.IsFair (terms : Terms) (charge : Option Charge) (seen : List Job) : Staged → Prop
  | .update job => ∃ row, (seen.find? fun row => row.id == job.id) = some row ∧
      job.IsFairTo row terms charge
  | .delete job => ∃ row, (seen.find? fun row => row.id == job.id) = some row ∧ row.IsIn charge
  | .insert job => terms.mayInsert job
  | .forceDelete _ => terms.mayCancel
  | .lock .. => False
  | _ => True

/-- The write leaves the locks of other owners alone, given the rows that its writer knows.  On some
terms, to delete a job without a guard is not held to be unfair. -/
def Write.IsFair (terms : Terms) (charge : Option Charge) (known : List Job) : Write → Prop
  | .update job expected => ∃ row ∈ known, row.id = job.id ∧ expected = .exactly row.revision ∧
      job.IsFairTo row terms charge
  | .delete id expected => terms.mayCancel ∧ expected = .any ∨
      ∃ row ∈ known, row.id = id ∧ expected = .exactly row.revision ∧ row.IsIn charge
  | .insert job => terms.mayInsert job
  | .lock .. => False
  | _ => True

theorem Write.IsFair.mono {terms : Terms} {charge : Option Charge} {known more : List Job}
    {w : Write} (hsub : known ⊆ more) (h : w.IsFair terms charge known) :
    w.IsFair terms charge more := by
  cases w with
  | insert job => exact h
  | update job expected =>
    obtain ⟨row, hmem, hrow⟩ := h
    exact ⟨row, hsub hmem, hrow⟩
  | delete id expected =>
    rcases h with h | ⟨row, hmem, hrow⟩
    · exact .inl h
    · exact .inr ⟨row, hsub hmem, hrow⟩
  | lock id revision owner expiry now => exact h
  | _ => trivial

theorem Staged.IsFair.of_none {terms : Terms} (charge : Option Charge) {seen : List Job}
    {change : Staged} (h : change.IsFair terms none seen) : change.IsFair terms charge seen := by
  cases change with
  | insert job => exact h
  | forceDelete id => exact h
  | update job =>
    obtain ⟨row, hfirst, hfair⟩ := h
    exact ⟨row, hfirst, hfair.of_none charge⟩
  | delete job =>
    obtain ⟨row, -, owner, hnone, -⟩ := h
    cases hnone
  | lock job owner expiry => exact h
  | _ => trivial

theorem Write.IsFair.of_none {terms : Terms} (charge : Option Charge) {known : List Job} {w : Write}
    (h : w.IsFair terms none known) : w.IsFair terms charge known := by
  cases w with
  | insert job => exact h
  | update job expected =>
    obtain ⟨row, hmem, hname, hexpected, hfair⟩ := h
    exact ⟨row, hmem, hname, hexpected, hfair.of_none charge⟩
  | delete id expected =>
    refine h.imp_right ?_
    rintro ⟨row, -, -, -, owner, hnone, -⟩
    cases hnone
  | lock id revision owner expiry now => exact h
  | _ => trivial

/-- To store a form of one's own row without the lock, and in the scope of the row, is fair to
everybody else. -/
theorem Write.isFair_unlocked {terms : Terms} {owner : Owner} {row job : Job} {known : List Job}
    (told : row ∈ known) (owned : row.isLockedBy owner = true) (hname : job.id = row.id)
    (hscope : job.exclusivityScope = row.exclusivityScope) (hunlocked : job.owner = none) :
    (Write.update job (.exactly row.revision)).IsFair terms (some ⟨owner, row.id⟩) known :=
  ⟨row, told, hname.symm, rfl, fun _ => hscope, .inr ⟨hunlocked, owner, rfl, owned⟩⟩

theorem carries_isFair (terms : Terms) (charge : Option Charge) :
    Transaction.Carries (Staged.IsFair terms charge) (Write.IsFair terms charge) where
  mono := Write.IsFair.mono
  write := by
    intro ctx seen change hnotes hchange
    have hguard : ∀ {job row : Job}, (seen.find? fun row => row.id == job.id) = some row →
        row ∈ seen ∧ row.id = job.id ∧ ctx.guard job = .exactly row.revision := by
      intro job row hfirst
      have hname : row.id = job.id := by simpa using List.find?_some hfirst
      refine ⟨List.mem_of_find?_eq_some hfirst, hname, ?_⟩
      rw [Context.guard, hnotes job.id, hfirst]
      rfl
    cases change with
    | update job =>
      obtain ⟨row, hfirst, hfair⟩ := hchange
      obtain ⟨hmem, hname, hexpected⟩ := hguard hfirst
      exact ⟨row, hmem, hname, hexpected, hfair⟩
    | delete job =>
      obtain ⟨row, hfirst, hin⟩ := hchange
      obtain ⟨hmem, hname, hexpected⟩ := hguard hfirst
      exact .inr ⟨row, hmem, hname, hexpected, hin⟩
    | insert job => exact hchange
    | forceDelete id => exact .inl ⟨hchange, rfl⟩
    | lock job owner expiry => exact hchange
    | _ => trivial

/-- Whatever the handler finds, it leaves the locks of jobs alone, keeps to the terms, and deletes no
job that it has read. -/
def Handler.IsFair (handler : Handler ε) (terms : Terms) : Prop :=
  ∀ job seen, (handler.handle job).run.Obeys (.ofStaged (Staged.IsFair terms none)) seen

/-- The handler hands in nothing of its own. -/
def Handler.StagesNothing (handler : Handler ε) : Prop :=
  ∀ job seen, (handler.handle job).run.Obeys (.ofStaged fun _ _ => False) seen

theorem Handler.StagesNothing.isFair {handler : Handler ε} (h : handler.StagesNothing)
    (terms : Terms) : handler.IsFair terms :=
  fun job seen => (h job seen).of_stricter fun _ _ hnone => hnone.elim

theorem Handler.stagesNothing_idle : (Handler.idle : Handler ε).StagesNothing :=
  fun _ _ => .done _

/-! ## Engines -/

namespace Command

variable {terms : Terms} {charge : Option Charge} {seen : List Job}

theorem isFair_releaseLock (id : JobId) (owner : Owner) :
    (releaseLock (ε := ε) id owner).run.Obeys
      (.ofStaged (Staged.IsFair terms (some ⟨owner, id⟩))) [] := by
  refine obeys_find_bind (obeys_pure _) fun row hrow => ?_
  dsimp only
  split
  · rename_i hlocked
    refine obeys_stage_bind ⟨row, ?_, fun _ => rfl, .inr ⟨rfl, owner, ?_, hlocked⟩⟩ (obeys_pure _)
    · simp [Job.released]
    · rw [hrow]
  · exact obeys_pure _

theorem isFair_raiseFor (job : Job) (message : String) (details : Option String) :
    (raiseFor (ε := ε) job message details).run.Obeys
      (.ofStaged (Staged.IsFair terms charge)) seen :=
  obeys_now_bind fun _ => obeys_draw_bind fun _ => obeys_stage trivial

theorem isFair_recordFailure (id : JobId) (owner : Owner) (error : HandlerError)
    (handler : Option (Handler ε)) (backoff : Backoff) :
    (recordFailure id owner error handler backoff).run.Obeys
      (.ofStaged (Staged.IsFair terms (some ⟨owner, id⟩))) [] := by
  refine obeys_find_bind (obeys_pure _) fun row hrow => ?_
  dsimp only
  split
  · rename_i hlocked
    have hin : row.IsIn (some ⟨owner, id⟩) := ⟨owner, by rw [hrow], hlocked⟩
    refine obeys_now_bind fun now => ?_
    split
    · refine obeys_stage_bind ⟨row, ?_, fun _ => rfl, .inr ⟨rfl, hin⟩⟩ (obeys_pure _)
      simp [Job.released, Job.failed]
    · refine obeys_stage_bind ⟨row, ?_, fun _ => rfl, .inr ⟨rfl, hin⟩⟩ ?_
      · simp [Job.released, Job.failed]
      · exact obeys_bind (isFair_raiseFor _ _ _) fun _ _ => obeys_pure _
  · exact obeys_throw _

/-- To end a job is fair to others if the job is the owner's own one, as it was first found. -/
theorem isFair_complete (hrenews : terms.Renews) {row : Job}
    (hfirst : (seen.find? fun r => r.id == row.id) = some row) (hin : row.IsIn charge) :
    (complete (ε := ε) row).run.Obeys (.ofStaged (Staged.IsFair terms charge)) seen := by
  unfold complete
  split
  · refine obeys_now_bind fun now => obeys_draw_bind fun id => ?_
    exact obeys_stage_bind ⟨row, hfirst, hin⟩ (obeys_stage_bind (hrenews _ rfl) (obeys_pure _))
  · exact obeys_stage_bind ⟨row, hfirst, hin⟩ (obeys_pure _)

theorem isFair_executeJob {handler : Handler ε} (hrenews : terms.Renews)
    (h : handler.IsFair terms) (job : Job)
    (owner : Owner) :
    (executeJob job owner handler).run.Obeys
      (.ofStaged (Staged.IsFair terms (some ⟨owner, job.id⟩))) [] := by
  refine obeys_find_bind (obeys_throw _) fun row hrow => ?_
  dsimp only
  split
  · rename_i hcurrent
    have hin : row.IsIn (some ⟨owner, job.id⟩) := ⟨owner, by rw [hrow], hcurrent.2⟩
    refine obeys_bind (obeys_ofHandling ?_) fun more _ => ?_
    · exact (h row _).of_stricter fun seen change hchange => hchange.of_none _
    · refine isFair_complete hrenews ?_ hin
      simp
  · exact obeys_throw _

end Command

/-! ## Operators -/

namespace Operator

variable {terms : Terms}

/-- An operator hands in fair writes only, and neither dispatches jobs nor touches tokens. -/
def conduct (terms : Terms) : Conduct ε where
  apply talk ws := ∀ w ∈ ws, w.IsFair terms none (talk.flatMap Exchange.told)

theorem frame_true : Transaction.Frame (ε := ε) (fun _ => True) (fun _ => True) :=
  ⟨fun _ _ _ _ => trivial, fun _ _ => trivial, fun _ => trivial, fun _ _ => trivial,
    fun _ _ => trivial⟩

theorem keeps_transact (operator : Operator) {command : Command ε α}
    (h : command.run.Obeys (.ofStaged (Staged.IsFair terms none)) [])
    (talk : List (Exchange (Call ε))) :
    (operator.transact command).Keeps (conduct terms).rules (fun _ _ => True) talk :=
  (frame_true.keeps_run (carries_isFair terms none) (fun _ hws => hws) operator.limit h
    trivial).mono fun _ _ _ => trivial

theorem keeps_wakeIf (acquirable : Bool) (talk : List (Exchange (Call ε))) :
    (wakeIf acquirable).Keeps (conduct terms).rules (fun _ _ => True) talk := by
  unfold wakeIf
  split
  · exact ⟨trivial, fun _ _ => trivial⟩
  · trivial

theorem isFair_scheduleCommand {job : Job} (h : terms.mayInsert job) :
    (scheduleCommand (ε := ε) job).run.Obeys (.ofStaged (Staged.IsFair terms none)) [] := by
  unfold scheduleCommand
  dsimp only
  split
  · exact Command.obeys_bind (Command.isFair_raiseFor _ _ _) fun _ _ => Command.obeys_stage h
  · exact Command.obeys_stage h

theorem isFair_cancelCommand (h : terms.mayCancel) (id : JobId) :
    (cancelCommand (ε := ε) id).run.Obeys (.ofStaged (Staged.IsFair terms none)) [] := by
  refine Command.obeys_find_bind (Command.obeys_pure _) fun row _ => ?_
  exact Command.obeys_stage_bind h (Command.obeys_pure _)

/-- A form of the row that was found, with its lock and its scope, may be stored. -/
theorem isFair_storing {row job : Job} (hname : row.id = job.id)
    (hfair : job.IsFairTo row terms none) (more : List Job) (stored : Job) :
    (Command.stage (.update job) >>= fun _ => pure stored : Command ε Job).run.Obeys
      (.ofStaged (Staged.IsFair terms none)) ([row] ++ more) := by
  refine Command.obeys_stage_bind ⟨row, ?_, hfair⟩ (Command.obeys_pure _)
  simp [hname]

theorem isFair_update_changeRetries (id : JobId) (retries : Nat) :
    (update (ε := ε) id (changeRetries retries)).run.Obeys
      (.ofStaged (Staged.IsFair terms none)) [] := by
  refine Command.obeys_find_bind (Command.obeys_throw _) fun row _ => ?_
  have hname : row.id = Job.id { row with retries := retries } := rfl
  have hfair : Job.IsFairTo { row with retries := retries } row terms none :=
    ⟨fun _ => rfl, .inl ⟨rfl, rfl⟩⟩
  dsimp only
  unfold changeRetries
  dsimp only
  split
  · rw [bind_assoc]
    exact Command.obeys_stage_bind trivial (isFair_storing hname hfair [] _)
  · split
    · rw [bind_assoc]
      refine Command.obeys_bind (Command.isFair_raiseFor _ _ _) fun more _ => ?_
      exact isFair_storing hname hfair more _
    · rw [pure_bind]
      exact isFair_storing hname hfair [] _

theorem isFair_update_suspended (id : JobId) (value : Bool) :
    (update (ε := ε) id fun job => pure { job with suspended := value }).run.Obeys
      (.ofStaged (Staged.IsFair terms none)) [] := by
  refine Command.obeys_find_bind (Command.obeys_throw _) fun row _ => ?_
  have hname : row.id = Job.id { row with suspended := value } := rfl
  have hfair : Job.IsFairTo { row with suspended := value } row terms none :=
    ⟨fun _ => rfl, .inl ⟨rfl, rfl⟩⟩
  dsimp only
  rw [pure_bind]
  exact isFair_storing hname hfair [] _

theorem keeps_schedule (operator : Operator) {job : Job} (h : terms.mayInsert job)
    (talk : List (Exchange (Call ε))) :
    (operator.schedule job).Keeps (conduct terms).rules (fun _ _ => True) talk := by
  refine Interaction.keeps_query_bind.2 ⟨trivial, fun now _ => Interaction.keeps_bind.2 ?_⟩
  refine (operator.keeps_transact (isFair_scheduleCommand h) _).mono fun talk outcome _ => ?_
  cases outcome with
  | error error => trivial
  | ok _ => exact Interaction.keeps_bind.2 ((keeps_wakeIf _ _).mono fun _ _ _ => trivial)

theorem keeps_cancel (operator : Operator) (h : terms.mayCancel) (id : JobId)
    (talk : List (Exchange (Call ε))) :
    (operator.cancel id).Keeps (conduct terms).rules (fun _ _ => True) talk := by
  refine Interaction.keeps_bind.2 ?_
  refine (operator.keeps_transact (isFair_cancelCommand h id) _).mono fun talk outcome _ => ?_
  cases outcome with
  | error error => trivial
  | ok removed => trivial

theorem keeps_setRetries (operator : Operator) (id : JobId) (retries : Nat)
    (talk : List (Exchange (Call ε))) :
    (operator.setRetries id retries).Keeps (conduct terms).rules (fun _ _ => True) talk := by
  refine Interaction.keeps_bind.2 ?_
  refine (operator.keeps_transact (isFair_update_changeRetries id retries) _).mono ?_
  intro talk outcome _
  cases outcome with
  | error error => trivial
  | ok job =>
    refine Interaction.keeps_query_bind.2 ⟨trivial, fun now _ => Interaction.keeps_bind.2 ?_⟩
    exact (keeps_wakeIf _ _).mono fun _ _ _ => trivial

theorem keeps_suspend (operator : Operator) (id : JobId) (talk : List (Exchange (Call ε))) :
    (operator.suspend id).Keeps (conduct terms).rules (fun _ _ => True) talk :=
  operator.keeps_transact (isFair_update_suspended id true) talk

theorem keeps_activate (operator : Operator) (id : JobId) (talk : List (Exchange (Call ε))) :
    (operator.activate id).Keeps (conduct terms).rules (fun _ _ => True) talk := by
  refine Interaction.keeps_bind.2 ?_
  refine (operator.keeps_transact (isFair_update_suspended id false) _).mono ?_
  intro talk outcome _
  cases outcome with
  | error error => trivial
  | ok job => exact Interaction.keeps_bind.2 ((keeps_wakeIf _ _).mono fun _ _ _ => trivial)

end Operator

end DeferredWork

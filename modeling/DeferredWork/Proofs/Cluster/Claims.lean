import DeferredWork.Proofs.Cluster.Fairness
import DeferredWork.Proofs.Cluster.Traffic

set_option autoImplicit false

/-!
# Claims on a scope

A job claims its scope while it has a lock that counts.  Whatever engines and operators write, apart
from locks, claims no more than what was there before (`Write.IsTame`): new jobs are unlocked, and
an update keeps scope and lock of the row that it was made from, or gives the lock up.  The
transactions of engines and the calls of operators are gone through one by one
(`Strand.OfCluster.obeys`).
-/

namespace DeferredWork

variable {ε : Type → Type} {α : Type}

/-! ## Claims on a scope -/

namespace Job

/-- The job runs exclusively in the scope and has a lock that counts. -/
def Claims (job : Job) (scope : ScopeId) (now : Instant) : Prop :=
  job.exclusivityScope = some scope ∧ job.hasLiveLock now = true

/-- The job claims its scope only when the row does. -/
def ClaimsNoMore (job row : Job) : Prop :=
  ∀ scope now, job.Claims scope now → row.Claims scope now

theorem not_claims_of_isUnlocked {job : Job} (h : job.isUnlocked = true) (scope : ScopeId)
    (now : Instant) : ¬ job.Claims scope now := by
  rintro ⟨-, hlive⟩
  rw [hasLiveLock, Bool.and_eq_true] at hlive
  obtain ⟨howner, hexpiry⟩ := hlive
  rw [isUnlocked, Bool.or_eq_true] at h
  rcases h with h | h
  · rw [Option.isNone_iff_eq_none] at h
    rw [h] at howner
    cases howner
  · rw [Option.isNone_iff_eq_none] at h
    rw [h] at hexpiry
    cases hexpiry

theorem ClaimsNoMore.of_isUnlocked {job row : Job} (h : job.isUnlocked = true) :
    job.ClaimsNoMore row :=
  fun scope now hclaims => absurd hclaims (not_claims_of_isUnlocked h scope now)

end Job

/-- The change claims no more than the rows that were found: new jobs are unlocked, and an update is
made from the first row of its name that was found. -/
def Staged.IsTame (seen : List Job) : Staged → Prop
  | .insert job => job.isUnlocked = true
  | .update job => ∃ row, (seen.find? fun row => row.id == job.id) = some row ∧ job.ClaimsNoMore row
  | _ => True

/-- The write claims no more than the rows that its writer knows. -/
def Write.IsTame (known : List Job) : Write → Prop
  | .insert job => job.isUnlocked = true
  | .update job expected => ∃ row ∈ known, row.id = job.id ∧ expected = .exactly row.revision ∧
      job.ClaimsNoMore row
  | _ => True

theorem Write.IsTame.mono {known more : List Job} {w : Write} (hsub : known ⊆ more)
    (h : w.IsTame known) : w.IsTame more := by
  cases w with
  | insert job => exact h
  | update job expected =>
    obtain ⟨row, hmem, hrow⟩ := h
    exact ⟨row, hsub hmem, hrow⟩
  | _ => trivial

theorem carries_isTame : Transaction.Carries Staged.IsTame Write.IsTame where
  mono := Write.IsTame.mono
  write := by
    intro ctx seen change hnotes hchange
    cases change with
    | insert job => exact hchange
    | update job =>
      obtain ⟨row, hfirst, hclaims⟩ := hchange
      have hname : row.id = job.id := by simpa using List.find?_some hfirst
      refine ⟨row, List.mem_of_find?_eq_some hfirst, hname, ?_, hclaims⟩
      rw [Context.guard, hnotes job.id, hfirst]
      rfl
    | _ => trivial

/-- Fair writers that keep scopes and store no locked jobs claim no more than what was there. -/
def Terms.tame : Terms := ⟨True, fun job => job.isUnlocked = true, True⟩

theorem Terms.renews_tame : tame.Renews := fun _ h => h

theorem Staged.IsFair.isTame {charge : Option Charge} {seen : List Job} {change : Staged}
    (h : change.IsFair .tame charge seen) : change.IsTame seen := by
  cases change with
  | insert job => exact h
  | update job =>
    obtain ⟨row, hfirst, hfair⟩ := h
    refine ⟨row, hfirst, ?_⟩
    rcases hfair.lock with ⟨howner, hexpiry⟩ | ⟨hnone, -⟩
    · rintro scope now ⟨hscope, hlive⟩
      rw [hfair.scope trivial] at hscope
      rw [Job.hasLiveLock, howner, hexpiry] at hlive
      exact ⟨hscope, hlive⟩
    · exact .of_isUnlocked (by rw [Job.isUnlocked, hnone]; rfl)
  | lock job owner expiry => exact h.elim
  | _ => trivial

/-! ## What engines and operators do -/

/-- The change inserts an unlocked job, or is about incidents. -/
def Staged.IsInsertion : Staged → Prop
  | .insert job => job.isUnlocked = true
  | .raise _ => True
  | .resolve _ => True
  | _ => False

/-- The handler writes no other jobs than unlocked ones that it inserts. -/
def Handler.OnlyInserts (handler : Handler ε) : Prop :=
  ∀ job seen, (handler.handle job).run.Obeys (.ofStaged fun _ change => change.IsInsertion) seen

theorem Handler.OnlyInserts.isFair {handler : Handler ε} (h : handler.OnlyInserts) :
    handler.IsFair .tame := by
  refine fun job seen => (h job seen).of_stricter fun seen change hchange => ?_
  cases change with
  | insert job => exact hchange
  | raise incident => trivial
  | resolve id => trivial
  | _ => cases hchange

/-- What engines and operators do: the transactions of engines, and the calls of operators. -/
inductive Strand.OfCluster : Strand ε → Prop
  | lockJob (limit : Duration) (job : Job) (owner : Owner) (duration : Duration) :
      OfCluster ⟨Transaction.run limit (.lockJob job owner duration)⟩
  | releaseLock (limit : Duration) (id : JobId) (owner : Owner) :
      OfCluster ⟨Transaction.run limit (.releaseLock id owner)⟩
  | recordFailure (limit : Duration) (id : JobId) (owner : Owner) (error : HandlerError)
      (handler : Option (Handler ε)) (backoff : Backoff) :
      OfCluster ⟨Transaction.run limit (.recordFailure id owner error handler backoff)⟩
  | executeJob (limit : Duration) (job : Job) (owner : Owner) (handler : Handler ε)
      (inserts : handler.OnlyInserts) :
      OfCluster ⟨Transaction.run limit (.executeJob job owner handler)⟩
  | schedule (operator : Operator) (job : Job) (unlocked : job.isUnlocked = true) :
      OfCluster ⟨operator.schedule job⟩
  | cancel (operator : Operator) (id : JobId) : OfCluster ⟨operator.cancel id⟩
  | setRetries (operator : Operator) (id : JobId) (retries : Nat) :
      OfCluster ⟨operator.setRetries id retries⟩
  | suspend (operator : Operator) (id : JobId) : OfCluster ⟨operator.suspend id⟩
  | activate (operator : Operator) (id : JobId) : OfCluster ⟨operator.activate id⟩

theorem Command.obeys_lockJob (job : Job) (owner : Owner) (duration : Duration) :
    (lockJob (ε := ε) job owner duration).run.Obeys (.ofStaged Staged.IsTame) [] := by
  refine obeys_now_bind fun now => ?_
  split
  · exact obeys_throw _
  · split
    · exact .abort _
    · exact obeys_stage trivial

/-- A transaction whose command is fair claims no more than what was there before. -/
theorem Transaction.obeys_run_of_isFair {charge : Option Charge} (limit : Duration)
    {command : Command ε α} (h : command.run.Obeys (.ofStaged (Staged.IsFair .tame charge)) [])
    (known : List Job) : (run limit command).Obeys (.ofWrites Write.IsTame) known :=
  obeys_run carries_isTame limit (h.of_stricter fun _ _ hfair => hfair.isTame) known

namespace Operator

theorem obeys_wakeIf (acquirable : Bool) (known : List Job) :
    (wakeIf (ε := ε) acquirable).Obeys (.ofWrites Write.IsTame) known := by
  unfold wakeIf
  split
  · exact .ask_of_rows_eq_nil trivial (fun _ => rfl) fun _ _ => .done _
  · exact .done _

theorem obeys_schedule (operator : Operator) {job : Job} (h : job.isUnlocked = true) :
    (operator.schedule (ε := ε) job).Obeys (.ofWrites Write.IsTame) [] := by
  refine .ask_of_rows_eq_nil trivial (fun _ => rfl) fun now _ => ?_
  refine (Transaction.obeys_run_of_isFair operator.limit (isFair_scheduleCommand h) _).bind ?_
  intro more outcome
  cases outcome with
  | error error => exact .done _
  | ok _ => exact (obeys_wakeIf _ _).bind fun _ _ => .done _

theorem obeys_cancel (operator : Operator) (id : JobId) :
    (operator.cancel (ε := ε) id).Obeys (.ofWrites Write.IsTame) [] := by
  refine (Transaction.obeys_run_of_isFair operator.limit (isFair_cancelCommand trivial id) _).bind ?_
  intro more outcome
  cases outcome with
  | error error => exact .done _
  | ok removed => exact .done _

theorem obeys_setRetries (operator : Operator) (id : JobId) (retries : Nat) :
    (operator.setRetries (ε := ε) id retries).Obeys (.ofWrites Write.IsTame) [] := by
  refine (Transaction.obeys_run_of_isFair operator.limit
    (isFair_update_changeRetries id retries) _).bind ?_
  intro more outcome
  cases outcome with
  | error error => exact .done _
  | ok job =>
    refine .ask_of_rows_eq_nil trivial (fun _ => rfl) fun now _ => ?_
    exact (obeys_wakeIf _ _).bind fun _ _ => .done _

theorem obeys_suspend (operator : Operator) (id : JobId) :
    (operator.suspend (ε := ε) id).Obeys (.ofWrites Write.IsTame) [] :=
  Transaction.obeys_run_of_isFair operator.limit (isFair_update_suspended id true) []

theorem obeys_activate (operator : Operator) (id : JobId) :
    (operator.activate (ε := ε) id).Obeys (.ofWrites Write.IsTame) [] := by
  refine (Transaction.obeys_run_of_isFair operator.limit (isFair_update_suspended id false) _).bind ?_
  intro more outcome
  cases outcome with
  | error error => exact .done _
  | ok job => exact (obeys_wakeIf _ _).bind fun _ _ => .done _

end Operator

theorem Strand.OfCluster.obeys {strand : Strand ε} (h : strand.OfCluster) :
    strand.routine.Obeys (.ofWrites Write.IsTame) [] := by
  cases h with
  | lockJob limit job owner duration =>
    exact Transaction.obeys_run carries_isTame limit (Command.obeys_lockJob job owner duration) []
  | releaseLock limit id owner =>
    exact Transaction.obeys_run_of_isFair limit (Command.isFair_releaseLock id owner) []
  | recordFailure limit id owner error handler backoff =>
    exact Transaction.obeys_run_of_isFair limit
      (Command.isFair_recordFailure id owner error handler backoff) []
  | executeJob limit job owner handler inserts =>
    exact Transaction.obeys_run_of_isFair limit
      (Command.isFair_executeJob Terms.renews_tame inserts.isFair job owner) []
  | schedule operator job unlocked => exact operator.obeys_schedule unlocked
  | cancel operator id => exact operator.obeys_cancel id
  | setRetries operator id retries => exact operator.obeys_setRetries id retries
  | suspend operator id => exact operator.obeys_suspend id
  | activate operator id => exact operator.obeys_activate id

end DeferredWork

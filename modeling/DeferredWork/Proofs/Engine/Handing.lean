import DeferredWork.Engine.Execution
import DeferredWork.Proofs.Transaction.Batches

set_option autoImplicit false

/-!
# What an engine's transactions hand in

Each transaction that an engine makes on a job begins by reading the job.  To release the lock hands
in the row that was read, without the lock (`Command.handsIn_releaseLock`); to record a failure hands
in the row charged with it, and an incident if the row is parked by it (`Command.handsIn_recordFailure`);
to execute the job hands in what the handler staged and the end of the row
(`Command.handsIn_executeJob`).  In each case the engine owns the row that was read.
-/

namespace DeferredWork

variable {ε : Type → Type} {α : Type}

/-! ## The end of a job -/

/-- The writes that end a row at a time: its deletion at its revision, and the insertion of its next
run if it recurs. -/
inductive Job.Ends (row : Job) (now : Instant) : Completion → List Write → Prop
  | deleted (once : row.interval = none) :
      Ends row now .deleted [.delete row.id (.exactly row.revision)]
  | rescheduled {interval : Duration} (recurs : row.interval = some interval) (id : Uuid) :
      Ends row now (.rescheduled (.ofUuid id) (row.nextOccurrence now interval))
        [.delete row.id (.exactly row.revision),
          .insert (row.nextRun (.ofUuid id) (row.nextOccurrence now interval) now)]

/-! ## Failures -/

namespace Job

theorem decideFailure_eq_retry {job : Job} {backoff : Backoff} {handler : Option (Handler ε)}
    {error : HandlerError} {now due : Instant} {retries : Nat}
    (h : job.decideFailure backoff handler error now = .retry retries due) :
    retries = job.retriesAfterFailure handler ∧ 0 < retries := by
  unfold decideFailure at h
  dsimp only at h
  split at h
  · cases h
  · rename_i hne
    cases h
    exact ⟨rfl, Nat.pos_of_ne_zero hne⟩

/-- A retry that is left after a failure is one fewer at least. -/
theorem lt_of_decideFailure_eq_retry {job : Job} {backoff : Backoff}
    {handler : Option (Handler ε)} {error : HandlerError} {now due : Instant} {retries : Nat}
    (h : job.decideFailure backoff handler error now = .retry retries due) :
    retries < job.retries := by
  obtain ⟨rfl, hpos⟩ := decideFailure_eq_retry h
  have hle := job.retriesAfterFailure_le handler
  omega

/-- A job whose handler does not meddle with its retries has one retry fewer after a failure. -/
theorem retriesAfterFailure_eq {job : Job} {handler : Option (Handler ε)}
    (h : ∀ h ∈ handler, h.retriesAfter job = job.retries - 1) :
    job.retriesAfterFailure handler = job.retries - 1 := by
  unfold retriesAfterFailure
  split
  · rfl
  · rename_i handler
    rw [h handler rfl, Nat.min_self]

theorem decideFailure_eq_incident {job : Job} {backoff : Backoff} {handler : Option (Handler ε)}
    {error : HandlerError} {now : Instant}
    (h : job.decideFailure backoff handler error now = .incident) :
    job.retriesAfterFailure handler = 0 := by
  unfold decideFailure at h
  dsimp only at h
  split at h
  · rename_i hzero
    exact hzero
  · cases h

end Job

/-- The row after a failure, without its lock. -/
def Job.charged (row : Job) (error : HandlerError) : Job :=
  (row.failed error.message error.details).released

/-- The writes that charge a row with a failure at a time: while retries are left, the row with fewer
of them and a new due date; or else the parked row and an incident. -/
inductive Job.Fails (row : Job) (backoff : Backoff) (handler : Option (Handler ε))
    (error : HandlerError) (now : Instant) : List Write → Prop
  | retried {retries : Nat} {due : Instant}
      (decided : (row.charged error).decideFailure backoff handler error now = .retry retries due) :
      Fails row backoff handler error now
        [.update { row.charged error with retries := retries, due := some due }
          (.exactly row.revision)]
  | parked (id : Uuid)
      (decided : (row.charged error).decideFailure backoff handler error now = .incident) :
      Fails row backoff handler error now
        [.update { row.charged error with retries := 0 } (.exactly row.revision),
          .raise (.forJob id { row.charged error with retries := 0 } error.message error.details now)]

namespace Command

variable {id : JobId} {owner : Owner} {now : Instant} {calls : List (Exchange (Call ε))}
  {ws : List Write}

/-- What the first call has told was told. -/
theorem mem_told_of_get {row : Job} {rest : List (Exchange (Call ε))} :
    row ∈ (⟨.store (.get id), .ok (some row)⟩ :: rest).flatMap (Exchange.told (ε := ε)) :=
  List.mem_append_left _ (List.mem_singleton_self row)

theorem handsIn_releaseLock (h : Transaction.HandsIn (releaseLock id owner) now calls ws) :
    ∃ row ∈ calls.flatMap Exchange.told, row.id = id ∧ row.isLockedBy owner = true ∧
      ws = [.update row.released (.exactly row.revision)] := by
  obtain ⟨gathers, rfl, hsome⟩ := h
  rcases gathers.of_find_bind with ⟨rest, rfl, hnone⟩ | ⟨row, rest, hname, rfl, hrow⟩
  · obtain ⟨-, -, rfl⟩ := hnone.of_pure
    exact absurd rfl hsome
  · dsimp only at hrow
    split at hrow
    · rename_i hlocked
      obtain ⟨-, -, rfl⟩ := hrow.of_stage_bind.of_pure
      exact ⟨row, mem_told_of_get, hname, hlocked, Context.writes_first_update now rfl⟩
    · obtain ⟨-, -, rfl⟩ := hrow.of_pure
      rw [Context.writes_observe] at hsome
      exact absurd rfl hsome

theorem handsIn_recordFailure {error : HandlerError} {handler : Option (Handler ε)}
    {backoff : Backoff}
    (h : Transaction.HandsIn (recordFailure id owner error handler backoff) now calls ws) :
    ∃ row ∈ calls.flatMap Exchange.told, row.id = id ∧ row.isLockedBy owner = true ∧
      row.Fails backoff handler error now ws := by
  obtain ⟨gathers, rfl, hsome⟩ := h
  rcases gathers.of_find_bind with ⟨rest, rfl, hnone⟩ | ⟨row, rest, hname, rfl, hrow⟩
  · obtain ⟨-, -, rfl⟩ := hnone.of_pure
    exact absurd rfl hsome
  · dsimp only at hrow
    split at hrow
    · rename_i hlocked
      refine ⟨row, mem_told_of_get, hname, hlocked, ?_⟩
      have hdecide := hrow.of_now_bind
      rw [Context.now_observe] at hdecide
      split at hdecide
      · rename_i retries due hdecided
        obtain ⟨-, -, rfl⟩ := hdecide.of_stage_bind.of_pure
        rw [Context.writes_first_update]
        · exact .retried hdecided
        · rfl
      · rename_i hdecided
        obtain ⟨incident, rest, hdone⟩ := hdecide.of_stage_bind.of_raiseFor_bind
        obtain ⟨-, -, rfl⟩ := hdone.of_pure
        rw [Context.writes_stage, Context.writes_first_update]
        · have hnow : (Context.observe { now := now } row).now = now := Context.now_observe _ row
          rw [Context.writeOf, Context.now_stage, hnow]
          exact .parked incident hdecided
        · rfl
    · exact hrow.not_throw.elim

/-- What a job gathers as it ends: the end of the row that was read. -/
theorem Gathers.of_complete {row : Job} {ctx ctx' : Context} {completion : Completion}
    (h : (complete row).Gathers ctx completion calls ctx')
    (hobserved : ctx.observed? row.id = some row.revision) :
    ∃ ending, row.Ends ctx.now completion ending ∧ ctx'.writes = ctx.writes ++ ending := by
  have hdelete : ctx.writeOf (.delete row) = .delete row.id (.exactly row.revision) := by
    rw [Context.writeOf, Context.guard, hobserved, Option.getD_some]
  unfold complete at h
  split at h
  · rename_i interval hinterval
    obtain ⟨id, rest, -, hstage⟩ := h.of_now_bind.of_draw_bind
    obtain ⟨rfl, -, rfl⟩ := hstage.of_stage_bind.of_stage_bind.of_pure
    refine ⟨_, .rescheduled hinterval id, ?_⟩
    rw [Context.writes_stage, Context.writes_stage, hdelete, List.append_assoc]
    rfl
  · rename_i hinterval
    obtain ⟨rfl, -, rfl⟩ := h.of_stage_bind.of_pure
    exact ⟨_, .deleted hinterval, by rw [Context.writes_stage, hdelete]⟩

/-- To execute a job hands in what the handler staged, by its discipline, and then the end of the row
that was read, which is the one that the engine locked. -/
theorem handsIn_executeJob {R : List Job → Staged → Prop} {P : List Job → Write → Prop} {job : Job}
    {handler : Handler ε} (hcarries : Transaction.Carries R P)
    (hhandler : ∀ job seen, (handler.handle job).run.Obeys (.ofStaged R) seen)
    (h : Transaction.HandsIn (executeJob job owner handler) now calls ws) :
    ∃ row ∈ calls.flatMap Exchange.told, row.id = job.id ∧ row.revision = job.revision ∧
      row.isLockedBy owner = true ∧ ∃ own completion ending, ws = own ++ ending ∧
        (∀ w ∈ own, P (calls.flatMap Exchange.told) w) ∧ row.Ends now completion ending := by
  obtain ⟨gathers, rfl, -⟩ := h
  rcases gathers.of_find_bind with ⟨rest, rfl, hnone⟩ | ⟨row, rest, hname, rfl, hrow⟩
  · exact hnone.not_throw.elim
  · dsimp only at hrow
    split at hrow
    · rename_i hcurrent
      obtain ⟨said, calls₁, ctx₁, calls₂, rfl, hleads, hserved, hcomplete⟩ := hrow.of_ofHandling_bind
      have hnone : Context.Notes { now := now } [] := fun _ => rfl
      obtain ⟨own, hwrites, hown⟩ := (hhandler row ([] ++ [row])).gathered hcarries hleads hserved
        (hnone.observe row) (List.Subset.refl _)
      have hobserved : ctx₁.observed? row.id = some row.revision := by
        rw [hserved.observed? row.id, Context.observed?_observe, if_pos rfl]
        rfl
      obtain ⟨ending, hends, hall⟩ := hcomplete.of_complete hobserved
      rw [hserved.now_eq, Context.now_observe] at hends
      rw [Context.writes_observe, List.nil_append] at hwrites
      refine ⟨row, mem_told_of_get, hname, hcurrent.1, hcurrent.2, own, _, ending, ?_, ?_, hends⟩
      · rw [hall, hwrites]
      · intro w hw
        refine hcarries.mono ?_ (hown w hw)
        rw [List.flatMap_cons, List.flatMap_append, ← List.append_assoc]
        exact List.subset_append_left _ _
    · exact hrow.not_throw.elim

end Command

end DeferredWork

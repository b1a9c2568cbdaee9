import DeferredWork.Operator
import DeferredWork.Proofs.Cluster.Fairness

set_option autoImplicit false

/-!
# What an operator's transactions hand in

To schedule a job hands in its insertion, after an incident if the job is parked from the beginning
(`Operator.handsIn_scheduleCommand`); to cancel one hands in its deletion at whatever revision
(`Operator.handsIn_cancelCommand`).  Every other change of a job begins by reading it, and hands in an
amended form of the row that was read, at its revision: a suspended or active one
(`Operator.handsIn_update_pure`), or one with new retries, along with what goes with them
(`Operator.handsIn_changeRetries`).
-/

namespace DeferredWork

variable {ε : Type → Type} {α : Type}

namespace Operator

variable {id : JobId} {now : Instant} {calls : List (Exchange (Call ε))}
  {ws : List Write}

/-! ## Scheduling and cancelling -/

/-- What is handed in to schedule a job. -/
inductive Stores (job : Job) : List Write → Prop
  | active (active : job.isParked = false) : Stores job [.insert job]
  | parked (parked : job.isParked = true) (id : Uuid) (now : Instant) :
      Stores job [.raise (.forJob id job noRetriesLeft none now), .insert job]

theorem handsIn_scheduleCommand {job : Job}
    (h : Transaction.HandsIn (scheduleCommand (ε := ε) job) now calls ws) : Stores job ws := by
  obtain ⟨gathers, rfl, -⟩ := h
  unfold scheduleCommand at gathers
  dsimp only at gathers
  split at gathers
  · rename_i hparked
    obtain ⟨incident, rest, hstage⟩ := gathers.of_raiseFor_bind
    obtain rfl := hstage.of_stage
    exact .parked hparked incident now
  · rename_i hactive
    obtain rfl := gathers.of_stage
    exact .active (Bool.eq_false_iff.2 hactive)

theorem handsIn_cancelCommand (h : Transaction.HandsIn (cancelCommand (ε := ε) id) now calls ws) :
    ws = [.delete id .any] := by
  obtain ⟨gathers, rfl, hsome⟩ := h
  rcases gathers.of_find_bind with ⟨rest, rfl, hnone⟩ | ⟨row, rest, -, rfl, hrow⟩
  · obtain ⟨-, -, rfl⟩ := hnone.of_pure
    exact absurd rfl hsome
  · obtain ⟨-, -, rfl⟩ := hrow.of_stage_bind.of_pure
    rw [Context.writes_stage, Context.writes_observe]
    rfl

/-! ## Amending -/

theorem handsIn_update_pure {amend : Job → Job} (hname : ∀ row, (amend row).id = row.id)
    (h : Transaction.HandsIn (update (ε := ε) id fun job => pure (amend job)) now calls ws) :
    ∃ row ∈ calls.flatMap Exchange.told, row.id = id ∧
      ws = [.update (amend row) (.exactly row.revision)] := by
  obtain ⟨gathers, rfl, -⟩ := h
  rcases gathers.of_find_bind with ⟨rest, rfl, hnone⟩ | ⟨row, rest, hid, rfl, hrow⟩
  · exact hnone.not_throw.elim
  · dsimp only at hrow
    rw [pure_bind] at hrow
    obtain ⟨-, -, rfl⟩ := hrow.of_stage_bind.of_pure
    exact ⟨row, List.mem_append_left _ (List.mem_singleton_self row), hid,
      Context.writes_first_update now (hname row)⟩

/-- What is handed in to set the retries of a row: the incident of a parked row is resolved, and a row
that is parked by it gets one. -/
inductive Resets (row : Job) (retries : Nat) : List Write → Prop
  | renewed (parked : row.isParked = true) (renews : 0 < retries) (now : Instant) :
      Resets row retries
        [.resolve row.id now, .update { row with retries := retries } (.exactly row.revision)]
  | parked (active : row.isParked = false) (used : retries = 0) (id : Uuid) (now : Instant) :
      Resets row retries
        [.raise (.forJob id { row with retries := retries } noRetriesLeft none now),
          .update { row with retries := retries } (.exactly row.revision)]
  | same (like : row.isParked = (retries == 0)) :
      Resets row retries [.update { row with retries := retries } (.exactly row.revision)]

theorem handsIn_changeRetries {retries : Nat}
    (h : Transaction.HandsIn (update (ε := ε) id (changeRetries retries)) now calls ws) :
    ∃ row ∈ calls.flatMap Exchange.told, row.id = id ∧ Resets row retries ws := by
  obtain ⟨gathers, rfl, -⟩ := h
  rcases gathers.of_find_bind with ⟨rest, rfl, hnone⟩ | ⟨row, rest, hid, rfl, hrow⟩
  · exact hnone.not_throw.elim
  · refine ⟨row, List.mem_append_left _ (List.mem_singleton_self row), hid, ?_⟩
    have hnone : (Context.observe { now := now } row).writes = [] := Context.writes_observe _ row
    have hupdate : (Context.observe { now := now } row).writeOf
        (.update { row with retries := retries }) =
          .update { row with retries := retries } (.exactly row.revision) :=
      Context.writeOf_update_observe now rfl
    dsimp only at hrow
    unfold changeRetries at hrow
    dsimp only at hrow
    split at hrow
    · rename_i hrenews
      rw [bind_assoc] at hrow
      have hstaged := hrow.of_stage_bind
      rw [pure_bind] at hstaged
      obtain ⟨-, -, rfl⟩ := hstaged.of_stage_bind.of_pure
      rw [Context.writes_stage, Context.writes_stage, hnone, Context.writeOf_stage, hupdate]
      exact .renewed hrenews.2 hrenews.1 _
    · split at hrow
      · rename_i hparks
        rw [bind_assoc] at hrow
        obtain ⟨incident, rest, hstaged⟩ := hrow.of_raiseFor_bind
        rw [pure_bind] at hstaged
        obtain ⟨-, -, rfl⟩ := hstaged.of_stage_bind.of_pure
        rw [Context.writes_stage, Context.writes_stage, hnone, Context.writeOf_stage, hupdate]
        exact .parked (Bool.eq_false_iff.2 hparks.2) hparks.1 incident _
      · rename_i hrenews hparks
        rw [pure_bind] at hrow
        obtain ⟨-, -, rfl⟩ := hrow.of_stage_bind.of_pure
        rw [Context.writes_stage, hnone, hupdate]
        refine .same ?_
        rw [Bool.eq_iff_iff, beq_iff_eq]
        constructor
        · intro hparked
          exact Nat.eq_zero_of_not_pos fun hpos => hrenews ⟨hpos, hparked⟩
        · intro hzero
          exact Decidable.not_not.1 fun hactive => hparks ⟨hzero, hactive⟩

end Operator

/-! ## The conduct of operators -/

namespace Conduct

/-- A conduct that is about batches alone, given the rows that were told. -/
def ofBatches (allowed : List Job → List Write → Prop) : Conduct ε where
  apply talk := allowed (talk.flatMap Exchange.told)

/-- A conduct that is about batches alone, each of which goes with a row of a name that was told. -/
def ofRow (id : JobId) (goes : Job → List Write → Prop) : Conduct ε :=
  .ofBatches fun known ws => ∃ row ∈ known, row.id = id ∧ goes row ws

variable {allowed : List Job → List Write → Prop}

/-- A transaction keeps a conduct that allows what its command hands in. -/
theorem keeps_ofBatches (limit : Duration) {command : Command ε α}
    (hmono : ∀ {known more ws}, known ⊆ more → allowed known ws → allowed more ws)
    (hallowed : ∀ now calls ws, Transaction.HandsIn command now calls ws →
      allowed (calls.flatMap Exchange.told) ws) (talk : List (Exchange (Call ε))) :
    (Transaction.run limit command).Keeps (ofBatches allowed).rules (fun _ _ => True) talk := by
  refine (Operator.frame_true.keeps_run_handsIn limit (fun now calls ws _ hhands => ?_) trivial).mono
    fun _ _ _ => trivial
  refine hmono (fun row hrow => ?_) (hallowed now calls ws hhands)
  rw [List.flatMap_append, List.flatMap_cons]
  exact List.mem_append_right _ (List.mem_append_right _ hrow)

theorem keeps_ofRow (limit : Duration) {command : Command ε α} {id : JobId}
    {goes : Job → List Write → Prop}
    (hgoes : ∀ now calls ws, Transaction.HandsIn command now calls ws →
      ∃ row ∈ calls.flatMap Exchange.told, row.id = id ∧ goes row ws)
    (talk : List (Exchange (Call ε))) :
    (Transaction.run limit command).Keeps (ofRow id goes).rules (fun _ _ => True) talk :=
  keeps_ofBatches limit (fun hsub h => h.imp fun _ hrow => ⟨hsub hrow.1, hrow.2⟩) hgoes talk

theorem keeps_wakeIf (acquirable : Bool) (talk : List (Exchange (Call ε))) :
    (Operator.wakeIf acquirable).Keeps (ofBatches allowed).rules (fun _ _ => True) talk := by
  unfold Operator.wakeIf
  split
  · exact ⟨trivial, fun _ _ => trivial⟩
  · trivial

end Conduct

namespace Operator

theorem keeps_stores (operator : Operator) (job : Job) :
    (operator.schedule job).Keeps (Conduct.ofBatches (ε := ε) fun _ ws => Stores job ws).rules
      (fun _ _ => True) [] := by
  have hrun : ∀ talk, (operator.transact (scheduleCommand job)).Keeps
      (Conduct.ofBatches (ε := ε) fun _ ws => Stores job ws).rules (fun _ _ => True) talk :=
    Conduct.keeps_ofBatches operator.limit (fun _ h => h) fun _ _ _ => handsIn_scheduleCommand
  refine Interaction.keeps_query_bind.2 ⟨trivial, fun now _ => Interaction.keeps_bind.2 ?_⟩
  refine (hrun _).mono fun talk outcome _ => ?_
  cases outcome with
  | error e => trivial
  | ok _ => exact Interaction.keeps_bind.2 ((Conduct.keeps_wakeIf _ _).mono fun _ _ _ => trivial)

theorem keeps_deletes (operator : Operator) (id : JobId) :
    (operator.cancel id).Keeps (Conduct.ofBatches (ε := ε) fun _ ws => ws = [.delete id .any]).rules
      (fun _ _ => True) [] := by
  have hrun : (operator.transact (cancelCommand id)).Keeps
      (Conduct.ofBatches (ε := ε) fun _ ws => ws = [.delete id .any]).rules (fun _ _ => True) [] :=
    Conduct.keeps_ofBatches operator.limit (fun _ h => h) (fun _ _ _ => handsIn_cancelCommand) []
  refine Interaction.keeps_bind.2 (hrun.mono fun talk outcome _ => ?_)
  cases outcome <;> trivial

theorem keeps_resets (operator : Operator) (id : JobId) (retries : Nat) :
    (operator.setRetries id retries).Keeps
      (Conduct.ofRow (ε := ε) id fun row ws => Resets row retries ws).rules (fun _ _ => True) [] := by
  have hrun : (operator.transact (update id (changeRetries retries))).Keeps
      (Conduct.ofRow (ε := ε) id fun row ws => Resets row retries ws).rules (fun _ _ => True) [] :=
    Conduct.keeps_ofRow operator.limit (fun _ _ _ => handsIn_changeRetries) []
  refine Interaction.keeps_bind.2 (hrun.mono fun talk outcome _ => ?_)
  cases outcome with
  | error e => trivial
  | ok job =>
    refine Interaction.keeps_query_bind.2 ⟨trivial, fun now _ => Interaction.keeps_bind.2 ?_⟩
    exact (Conduct.keeps_wakeIf _ _).mono fun _ _ _ => trivial

theorem keeps_amends (operator : Operator) (id : JobId) (amend : Job → Job)
    (hname : ∀ row, (amend row).id = row.id) :
    (operator.transact (update id fun job => pure (amend job))).Keeps
      (Conduct.ofRow (ε := ε) id fun row ws =>
        ws = [.update (amend row) (.exactly row.revision)]).rules (fun _ _ => True) [] :=
  Conduct.keeps_ofRow operator.limit (fun _ _ _ => handsIn_update_pure hname) []

theorem keeps_suspends (operator : Operator) (id : JobId) :
    (operator.suspend id).Keeps
      (Conduct.ofRow (ε := ε) id fun row ws =>
        ws = [.update { row with suspended := true } (.exactly row.revision)]).rules
      (fun _ _ => True) [] :=
  operator.keeps_amends id (fun row => { row with suspended := true }) fun _ => rfl

theorem keeps_activates (operator : Operator) (id : JobId) :
    (operator.activate id).Keeps
      (Conduct.ofRow (ε := ε) id fun row ws =>
        ws = [.update { row with suspended := false } (.exactly row.revision)]).rules
      (fun _ _ => True) [] := by
  have hrun := operator.keeps_amends (ε := ε) id (fun row => { row with suspended := false })
    fun _ => rfl
  refine Interaction.keeps_bind.2 (hrun.mono fun talk outcome _ => ?_)
  cases outcome with
  | error e => trivial
  | ok job => exact Interaction.keeps_bind.2 ((Conduct.keeps_wakeIf _ _).mono fun _ _ _ => trivial)

end Operator

end DeferredWork

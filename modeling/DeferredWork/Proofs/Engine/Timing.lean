import DeferredWork.Proofs.Engine.Acquiring

set_option autoImplicit false

/-!
# For how long an engine locks

Every lock that an engine hands in lasts for the duration of its locks, from the time that is
written with it (`Engine.keeps_timing`).  What an engine executes, it executes on the row that it
finds: the handler of a locked job is invoked exactly if the row that is found carries the revision
of the job and the name of the engine (`Command.invokes_iff`).  Nothing there looks at the expiry.
-/

namespace DeferredWork

variable {ε : Type → Type} {α : Type}

/-! ## The expiry of a lock -/

/-- A lock lasts for a duration from the time that is written with it. -/
def Write.LastsFor (duration : Duration) : Write → Prop
  | .lock _ _ _ expiry now => now.after? duration = some expiry
  | _ => True

namespace Engine

/-- All locks that are handed in last for the duration of the engine's locks. -/
def timing (engine : Engine ε) : Conduct ε where
  apply _ ws := ∀ w ∈ ws, w.LastsFor engine.lockDuration
  dispatch _ _ := True
  takeToken _ _ := True
  giveToken _ _ := True

/-- A routine hands in locks that last for the duration of the engine's locks only. -/
def IsTimed (engine : Engine ε) (r : Routine ε α) (talk : List (Exchange (Call ε))) : Prop :=
  r.Keeps engine.timing.rules (fun _ _ => True) talk

variable (engine : Engine ε) (talk : List (Exchange (Call ε)))

theorem isTimed_giveBack (token : Option ScopeId) :
    engine.IsTimed (Routine.giveBack token) talk := by
  cases token with
  | none => trivial
  | some scope => exact ⟨trivial, fun _ _ => trivial⟩

theorem isTimed_lock (job : Job) : engine.IsTimed (engine.lock job) talk := by
  refine Interaction.keeps_bind.2 ⟨trivial, fun now _ => ?_⟩
  dsimp only
  rcases Transaction.runFrom_lockJob engine.limit job engine.owner engine.lockDuration now with
    ⟨e, he⟩ | ⟨expiry, hexpiry, he⟩
  · rw [he]
    trivial
  · rw [he]
    have hlasts : (Write.lock job.id job.revision engine.owner expiry now).LastsFor
        engine.lockDuration := hexpiry
    refine keeps_callStore_bind (List.forall_mem_singleton.2 hlasts) (fun rows _ => ?_)
      fun e => trivial
    exact keeps_callStore_bind trivial (fun _ _ => trivial) fun _ => trivial

theorem isTimed_unlock (id : JobId) : engine.IsTimed (engine.unlock id) talk := by
  refine Interaction.keeps_bind.2 ((Operator.frame_true.keeps_run_handsIn engine.limit
    (fun now calls ws _ hhands => ?_) trivial).mono ?_)
  · obtain ⟨row, -, -, -, rfl⟩ := Command.handsIn_releaseLock hhands
    exact List.forall_mem_singleton.2 trivial
  · intro talk outcome _
    cases outcome <;> trivial

theorem isTimed_offer (job : Job) (token : Option ScopeId) :
    engine.IsTimed (engine.offer job token) talk := by
  have hgiven : ∀ {α : Type} (a : α) talk,
      engine.IsTimed ((Routine.giveBack token).bind fun _ => .done a) talk :=
    fun _ talk => Interaction.keeps_bind.2 (engine.isTimed_giveBack talk token)
  have hlock := engine.isTimed_lock talk job
  refine Interaction.Keeps.onAbort (Interaction.keeps_bind.2 (hlock.mono ?_)) _
  intro talk outcome _
  match outcome with
  | .error e => exact hgiven _ talk
  | .ok none => exact hgiven _ talk
  | .ok (some locked) =>
    refine Interaction.keeps_query_bind.2 ⟨trivial, fun accepted _ => ?_⟩
    cases accepted with
    | true => exact ⟨trivial, fun _ _ => ⟨trivial, fun _ _ => trivial⟩⟩
    | false =>
      refine Interaction.keeps_query_bind.2 ⟨trivial, fun _ _ => ?_⟩
      exact Interaction.keeps_bind.2 ((engine.isTimed_unlock _ locked.id).mono
        fun talk _ _ => hgiven _ talk)

theorem isTimed_takeTokenFor (tried : List ScopeId) (job : Job) :
    engine.IsTimed (takeTokenFor tried job) talk := by
  unfold takeTokenFor
  split
  · trivial
  · split
    · trivial
    · refine Interaction.keeps_query_bind.2 ⟨trivial, fun taken _ => ?_⟩
      cases taken <;> trivial

theorem isTimed_offerAll (jobs : List Job) (tried : List ScopeId) (report : CycleReport) :
    engine.IsTimed (engine.offerAll jobs tried report) talk := by
  induction jobs generalizing tried report talk with
  | nil => trivial
  | cons job jobs ih =>
    refine Interaction.keeps_bind.2 ((engine.isTimed_takeTokenFor talk tried job).mono ?_)
    intro talk taken _
    match taken with
    | none => exact ih talk _ _
    | some token =>
      refine Interaction.keeps_bind.2 ((engine.isTimed_offer talk job token).mono ?_)
      intro talk outcome _
      match outcome with
      | .error e => trivial
      | .ok .lost => exact ih talk _ _
      | .ok .dispatched => exact ih talk _ _
      | .ok .rejected => trivial

/-- An acquisition cycle takes locks that last for the duration of the engine's locks, from the time
that is written with them. -/
theorem keeps_timing (batch : Nat) : engine.IsTimed (engine.acquire batch) [] := by
  have hcycle : ∀ talk, engine.IsTimed (engine.runCycle batch) talk := by
    intro talk
    refine Interaction.keeps_query_bind.2 ⟨trivial, fun _ _ => ?_⟩
    refine Interaction.keeps_query_bind.2 ⟨trivial, fun now _ => ?_⟩
    refine keeps_callStore_bind trivial (fun jobs _ => ?_) fun _ => trivial
    cases jobs with
    | nil => trivial
    | cons job jobs =>
      exact Interaction.keeps_query_bind.2 ⟨trivial, fun _ _ => engine.isTimed_offerAll _ _ _ _⟩
  refine Interaction.keeps_query_bind.2 ⟨trivial, fun _ _ => ?_⟩
  refine Interaction.keeps_bind.2 ((hcycle _).mono fun talk result _ => ?_)
  refine Interaction.keeps_query_bind.2 ⟨trivial, fun _ _ => ?_⟩
  cases result with
  | error e => exact Interaction.keeps_query_bind.2 ⟨trivial, fun _ _ => trivial⟩
  | ok report => trivial

end Engine

/-! ## When a handler is invoked -/

namespace Command

/-- What a handler does with a row, and then the end of the row. -/
def handled (handler : Handler ε) (row : Job) : Command ε Completion := do
  ofHandling (handler.handle row)
  complete row

/-- The execution of a locked job, once it has found a row, goes on with what the handler does with
that row. -/
def Invokes (job : Job) (owner : Owner) (handler : Handler ε) (row : Job) : Prop :=
  (executeJob job owner handler).run.Leads [⟨.find job.id, .ok (some row)⟩]
    (handled handler row).run

/-- What a handler does with a row never is contention from the start. -/
theorem run_handled_ne_contention (handler : Handler ε) (row : Job) (reason : String) :
    (handled handler row).run ≠ .done (.error (.contention reason)) := by
  intro h
  change (ofHandling (handler.handle row) >>= fun _ => complete row).run = _ at h
  change ((handler.handle row).run.bind _).bind _ = _ at h
  cases hrun : (handler.handle row).run with
  | ask q next =>
    rw [hrun] at h
    cases h
  | abort reason =>
    rw [hrun] at h
    cases h
  | done outcome =>
    rw [hrun] at h
    cases outcome with
    | error e => cases h
    | ok _ =>
      change (complete row).run = _ at h
      unfold complete at h
      split at h <;> cases h

/-- The handler is invoked on the row of a job exactly if the row is at the revision of the job and
locked by the owner. -/
theorem invokes_iff {job : Job} {owner : Owner} {handler : Handler ε} {row : Job} :
    Invokes job owner handler row ↔ row.revision = job.revision ∧ row.isLockedBy owner = true := by
  obtain ⟨reason, hfound⟩ : ∃ reason,
      (executeJob job owner handler).run.Leads [⟨.find job.id, .ok (some row)⟩]
        (if row.revision = job.revision ∧ row.isLockedBy owner = true then handled handler row
          else contention reason).run := ⟨_, .ask (.stop _)⟩
  constructor
  · intro h
    have hsame := h.unique hfound
    split at hsame
    · assumption
    · exact absurd hsame (run_handled_ne_contention handler row _)
  · intro h
    rwa [if_pos h] at hfound

end Command

end DeferredWork

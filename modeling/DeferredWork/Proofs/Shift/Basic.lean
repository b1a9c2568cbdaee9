import DeferredWork.Proofs.Fleet.Memory
import DeferredWork.Proofs.Routine.Play
import DeferredWork.Proofs.Shift.Deeds

set_option autoImplicit false

/-!
# Shifts

In a shift the engines and operators do one task after the other, each to its end before the next
begins, on a store that is empty at first (`Shift.Reachable`).  The store may go out of reach and
come back at any time, also in the middle of a task.  What was accepted is a history of the store
(`Shift.Reachable.commits`).  If no name is inserted twice, each job that was dispatched had retries
left, and the store holds it as it was dispatched or has gone past that
(`Shift.Reachable.recalls`).
-/

namespace DeferredWork

variable {ι : Type} {ε : Type → Type} {α : Type}

/-- The job that a pool accepted. -/
def Event.accepted? : Event ε → Option Dispatched
  | .own ⟨.dispatch d, true⟩ => some d
  | _ => none

theorem Event.accepted?_eq_some_iff {event : Event ε} {d : Dispatched} :
    event.accepted? = some d ↔ event = .own ⟨.dispatch d, true⟩ := by
  constructor
  · intro h
    unfold accepted? at h
    split at h
    · cases h
      rfl
    · cases h
  · rintro rfl
    rfl

/-- A task that was done, and what happened meanwhile. -/
structure Spell (ι : Type) (ε : Type → Type) : Type 1 where
  task : Task ι ε
  trace : List (Event ε)

/-- The jobs that were dispatched in a spell, each with the seat of the engine. -/
def Spell.dispatched (spell : Spell ι ε) : List (ι × Dispatched) :=
  match spell.task with
  | .acquire seat _ => (spell.trace.filterMap Event.accepted?).map (seat, ·)
  | _ => []

/-- Work that is done one task after the other. -/
structure Shift (ι : Type) (ε : Type → Type) : Type 1 where
  store : Store
  /-- The tasks that were done, in order. -/
  history : List (Spell ι ε)

namespace Shift

/-- Before any work. -/
def start : Shift ι ε := ⟨.empty, []⟩

/-- The batches that the store accepted. -/
def log (w : Shift ι ε) : List (List Write) :=
  w.history.flatMap fun spell => spell.trace.filterMap Event.batch?

/-- The jobs that were dispatched, each with the seat of the engine. -/
def dispatched (w : Shift ι ε) : List (ι × Dispatched) := w.history.flatMap Spell.dispatched

/-- The shifts that come about if at each point only some tasks are allowed. -/
inductive Reachable (engine : ι → Engine ε) (allows : Shift ι ε → Task ι ε → Prop) :
    Shift ι ε → Prop
  | start : Reachable engine allows .start
  | work {w : Shift ι ε} {task : Task ι ε} {trace : List (Event ε)} {s' : Store}
      {r' : Routine ε task.Result} (h : Reachable engine allows w) (allowed : allows w task)
      (runs : Routine.Runs w.store (task.routine engine) trace s' r')
      (alone : trace.filterMap Event.others? = []) (ended : r'.isOver = true) :
      Reachable engine allows ⟨s', w.history ++ [⟨task, trace⟩]⟩

variable {engine : ι → Engine ε} {allows : Shift ι ε → Task ι ε → Prop} {w : Shift ι ε}

theorem log_snoc (w : Shift ι ε) (s' : Store) (spell : Spell ι ε) :
    log ⟨s', w.history ++ [spell]⟩ = w.log ++ spell.trace.filterMap Event.batch? := by
  rw [log, List.flatMap_append, List.flatMap_singleton, log]

theorem dispatched_snoc (w : Shift ι ε) (s' : Store) (spell : Spell ι ε) :
    dispatched ⟨s', w.history ++ [spell]⟩ = w.dispatched ++ spell.dispatched := by
  rw [dispatched, List.flatMap_append, List.flatMap_singleton, dispatched]

/-- The log is the history of the store. -/
theorem Reachable.commits (h : w.Reachable engine allows) : Store.empty.Commits w.log w.store := by
  induction h with
  | start => exact .none _
  | work h allowed runs alone ended ih =>
    rw [log_snoc]
    exact ih.append runs.commits

end Shift

/-! ## Jobs that were dispatched -/

/-- A row that a store comes to hold goes back to a job that was stored. -/
theorem Store.Commits.recalls {s s' : Store} {batches : List (List Write)} {id : JobId} {row : Job}
    (h : s.Commits batches s') (hrow : s'.jobs.find? id = some row) :
    s.Recalls batches s'.jobs False row := by
  obtain rfl := JobTable.id_of_find? hrow
  have hnamed := h.named hrow
  rw [← Store.map_id_births] at hnamed
  obtain ⟨birth, hmem, hname⟩ := List.mem_map.1 hnamed
  exact ⟨.inl hrow, birth, hmem, hname, False.elim⟩

namespace Shift

variable {engine : ι → Engine ε} {allows : Shift ι ε → Task ι ε → Prop} {w : Shift ι ε}

/-- If no name is inserted twice, a job that was dispatched had retries left, and the store has held
it as it was dispatched. -/
theorem Reachable.recalls (h : w.Reachable engine allows)
    (honce : Store.empty.InsertsOnce w.log) {seat : ι} {d : Dispatched}
    (hdispatched : (seat, d) ∈ w.dispatched) :
    Store.empty.Recalls w.log w.store.jobs False d.job ∧ d.job.isParked = false := by
  induction h with
  | start => cases hdispatched
  | @work w task trace s' r' h allowed runs alone ended ih =>
    rw [log_snoc] at honce ⊢
    rw [dispatched_snoc] at hdispatched
    rcases List.mem_append.1 hdispatched with hbefore | hnow
    · obtain ⟨hrecalls, hactive⟩ := ih honce.of_append hbefore
      exact ⟨hrecalls.of_commits runs.commits honce, hactive⟩
    · cases task with
      | acquire seat' batch =>
        obtain ⟨d', hmem, hpair⟩ := List.mem_map.1 hnow
        cases hpair
        obtain ⟨event, hevent, haccepted⟩ := List.mem_filterMap.1 hmem
        obtain rfl := Event.accepted?_eq_some_iff.1 haccepted
        obtain ⟨before, after, rfl⟩ := List.append_of_mem hevent
        obtain ⟨s₁, r₁, hbefore, ⟨hstored, hactive⟩, hafter⟩ :=
          runs.dispatched ((engine seat).ensures_acquire batch) (fun _ => trivial)
            (fun e he => Setting.includes_of_alone trivial alone e (List.mem_append_left _ he))
        rw [List.filterMap_append, ← List.append_assoc] at honce ⊢
        have hthere := (h.commits.append hbefore.commits).recalls hstored
        exact ⟨hthere.of_commits hafter.commits honce, hactive⟩
      | _ => cases hnow

/-- What a task does, in terms of deeds. -/
theorem deeds_of_runs {task : Task ι ε} {s s' : Store} {trace : List (Event ε)}
    {r' : Routine ε task.Result} {removable : Contents → JobId → Prop}
    (runs : Routine.Runs s (task.routine engine) trace s' r')
    (alone : trace.filterMap Event.others? = []) (ended : r'.isOver = true)
    (hspares : task.Spares removable s.contents)
    (hquiet : ∀ seat kind handler, (engine seat).handlers.resolve kind = some handler →
      handler.StagesNothing) :
    Relation.ReflTransGen (Deed removable) s.contents s'.contents := by
  obtain ⟨_, -, hdeeds⟩ := (runs.ensured (task.ensures_deeds hspares hquiet) (fun _ => trivial)
    (Setting.includes_of_alone trivial alone)).done_of_isOver ended
  exact hdeeds

/-! ## Playing a shift -/

/-- The shift after a task that is played. -/
def work (engine : ι → Engine ε) (w : Shift ι ε) (circumstances : Circumstances) (task : Task ι ε) :
    Shift ι ε :=
  let played := (task.routine engine).play circumstances w.store
  ⟨played.2.2, w.history ++ [⟨task, played.1.map Event.own⟩]⟩

theorem Reachable.play (h : w.Reachable engine allows) (circumstances : Circumstances)
    {task : Task ι ε} (allowed : allows w task)
    (hdone : ((task.routine engine).play circumstances w.store).2.1.isSome = true) :
    (w.work engine circumstances task).Reachable engine allows := by
  obtain ⟨value, hvalue⟩ := Option.isSome_iff_exists.1 hdone
  exact .work h allowed (Routine.runs_play circumstances hvalue) (Routine.others?_own _) rfl

end Shift

end DeferredWork

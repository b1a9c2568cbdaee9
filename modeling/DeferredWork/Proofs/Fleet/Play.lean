import Mathlib.Data.List.Sort
import DeferredWork.Proofs.Fleet.Memory

set_option autoImplicit false

/-!
# Playing a fleet

A play is a list of moves: a task begins, or one that is under way makes its next calls, with clocks
and pools answering as the move says.  A move that cannot be made leaves the fleet as it is.  So
every play comes out somewhere, and where it comes out is reachable (`Fleet.Reachable.play`); what
came about in it can be computed.
-/

namespace DeferredWork

variable {ι : Type} {ε : Type → Type} {β : Type} {engine : ι → Engine ε} [DecidableEq ι]

/-- The order of polling, as a relation. -/
abbrev Job.PolledBefore (a b : Job) : Prop := a.isPolledBefore b = true

instance : Std.Total Job.PolledBefore where
  total a b := by simpa using a.isPolledBefore_total b

instance : IsTrans Job Job.PolledBefore where
  trans := Job.isPolledBefore_trans

/-- The poll can be computed by insertion, since no two rows of a table are level. -/
theorem JobTable.poll_eq_insertionSort (t : JobTable) (now : Instant) (limit : Nat) :
    t.poll now limit =
      ((t.rows.filter (t.isEligible now)).insertionSort Job.PolledBefore).take limit := by
  rw [poll_eq]
  congr 1
  have hrows : ∀ {job}, job ∈ t.rows.filter (t.isEligible now) → t.find? job.id = some job :=
    fun hjob => find?_eq_some_of_mem (List.mem_filter.1 hjob).1
  refine @List.Perm.eq_of_pairwise _ Job.PolledBefore _ _ ?_ ?_ ?_ ?_
  · intro a b ha hb hab hba
    have hlevel : a.pollOrder b = .eq := by
      rw [Job.PolledBefore, Job.isPolledBefore] at hab hba
      rw [@Std.OrientedCmp.eq_swap Job Job.pollOrder _ b a] at hba
      cases horder : a.pollOrder b with
      | eq => rfl
      | lt => rw [horder] at hba; cases hba
      | gt => rw [horder] at hab; cases hab
    have ha' := hrows ((List.mergeSort_perm _ _).mem_iff.1 ha)
    have hb' := hrows ((List.perm_insertionSort _ _).mem_iff.1 hb)
    rw [Job.id_eq_of_level hlevel, hb'] at ha'
    exact (Option.some.inj ha').symm
  · exact List.pairwise_mergeSort (Job.isPolledBefore_trans) (Job.isPolledBefore_total) _
  · exact List.pairwise_insertionSort _ _
  · exact (List.mergeSort_perm _ _).trans (List.perm_insertionSort _ _).symm

/-- How the store answers a call, with the poll computed by insertion. -/
def Store.respondByInsertion (s : Store) : StoreCall β → Except Fault β × Store
  | .findDue now limit =>
    let due := (s.jobs.rows.filter (s.jobs.isEligible now)).insertionSort Job.PolledBefore
    ((s.answer (due.take limit)).mapError Fault.refused, s)
  | call => s.respond call

theorem Store.respondByInsertion_eq (s : Store) (call : StoreCall β) :
    s.respondByInsertion call = s.respond call := by
  cases call with
  | findDue now limit =>
    rw [respond_findDue, findDue_eq, JobTable.poll_eq_insertionSort, respondByInsertion]
  | _ => rfl

/-- What clocks show and pools have room for. -/
structure Circumstances where
  now : Instant
  hasRoom : Bool := true
  drawn : Uuid := .nil

namespace Fleet

/-- The answer to a call of the engine at a seat, or of an operator, and the store after it.  What a
handler asks of its own gets no answer. -/
def reply (f : Fleet engine) (seat : Option ι) (c : Circumstances) :
    {β : Type} → Call ε β → β × Store
  | _, .store call => f.store.respondByInsertion call
  | _, .clock => (c.now, f.store)
  | _, .draw => (c.drawn, f.store)
  | _, .wallClock => (c.now, f.store)
  | _, .takeToken scope => (seat.all fun i => !(f.tokens i).isHeld scope, f.store)
  | _, .giveToken _ => ((), f.store)
  | _, .dispatch _ => (c.hasRoom, f.store)
  | _, .enter _ => ((), f.store)
  | _, .count _ _ => ((), f.store)
  | _, .notify _ => ((), f.store)
  | _, .wake => ((), f.store)
  | _, .foreign _ => (.error "no answer", f.store)

omit [DecidableEq ι] in
theorem replies_reply (f : Fleet engine) (seat : Option ι) (c : Circumstances) (call : Call ε β) :
    f.Replies seat call (f.reply seat c call).1 (f.reply seat c call).2 := by
  cases call with
  | takeToken scope =>
    refine ⟨rfl, fun i hi => ?_⟩
    obtain rfl := Option.mem_def.1 hi
    rfl
  | store call => exact (f.store.respondByInsertion_eq call).symm
  | _ => rfl

/-- The fleet after the next call of the task at a place. -/
def call (f : Fleet engine) (c : Circumstances) (place : Place ι) : Fleet engine :=
  match f.threads place with
  | none => f
  | some thread =>
    match asks : thread.rest with
    | .ask call _ =>
      let (answer, s') := f.reply thread.task.seat? c call
      f.advance ⟨place, thread.task, ⟨call, answer⟩⟩ (thread.goOn asks answer) s'
    | _ => f

/-- The fleet after some calls of the task at a place. -/
def calls (f : Fleet engine) (c : Circumstances) (place : Place ι) : Nat → Fleet engine
  | 0 => f
  | n + 1 => (f.call c place).calls c place n

/-- Something that a fleet does. -/
inductive Move (ι : Type) (ε : Type → Type) : Type 1 where
  | begin (place : Place ι) (task : Task ι ε) (suits : place.Suits task)
  | call (place : Place ι) (times : Nat) (circumstances : Circumstances)

/-- The fleet after a move. -/
def move (f : Fleet engine) : Move ι ε → Fleet engine
  | .begin place task _ => if f.isVacant place then f.enter place task else f
  | .call place times c => f.calls c place times

/-- The fleet after some moves. -/
def play (f : Fleet engine) (moves : List (Move ι ε)) : Fleet engine := moves.foldl move f

variable {s : Store} {f : Fleet engine}

theorem eq_or_step_call (f : Fleet engine) (c : Circumstances) (place : Place ι) :
    f.call c place = f ∨ Step f (f.call c place) := by
  unfold Fleet.call
  split
  · exact .inl rfl
  · rename_i thread here
    split
    · rename_i β call next asks
      exact .inr (.turn here asks (f.replies_reply thread.task.seat? c call))
    · exact .inl rfl

theorem Reachable.call (h : Reachable s f) (c : Circumstances) (place : Place ι) :
    Reachable s (f.call c place) := by
  rcases f.eq_or_step_call c place with hsame | hstep
  · rw [hsame]
    exact h
  · exact h.step hstep

theorem Reachable.calls (h : Reachable s f) (c : Circumstances) (place : Place ι) (n : Nat) :
    Reachable s (f.calls c place n) := by
  induction n generalizing f with
  | zero => exact h
  | succ n ih => exact ih (h.call c place)

theorem Reachable.move (h : Reachable s f) (m : Move ι ε) : Reachable s (f.move m) := by
  cases m with
  | begin place task suits =>
    rw [Fleet.move]
    split
    · rename_i vacant
      exact h.step (.enter suits vacant)
    · exact h
  | call place times c => exact h.calls c place times

/-- Where a play comes out is reachable. -/
theorem Reachable.play (h : Reachable s f) (moves : List (Move ι ε)) :
    Reachable s (f.play moves) := by
  induction moves generalizing f with
  | nil => exact h
  | cons m moves ih => exact ih (h.move m)

end Fleet

/-! ## Two engines -/

/-- Two engines, left and right, with names of their own.  Jobs of the kind "mail" are executed by
doing nothing. -/
def Engine.ofPair (left : Bool) : Engine fun _ => Empty where
  owner := if left then ⟨"left"⟩ else ⟨"right"⟩
  lockDuration := .ofMillis 5
  limit := .ofMillis 1
  backoff _ := .zero
  handlers := Registry.empty.register "mail" .idle

theorem Engine.ofPair_owner_injective :
    Function.Injective fun left => (Engine.ofPair left).owner := by
  have hne : (Engine.ofPair true).owner ≠ (Engine.ofPair false).owner := by decide +kernel
  intro a b h
  match a, b, h with
  | true, true, _ => rfl
  | false, false, _ => rfl
  | true, false, h => exact absurd h hne
  | false, true, h => exact absurd h.symm hne

theorem Engine.stagesNothing_ofPair {left : Bool} {kind : String} {handler : Handler fun _ => Empty}
    (h : (Engine.ofPair left).handlers.resolve kind = some handler) : handler.StagesNothing := by
  obtain ⟨pattern, hmem⟩ := Registry.exists_mem_of_resolve h
  cases List.mem_singleton.1 hmem
  exact Handler.stagesNothing_idle

theorem Task.IsOrderly.ofPair {scopesFixed : Prop} {task : Task Bool fun _ => Empty}
    (h : task.isNamed = true) : task.IsOrderly Engine.ofPair scopesFixed := by
  cases task with
  | run left d => exact fun kind handler h => (Engine.stagesNothing_ofPair h).isFair _
  | transact limit command => cases h
  | _ => trivial

theorem Fleet.IsOrderly.ofPair {scopesFixed : Prop} {f : Fleet Engine.ofPair}
    (h : f.history.all (fun turn => turn.task.isNamed) = true) : f.IsOrderly scopesFixed :=
  fun turn hmem => Task.IsOrderly.ofPair (List.all_eq_true.1 h turn hmem)

/-- The start of 1970, with room in all pools. -/
def Circumstances.early : Circumstances := ⟨.epoch, true, .nil⟩

/-- Six milliseconds later.  The locks that the pair took at the start have expired. -/
def Circumstances.late : Circumstances :=
  ⟨Instant.epoch.afterOrLast (.ofMillis 6), true, .nil⟩

/-- The expiry of the locks that are taken at the start. -/
def earlyExpiry : Instant := Instant.epoch.afterOrLast (.ofMillis 5)

/-- The expiry of the locks that are taken six milliseconds after the start. -/
def lateExpiry : Instant := Instant.epoch.afterOrLast (.ofMillis 11)

/-- A stored job of the kind "mail". -/
def Job.mail (name : String) : Job := { Job.new ⟨name⟩ "mail" .epoch with revision := 1 }

/-- A store with two jobs. -/
def Store.ofTwo (a b : Job) : Store := { empty with jobs := (JobTable.empty.put a).put b }

end DeferredWork

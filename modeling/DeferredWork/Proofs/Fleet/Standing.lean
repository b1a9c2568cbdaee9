import Mathlib.Data.List.Induction
import DeferredWork.Proofs.Fleet.Memory

set_option autoImplicit false

/-!
# How locks stand in a fleet

A lock that stands in the store outlasts every call of an orderly task, except that the task which
its owner has at work on the very job may give it up, that the job may be deleted without a guard,
and that a new lock may be taken on the job once the old one has expired
(`Fleet.Reachable.stands`).  A call that brings no batch through leaves the store as it is.
-/

namespace DeferredWork

variable {ι : Type} {ε : Type → Type} {α β : Type}

/-! ## Batches -/

/-- A call that brings no batch through leaves the store as it is. -/
theorem Call.Answered.unchanged {s s' : Store} {call : Call ε β} {answer : β}
    (h : call.Answered s answer s') (hnone : Event.batch? (.own ⟨call, answer⟩) = none) :
    s' = s := by
  cases call with
  | store call =>
    cases call with
    | get id =>
      rw [Answered, Store.respond_get] at h
      exact (congrArg Prod.snd h).symm
    | findDue now limit =>
      rw [Answered, Store.respond_findDue] at h
      exact (congrArg Prod.snd h).symm
    | apply ws =>
      cases answer with
      | ok rows => cases hnone
      | error fault =>
        rw [Answered, Store.respond_apply] at h
        split at h
        · exact (congrArg Prod.snd h).symm
        · cases h
  | _ => exact h

/-- The time at which a write takes a lock on the job of a name. -/
def Write.locksAt? (id : JobId) : Write → Option Instant
  | .lock k _ _ _ now => if k = id then some now else none
  | _ => none

theorem Write.locksAt?_eq_some_iff {id : JobId} {now : Instant} {w : Write} :
    w.locksAt? id = some now ↔ ∃ revision owner expiry, w = .lock id revision owner expiry now := by
  cases w with
  | lock k revision owner expiry now' =>
    by_cases hk : k = id
    · simp [locksAt?, hk]
    · simp [locksAt?, hk]
  | _ => simp [locksAt?]

theorem Write.touches_of_locksAt? {id : JobId} {now : Instant} {w : Write}
    (h : w.locksAt? id = some now) : w.touches id = true := by
  obtain ⟨_, _, _, rfl⟩ := Write.locksAt?_eq_some_iff.1 h
  exact beq_self_eq_true id

theorem Write.locksAt?_eq_none_of_touches {id : JobId} {w : Write} (h : w.touches id = false) :
    w.locksAt? id = none := by
  refine Option.eq_none_iff_forall_not_mem.2 fun time htime => ?_
  rw [Write.touches_of_locksAt? htime] at h
  cases h

/-- A batch that takes a lock takes it on the job of a name. -/
theorem Grant.exists_locksAt? {ws : List Write} {grant : Grant} (h : ofBatch ws = some grant) :
    ∃ now, ws.findSome? (Write.locksAt? grant.id) = some now := by
  unfold ofBatch at h
  split at h
  · rename_i id revision owner expiry now
    cases h
    exact ⟨now, by rw [List.findSome?_cons, Write.locksAt?, if_pos rfl]⟩
  · cases h

namespace Grip

/-- With a batch, what it locks comes to hand and nothing else does. -/
theorem lock_after_batch {exchange : Exchange (Call ε)} {ws : List Write} (grip : Grip)
    (h : Event.batch? (.own exchange) = some ws) : (grip.after exchange).lock = Grant.ofBatch ws := by
  obtain ⟨rows, rfl⟩ := Event.batch?_own_eq_some_iff.1 h
  rfl

/-- Without a batch no lock comes to hand. -/
theorem lock_of_after {exchange : Exchange (Call ε)} {grip : Grip} {grant : Grant}
    (h : Event.batch? (.own exchange) = none) (hafter : (grip.after exchange).lock = some grant) :
    grip.lock = some grant := by
  obtain ⟨question, answer⟩ := exchange
  cases question with
  | store call =>
    cases call with
    | apply ws =>
      cases answer with
      | ok rows => cases h
      | error fault => exact hafter
    | _ => exact hafter
  | takeToken scope =>
    cases answer with
    | true => cases hafter
    | false => exact hafter
  | dispatch d =>
    cases answer with
    | true => cases hafter
    | false => exact hafter
  | _ => exact hafter

/-- A lock in hand was taken by a batch. -/
theorem exists_taken {talk : List (Exchange (Call ε))} {grant : Grant}
    (h : (Grip.ofCycle talk).lock = some grant) :
    ∃ exchange ∈ talk, ∃ ws, Event.batch? (.own exchange) = some ws ∧
      Grant.ofBatch ws = some grant := by
  induction talk using List.reverseRecOn with
  | nil => cases h
  | append_singleton talk exchange ih =>
    rw [Grip.ofCycle, Grip.through_append_singleton] at h
    cases hbatch : Event.batch? (.own exchange) with
    | some ws =>
      rw [Grip.lock_after_batch _ hbatch] at h
      exact ⟨exchange, List.mem_append_right _ (List.mem_singleton_self _), ws, hbatch, h⟩
    | none =>
      obtain ⟨earlier, hmem, hearlier⟩ := ih (Grip.lock_of_after hbatch h)
      exact ⟨earlier, List.mem_append_left _ hmem, hearlier⟩

end Grip

/-! ## Taking locks -/

section

variable {engine : ι → Engine ε}

/-- A task has just read the clock, and knew a row before that. -/
def Thread.HasTimed (thread : Thread engine) (row : Job) (now : Instant) : Prop :=
  ∃ earlier, thread.talk = earlier ++ [⟨.clock, now⟩] ∧ row ∈ earlier.flatMap Exchange.told

/-- A cycle takes a lock for its engine: on a row that it was told of before it read the clock, and
with the token of the row in hand. -/
structure Thread.Locks (thread : Thread engine) (jobs jobs' : JobTable) (ws : List Write) (seat : ι)
    (row : Job) (grant : Grant) (now : Instant) : Prop where
  task : ∃ batch, thread.task = .acquire seat batch
  timed : thread.HasTimed row now
  named : row.id = grant.id
  token : (Grip.ofCycle thread.talk).token = row.exclusivityScope
  batch : ws = [.lock grant.id row.revision (engine seat).owner grant.expiry now]
  written : ∃ left, jobs.write (.lock grant.id row.revision (engine seat).owner grant.expiry now) =
    .ok (jobs', left)

theorem Thread.HasTimed.mem_told {thread : Thread engine} {row : Job} {now : Instant}
    (h : thread.HasTimed row now) : row ∈ thread.talk.flatMap Exchange.told := by
  obtain ⟨earlier, htalk, hrow⟩ := h
  rw [htalk, List.flatMap_append]
  exact List.mem_append_left _ hrow

theorem Thread.HasTimed.mem_known {thread : Thread engine} {row : Job} {now : Instant}
    (h : thread.HasTimed row now) : row ∈ thread.known :=
  List.mem_append_right _ h.mem_told

theorem Thread.HasTimed.talk_ne_nil {thread : Thread engine} {row : Job} {now : Instant}
    (h : thread.HasTimed row now) : thread.talk ≠ [] := by
  obtain ⟨earlier, htalk, -⟩ := h
  rw [htalk]
  exact List.append_ne_nil_of_right_ne_nil _ (List.cons_ne_nil _ _)

theorem Thread.HasTimed.mem_talk {thread : Thread engine} {row : Job} {now : Instant}
    (h : thread.HasTimed row now) : (⟨.clock, now⟩ : Exchange (Call ε)) ∈ thread.talk := by
  obtain ⟨earlier, htalk, -⟩ := h
  rw [htalk]
  exact List.mem_append_right _ (List.mem_singleton_self _)

end

/-! ## Standing locks -/

namespace Fleet

variable {engine : ι → Engine ε} [DecidableEq ι] {s : Store} {f : Fleet engine} {scopesFixed : Prop}

omit [DecidableEq ι] in
/-- What an orderly task knows, the store holds or has gone past, and will not insert again. -/
theorem Remembers.known_of_replies (h : f.Remembers s scopesFixed) {place : Place ι}
    {thread : Thread engine} (here : f.threads place = some thread) {ws : List Write}
    (honce : s.InsertsOnce (f.log ++ [ws])) :
    ∀ row ∈ thread.talk.flatMap Exchange.told,
      f.store.jobs.HasReached row ∧ ∀ w ∈ ws, row.id ∉ w.inserted := by
  intro row hrow
  have hrecalls := h.known place thread here row (List.mem_append_right _ hrow)
  refine ⟨hrecalls.reached, ?_⟩
  have hnot := hrecalls.born.not_inserted honce
  rwa [List.flatten_singleton] at hnot

/-- The accepted batches of orderly tasks are single locks, or fair. -/
theorem Reachable.takesLock_or_isFair (h : Reachable s f) {place : Place ι}
    {thread : Thread engine} {call : Call ε β} {next : β → Routine ε thread.task.Result} {answer : β}
    {ws : List Write} (here : f.threads place = some thread) (asks : thread.rest = .ask call next)
    (horderly : thread.task.IsOrderly engine scopesFixed)
    (hbatch : Event.batch? (.own ⟨call, answer⟩) = some ws) :
    thread.task.TakesLock engine thread.talk ws ∨
      ∀ w ∈ ws, w.IsFair (.lenient scopesFixed) (thread.task.charge engine thread.talk)
        (thread.talk.flatMap Exchange.told) := by
  obtain ⟨rows, hexchange⟩ := Event.batch?_own_eq_some_iff.1 hbatch
  cases hexchange
  exact Task.takesLock_or_isFair (h.allowed here horderly asks)

/-- The locks that are accepted from orderly tasks are as of times that clocks have shown. -/
theorem Reachable.lockTime_mem_readings (h : Reachable s f) {place : Place ι}
    {thread : Thread engine} {call : Call ε β} {next : β → Routine ε thread.task.Result} {answer : β}
    (here : f.threads place = some thread) (asks : thread.rest = .ask call next)
    (horderly : thread.task.IsOrderly engine scopesFixed) {ws : List Write}
    (hbatch : Event.batch? (.own ⟨call, answer⟩) = some ws) {w : Write} (hw : w ∈ ws) {id : JobId}
    {now : Instant} (hlock : w.locksAt? id = some now) : now ∈ f.readings := by
  obtain ⟨_, _, _, rfl⟩ := Write.locksAt?_eq_some_iff.1 hlock
  rcases h.takesLock_or_isFair here asks horderly hbatch with htakes | hfair
  · refine h.mem_readings here ?_
    generalize thread.task = task, thread.talk = talk at htakes ⊢
    cases htakes with
    | mk told token =>
      cases List.mem_singleton.1 hw
      exact List.mem_append_right _ (List.mem_singleton_self _)
  · exact (hfair _ hw).elim

/-- A batch that takes a lock takes it for the engine of a cycle. -/
theorem Reachable.locks (h : Reachable s f) {place : Place ι} {thread : Thread engine}
    {call : Call ε β} {next : β → Routine ε thread.task.Result} {answer : β} {s' : Store}
    (here : f.threads place = some thread) (asks : thread.rest = .ask call next)
    (replies : f.Replies thread.task.seat? call answer s')
    (horderly : thread.task.IsOrderly engine scopesFixed) {ws : List Write}
    (hbatch : Event.batch? (.own ⟨call, answer⟩) = some ws) {grant : Grant}
    (hgrant : Grant.ofBatch ws = some grant) :
    ∃ seat row now, thread.Locks f.store.jobs s'.jobs ws seat row grant now := by
  have htakes : thread.task.TakesLock engine thread.talk ws := by
    refine (h.takesLock_or_isFair here asks horderly hbatch).resolve_right fun hfair => ?_
    rw [Grip.ofBatch_eq_none hfair] at hgrant
    cases hgrant
  obtain ⟨rows, hexchange⟩ := Event.batch?_own_eq_some_iff.1 hbatch
  cases hexchange
  have hws := Store.writeAll_of_apply replies.answered.apply
  generalize htask : thread.task = task, htalk : thread.talk = talk at htakes
  cases htakes with
  | @mk seat batch earlier row expiry now told token =>
    cases hgrant
    obtain ⟨left, hw, -⟩ := JobTable.writeAll_singleton_eq_ok_iff.1 hws
    refine ⟨seat, row, now, ⟨batch, htask⟩, ⟨earlier, htalk, told⟩, rfl, ?_, rfl, left, hw⟩
    rw [htalk, Grip.ofCycle, Grip.through_append_singleton]
    exact token

/-- A lock outlasts the calls of orderly tasks, except that its owner, at work on the very job, may
give it up, that the job may be deleted without a guard, and that a new lock may be taken once it has
expired. -/
theorem Reachable.stands (h : Reachable s f) (hremembers : f.Remembers s scopesFixed)
    {place : Place ι} {thread : Thread engine} {call : Call ε β}
    {next : β → Routine ε thread.task.Result} {answer : β} {s' : Store}
    (here : f.threads place = some thread) (asks : thread.rest = .ask call next)
    (replies : f.Replies thread.task.seat? call answer s')
    (horderly : thread.task.IsOrderly engine scopesFixed)
    (honce : s.InsertsOnce (f.log ++ (Event.batch? (.own ⟨call, answer⟩)).toList))
    {id : JobId} {owner : Owner} {expiry : Instant}
    (hlocked : f.store.jobs.IsLockedTo id owner expiry)
    (hcharge : ∀ ws, Event.batch? (.own ⟨call, answer⟩) = some ws →
      (∀ w ∈ ws, w.IsFair (.lenient scopesFixed) (thread.task.charge engine thread.talk)
        (thread.talk.flatMap Exchange.told)) →
      thread.task.charge engine thread.talk ≠ some ⟨owner, id⟩)
    (hforced : ∀ ws, Event.batch? (.own ⟨call, answer⟩) = some ws → .delete id .any ∉ ws)
    (hlate : ∀ ws, Event.batch? (.own ⟨call, answer⟩) = some ws →
      ∀ w ∈ ws, ∀ now, w.locksAt? id = some now → now ≤ expiry) :
    s'.jobs.IsLockedTo id owner expiry := by
  cases hbatch : Event.batch? (.own ⟨call, answer⟩) with
  | none =>
    rw [replies.answered.unchanged hbatch]
    exact hlocked
  | some ws =>
    rw [hbatch] at honce
    have htakes := h.takesLock_or_isFair here asks horderly hbatch
    obtain ⟨rows, hexchange⟩ := Event.batch?_own_eq_some_iff.1 hbatch
    cases hexchange
    have hws := Store.writeAll_of_apply replies.answered.apply
    have hknown := hremembers.known_of_replies here honce
    rcases htakes with hlock | hfair
    · generalize thread.task = task, thread.talk = talk at hlock
      cases hlock with
      | @mk seat batch earlier row expiry' now told token =>
        obtain ⟨left, hw, -⟩ := JobTable.writeAll_singleton_eq_ok_iff.1 hws
        by_cases hname : row.id = id
        · have hle : now ≤ expiry :=
            hlate _ rfl _ (List.mem_singleton_self _) now
              (Write.locksAt?_eq_some_iff.2 ⟨_, _, _, by rw [hname]⟩)
          exact (hlocked.lock hle hw).2
        · exact JobTable.isLockedTo_of_find?_eq
            (JobTable.find?_of_not_touches hw (beq_eq_false_iff_ne.2 hname)) hlocked
    · exact hlocked.writeAll hws (fun row hrow => (hknown row hrow).1)
        (fun row hrow => (hknown row hrow).2) hfair (hforced _ rfl) (hcharge _ rfl hfair)

end Fleet

end DeferredWork

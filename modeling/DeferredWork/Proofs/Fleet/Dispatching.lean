import DeferredWork.Proofs.Fleet.Play
import DeferredWork.Proofs.Fleet.Standing

set_option autoImplicit false

/-!
# Racing engines

Any number of engines with names of their own go through their acquisition cycles side by side.  As
long as none of the locks that they take has expired and none of the jobs that they dispatch has
started, each lock that an engine has in hand stands in the store in its name, and so does the lock
of each job that its pool has accepted (`Fleet.Reachable.tracks`).  So no job is accepted twice
(`Fleet.Reachable.each_job_dispatched_once`).
-/

namespace DeferredWork

variable {ι : Type} {ε : Type → Type} {β : Type}

/-! ## Locks that were taken -/

/-- The lock that a write takes. -/
def Write.grant? : Write → Option Grant
  | .lock id _ _ expiry _ => some ⟨id, expiry⟩
  | _ => none

/-- The task's batches insert nothing. -/
theorem Engine.Acquires.inserts_nothing {owner : Owner} {talk : List (Exchange (Call ε))}
    {ws : List Write} (h : Engine.Acquires owner talk ws) : ∀ w ∈ ws, w.inserted = [] := by
  cases h with
  | lock polled token => exact List.forall_mem_singleton.2 rfl
  | release holds told named owned => exact List.forall_mem_singleton.2 rfl

/-- A cycle deletes no job. -/
theorem Engine.Acquires.deletes_nothing {owner : Owner} {talk : List (Exchange (Call ε))}
    {ws : List Write} (h : Engine.Acquires owner talk ws) (id : JobId) : .delete id .any ∉ ws := by
  intro hmem
  cases h with
  | lock polled token => cases List.mem_singleton.1 hmem
  | release holds told named owned => cases List.mem_singleton.1 hmem

namespace Fleet

variable {engine : ι → Engine ε} {s : Store} {f : Fleet engine}

/-- The locks that were taken. -/
def grants (f : Fleet engine) : List Grant := f.log.flatten.filterMap Write.grant?

/-- Nothing but acquisition cycles has made calls. -/
def OnlyAcquires (f : Fleet engine) : Prop :=
  ∀ turn ∈ f.history, turn.task.isAcquisition = true

/-- No clock has shown a time after the expiry of a lock that was taken. -/
def IsEarly (f : Fleet engine) : Prop := ∀ now ∈ f.readings, ∀ grant ∈ f.grants, now ≤ grant.expiry

/-- The lock that the cycle at a seat has in hand. -/
def InHand (f : Fleet engine) (seat : ι) (grant : Grant) : Prop :=
  ∃ thread, f.threads (.cycle seat) = some thread ∧
    (Grip.ofCycle thread.talk).lock = some grant

/-- The engine at a seat has taken the lock, and the lock stands. -/
structure Secures (f : Fleet engine) (seat : ι) (grant : Grant) : Prop where
  taken : grant ∈ f.grants
  stands : f.store.jobs.IsLockedTo grant.id (engine seat).owner grant.expiry

/-- The locks in hand and those of the accepted jobs stand, and they are all on different jobs. -/
structure Tracks (f : Fleet engine) : Prop where
  accepted : ∀ seat d, (seat, d) ∈ f.accepted → ∃ expiry, f.Secures seat ⟨d.job.id, expiry⟩
  once : (f.accepted.map fun a => a.2.job.id).Nodup
  hand : ∀ seat grant, f.InHand seat grant →
    f.Secures seat grant ∧ grant.id ∉ f.accepted.map fun a => a.2.job.id

/-- Where no calls are made and no jobs are written, nothing that was tracked is lost. -/
theorem Tracks.of_still {f' : Fleet engine} (h : f.Tracks) (hhistory : f'.history = f.history)
    (hjobs : f'.store.jobs = f.store.jobs)
    (hhand : ∀ seat grant, f'.InHand seat grant → f.InHand seat grant) : f'.Tracks := by
  have hsecures : ∀ {seat grant}, f.Secures seat grant → f'.Secures seat grant := by
    rintro seat grant ⟨htaken, hstands⟩
    refine ⟨?_, ?_⟩
    · rw [grants, log, hhistory]
      exact htaken
    · rw [hjobs]
      exact hstands
  have haccepted : f'.accepted = f.accepted := by
    rw [Fleet.accepted, hhistory, Fleet.accepted]
  constructor
  · rw [haccepted]
    exact fun seat d hd => (h.accepted seat d hd).imp fun _ => hsecures
  · rw [haccepted]
    exact h.once
  · rw [haccepted]
    exact fun seat grant hgrant => (h.hand seat grant (hhand seat grant hgrant)).imp_left hsecures

variable [DecidableEq ι]

theorem grants_advance (f : Fleet engine) (turn : Turn ι ε) (thread : Thread engine) (s' : Store) :
    (f.advance turn thread s').grants =
      f.grants ++ turn.batch?.toList.flatten.filterMap Write.grant? := by
  rw [grants, log_advance, List.flatten_append, List.filterMap_append, grants]

theorem IsEarly.of_advance {turn : Turn ι ε} {thread : Thread engine} {s' : Store}
    (h : (f.advance turn thread s').IsEarly) : f.IsEarly := by
  intro now hnow grant hgrant
  refine h now ?_ grant ?_
  · rw [readings_advance]
    exact List.mem_append_left _ hnow
  · rw [grants_advance]
    exact List.mem_append_left _ hgrant

/-! ## Fleets that only acquire -/

omit [DecidableEq ι] in
/-- Where only cycles make calls, all that is done is orderly. -/
theorem OnlyAcquires.isOrderly (h : f.OnlyAcquires) (scopesFixed : Prop) :
    f.IsOrderly scopesFixed :=
  fun turn hturn => .of_isAcquisition (h turn hturn)

/-- The batches of a cycle are handed in by the rules. -/
theorem Reachable.acquires (h : Reachable s f) {place : Place ι} {thread : Thread engine}
    {seat : ι} {batch : Nat} {call : Call ε β} {next : β → Routine ε thread.task.Result} {answer : β}
    {ws : List Write} (here : f.threads place = some thread) (asks : thread.rest = .ask call next)
    (htask : thread.task = .acquire seat batch)
    (hbatch : Event.batch? (.own ⟨call, answer⟩) = some ws) :
    Engine.Acquires (engine seat).owner thread.talk ws := by
  have horderly : thread.task.IsOrderly engine True := by
    rw [htask]
    trivial
  obtain ⟨rows, hexchange⟩ := Event.batch?_own_eq_some_iff.1 hbatch
  cases hexchange
  have hallowed := h.allowed here horderly asks
  rw [htask] at hallowed
  exact hallowed

omit [DecidableEq ι] in
theorem exists_of_isAcquisition {task : Task ι ε} (h : task.isAcquisition = true) :
    ∃ seat batch, task = .acquire seat batch := by
  cases task with
  | acquire seat batch => exact ⟨seat, batch, rfl⟩
  | _ => cases h

/-- Cycles insert nothing, so no name is inserted twice. -/
theorem Reachable.insertsOnce (h : Reachable s f) (honly : f.OnlyAcquires) :
    s.InsertsOnce f.log := by
  have hnothing : ∀ w ∈ f.log.flatten, w.inserted = [] := by
    induction h with
    | start => exact List.forall_mem_nil _
    | @step f f' h hstep ih =>
      cases hstep with
      | enter suits vacant => exact ih honly
      | @turn place thread _ call next answer s' here asks replies =>
        obtain ⟨honly, hturn⟩ := List.forall_mem_append.1 honly
        obtain ⟨seat, batch, htask⟩ :=
          exists_of_isAcquisition (hturn _ (List.mem_singleton_self _))
        rw [log_advance, List.flatten_append, List.forall_mem_append]
        refine ⟨ih honly, ?_⟩
        cases hbatch : Turn.batch? ⟨place, thread.task, ⟨call, answer⟩⟩ with
        | none => exact List.forall_mem_nil _
        | some ws =>
          change ∀ w ∈ [ws].flatten, _
          rw [List.flatten_singleton]
          exact (h.acquires here asks htask hbatch).inserts_nothing
      | reach value => exact ih honly
  have hnone : f.log.flatten.flatMap Write.inserted = [] := by
    rw [List.flatMap_eq_nil_iff]
    exact hnothing
  rw [Store.InsertsOnce, hnone, List.append_nil]
  refine List.pairwise_map.2 (s.jobs.sorted.imp fun {a b} hlt heq => ?_)
  exact JobId.lt_irrefl b.id (heq ▸ hlt)

/-! ## The turns of a cycle -/

section Turn

variable {place : Place ι} {thread : Thread engine} {seat : ι} {batch : Nat} {call : Call ε β}
  {next : β → Routine ε thread.task.Result} {answer : β} {s' : Store}

/-- What is in hand after a call: what the calling cycle has in hand then, or what another one had
before. -/
theorem InHand.of_advance {turn : Turn ι ε} {k : ι} {grant : Grant}
    (h : (f.advance turn thread s').InHand k grant) (hplace : turn.place = .cycle seat) :
    (k = seat ∧ (Grip.ofCycle thread.talk).lock = some grant) ∨ (k ≠ seat ∧ f.InHand k grant) := by
  obtain ⟨found, hfound, hlock⟩ := h
  rcases threads_advance f turn thread s' hfound with ⟨_, _, -, hworker, -⟩ | ⟨hk, rfl⟩ | ⟨hk, hthread⟩
  · cases hworker
  · rw [hplace] at hk
    cases hk
    exact .inl ⟨rfl, hlock⟩
  · refine .inr ⟨?_, found, hthread, hlock⟩
    rintro rfl
    exact hk hplace.symm

/-- A lock stands through the calls of all cycles but that of its owner which has it in hand. -/
theorem Reachable.secures_advance (h : Reachable s f) (honly : f.OnlyAcquires) (hearly : f.IsEarly)
    (here : f.threads place = some thread) (htask : thread.task = .acquire seat batch)
    (asks : thread.rest = .ask call next) (replies : f.Replies thread.task.seat? call answer s')
    {k : ι} {grant : Grant} (hsecures : f.Secures k grant)
    (hothers : (engine seat).owner = (engine k).owner →
      ∀ expiry, (Grip.ofCycle thread.talk).lock ≠ some ⟨grant.id, expiry⟩) :
    (f.advance ⟨place, thread.task, ⟨call, answer⟩⟩ (thread.goOn asks answer) s').Secures k
      grant := by
  have honly' : (f.advance ⟨place, thread.task, ⟨call, answer⟩⟩ (thread.goOn asks answer)
      s').OnlyAcquires := by
    refine List.forall_mem_append.2 ⟨honly, List.forall_mem_singleton.2 ?_⟩
    dsimp only
    rw [htask]
    rfl
  have honce := (h.step (.turn here asks replies)).insertsOnce honly'
  rw [log_advance] at honce
  have horderly : thread.task.IsOrderly engine True := by
    rw [htask]
    trivial
  have hremembers := h.remembers (h.insertsOnce honly) (honly.isOrderly True)
  constructor
  · rw [grants_advance]
    exact List.mem_append_left _ hsecures.taken
  · refine h.stands hremembers here asks replies horderly honce hsecures.stands ?_ ?_ ?_
    · intro ws _ _
      rw [htask, Task.charge]
      intro hcharge
      obtain ⟨found, hfound, heq⟩ := Option.map_eq_some_iff.1 hcharge
      obtain ⟨howner, hname⟩ := Charge.mk.inj heq
      refine hothers howner found.expiry ?_
      rw [hfound, ← hname]
    · intro ws hbatch
      exact (h.acquires here asks htask hbatch).deletes_nothing _
    · intro ws hbatch w hw now hlock
      exact hearly now (h.lockTime_mem_readings here asks horderly hbatch hw hlock) grant
        hsecures.taken

/-- The lock in hand after a batch of a cycle is the one that the batch has taken.  It stands, and no
job was accepted with a lock on the same job. -/
theorem Reachable.secures_taken (h : Reachable s f) (htracks : f.Tracks) (hearly : f.IsEarly)
    (here : f.threads place = some thread) (htask : thread.task = .acquire seat batch)
    (asks : thread.rest = .ask call next) (replies : f.Replies thread.task.seat? call answer s')
    {ws : List Write} (hbatch : Event.batch? (.own ⟨call, answer⟩) = some ws) {grant : Grant}
    (hgrant : Grant.ofBatch ws = some grant) :
    (f.advance ⟨place, thread.task, ⟨call, answer⟩⟩ (thread.goOn asks answer) s').Secures seat grant ∧
      grant.id ∉ f.accepted.map fun a => a.2.job.id := by
  have horderly : thread.task.IsOrderly engine True := by
    rw [htask]
    trivial
  obtain ⟨k, row, now, hlocks⟩ := h.locks here asks replies horderly hbatch hgrant
  obtain ⟨_, hw⟩ := hlocks.written
  obtain rfl : k = seat := by
    obtain ⟨_, hsame⟩ := hlocks.task
    rw [htask] at hsame
    cases hsame
    rfl
  refine ⟨⟨?_, JobTable.isLockedTo_of_lock hw⟩, fun hmem => ?_⟩
  · rw [grants_advance]
    refine List.mem_append_right _ ?_
    rw [Turn.batch?, hbatch, hlocks.batch]
    exact List.mem_singleton_self _
  · obtain ⟨⟨k, d⟩, haccepted, hname⟩ := List.mem_map.1 hmem
    obtain ⟨later, hsecures⟩ := htracks.accepted k d haccepted
    have hle := hearly now (h.mem_readings here hlocks.timed.mem_talk) _ hsecures.taken
    exact (hsecures.stands.lock hle hw).1 hname.symm

/-- Locks in hand and those of accepted jobs go on to be tracked after a call that dispatches
nothing. -/
theorem Reachable.tracks_of_not_accepted (h : Reachable s f) (htracks : f.Tracks)
    (howners : Function.Injective fun seat => (engine seat).owner) (honly : f.OnlyAcquires)
    (hearly : f.IsEarly) (here : f.threads place = some thread)
    (htask : thread.task = .acquire seat batch) (asks : thread.rest = .ask call next)
    (replies : f.Replies thread.task.seat? call answer s')
    (hnone : Turn.accepted? (⟨place, thread.task, ⟨call, answer⟩⟩ : Turn ι ε) = none) :
    (f.advance ⟨place, thread.task, ⟨call, answer⟩⟩ (thread.goOn asks answer) s').Tracks := by
  have hplace := h.place_eq here htask
  have hsame : (f.advance ⟨place, thread.task, ⟨call, answer⟩⟩ (thread.goOn asks answer)
      s').accepted = f.accepted := by
    rw [accepted_advance, hnone]
    exact List.append_nil _
  have hinHand : ∀ grant, (Grip.ofCycle thread.talk).lock = some grant → f.InHand seat grant :=
    fun grant hlock => ⟨thread, hplace ▸ here, hlock⟩
  constructor
  · intro k d hd
    rw [hsame] at hd
    obtain ⟨expiry, hsecures⟩ := htracks.accepted k d hd
    refine ⟨expiry, h.secures_advance honly hearly here htask asks replies hsecures ?_⟩
    -- A lock in hand is not on an accepted job.
    intro _ later hlock
    exact (htracks.hand seat _ (hinHand _ hlock)).2 (List.mem_map.2 ⟨_, hd, rfl⟩)
  · rw [hsame]
    exact htracks.once
  · intro k grant hhand
    rw [hsame]
    rcases hhand.of_advance hplace with ⟨rfl, hlock⟩ | ⟨hk, hhand⟩
    · have hafter : ((Grip.ofCycle thread.talk).after ⟨call, answer⟩).lock = some grant := by
        rw [← hlock, Thread.goOn, Grip.ofCycle, Grip.ofCycle, Grip.through_append_singleton]
      cases hbatch : Event.batch? (.own ⟨call, answer⟩) with
      | none =>
        have hold := Grip.lock_of_after hbatch hafter
        obtain ⟨hsecures, hnot⟩ := htracks.hand k grant (hinHand grant hold)
        refine ⟨⟨?_, ?_⟩, hnot⟩
        · rw [grants_advance]
          exact List.mem_append_left _ hsecures.taken
        · rw [advance, replies.answered.unchanged hbatch]
          exact hsecures.stands
      | some ws =>
        rw [Grip.lock_after_batch _ hbatch] at hafter
        exact h.secures_taken htracks hearly here htask asks replies hbatch hafter
    · obtain ⟨hsecures, hnot⟩ := htracks.hand k grant hhand
      refine ⟨h.secures_advance honly hearly here htask asks replies hsecures ?_, hnot⟩
      exact fun howner => absurd (howners howner).symm hk

/-- When a pool accepts a job, the lock in hand becomes that of an accepted job. -/
theorem Reachable.tracks_of_accepted (h : Reachable s f) (htracks : f.Tracks)
    (howners : Function.Injective fun seat => (engine seat).owner) {d : Dispatched}
    {next : Bool → Routine ε thread.task.Result} (here : f.threads place = some thread)
    (htask : thread.task = .acquire seat batch) (asks : thread.rest = .ask (.dispatch d) next) :
    (f.advance ⟨place, thread.task, ⟨.dispatch d, true⟩⟩ (thread.goOn asks true) f.store).Tracks := by
  have hplace := h.place_eq here htask
  have hone : (f.advance ⟨place, thread.task, ⟨.dispatch d, true⟩⟩ (thread.goOn asks true)
      f.store).accepted = f.accepted ++ [(seat, d)] := by
    rw [accepted_advance, Turn.accepted?_eq_some_iff.2 ⟨batch, htask, rfl⟩]
    rfl
  have hstill : ∀ {k grant}, f.Secures k grant →
      (f.advance ⟨place, thread.task, ⟨.dispatch d, true⟩⟩ (thread.goOn asks true)
        f.store).Secures k grant := by
    rintro k grant ⟨htaken, hstands⟩
    refine ⟨?_, hstands⟩
    rw [grants_advance]
    exact List.mem_append_left _ htaken
  obtain ⟨expiry, hlock⟩ := (h.dispatches here htask asks).lock
  obtain ⟨hsecures, hnot⟩ := htracks.hand seat _ ⟨thread, hplace ▸ here, hlock⟩
  constructor
  · intro k d' hd'
    rw [hone] at hd'
    rcases List.mem_append.1 hd' with hd' | hd'
    · obtain ⟨later, hbefore⟩ := htracks.accepted k d' hd'
      exact ⟨later, hstill hbefore⟩
    · cases List.mem_singleton.1 hd'
      exact ⟨expiry, hstill hsecures⟩
  · rw [hone, List.map_append, List.map_singleton, ← List.concat_eq_append]
    exact htracks.once.concat hnot
  · intro k grant hhand
    rw [hone, List.map_append, List.map_singleton]
    rcases hhand.of_advance hplace with ⟨-, hfree⟩ | ⟨hk, hhand⟩
    · rw [Thread.goOn, Grip.ofCycle, Grip.through_append_singleton] at hfree
      cases hfree
    · obtain ⟨hother, hnot'⟩ := htracks.hand k grant hhand
      refine ⟨hstill hother, fun hmem => ?_⟩
      rcases List.mem_append.1 hmem with hmem | hmem
      · exact hnot' hmem
      · -- Two engines have different names, and a job is locked in one name.
        have hname := List.mem_singleton.1 hmem
        have hstands := hother.stands
        rw [hname] at hstands
        exact hk (howners (hstands.owner_eq hsecures.stands))

end Turn

theorem Reachable.tracks (h : Reachable s f)
    (howners : Function.Injective fun seat => (engine seat).owner) (honly : f.OnlyAcquires)
    (hearly : f.IsEarly) : f.Tracks := by
  induction h with
  | start =>
    refine ⟨fun k d hd => ?_, .nil, fun k grant hhand => ?_⟩
    · cases hd
    · obtain ⟨thread, hthread, -⟩ := hhand
      cases hthread
  | @step f f' h hstep ih =>
    cases hstep with
    | @enter place task suits vacant =>
      refine (ih honly hearly).of_still rfl rfl ?_
      rintro k grant ⟨thread, hthread, hlock⟩
      rw [threads_enter] at hthread
      split at hthread
      · cases hthread
        cases hlock
      · exact ⟨thread, hthread, hlock⟩
    | @turn place thread _ call next answer s' here asks replies =>
      obtain ⟨honly, hturn⟩ := List.forall_mem_append.1 honly
      obtain ⟨seat, batch, htask⟩ := exists_of_isAcquisition (hturn _ (List.mem_singleton_self _))
      have htracks := ih honly hearly.of_advance
      cases hacc : Turn.accepted? (⟨place, thread.task, ⟨call, answer⟩⟩ : Turn ι ε) with
      | none =>
        exact h.tracks_of_not_accepted htracks howners honly hearly.of_advance here htask asks
          replies hacc
      | some job =>
        obtain ⟨_, hsame, hexchange⟩ := Turn.accepted?_eq_some_iff.1 hacc
        cases hexchange
        obtain rfl : s' = f.store := replies.answered
        exact h.tracks_of_accepted htracks howners here htask asks
    | reach value => exact (ih honly hearly).of_still rfl rfl fun _ _ hhand => hhand

/-- Engines with names of their own that race for jobs get each job accepted at most once in total,
and each accepted job is then locked in the name of the engine that accepted it, and of no other. -/
theorem Reachable.each_job_dispatched_once (h : Reachable s f)
    (howners : Function.Injective fun seat => (engine seat).owner) (honly : f.OnlyAcquires)
    (hearly : f.IsEarly) :
    (f.accepted.map fun a => a.2.job.id).Nodup ∧
      ∀ seat d, (seat, d) ∈ f.accepted → ∃ row, f.store.jobs.find? d.job.id = some row ∧
        (∀ now ∈ f.readings, row.hasLiveLock now = true) ∧
        ∀ k, row.isLockedBy (engine k).owner = true ↔ k = seat := by
  have htracks := h.tracks howners honly hearly
  refine ⟨htracks.once, fun seat d hd => ?_⟩
  obtain ⟨expiry, htaken, hstands⟩ := htracks.accepted seat d hd
  obtain ⟨row, hrow, howner, -⟩ := id hstands
  refine ⟨row, hrow, ?_, fun k => ⟨fun hlocked => ?_, ?_⟩⟩
  · exact fun now hnow => hstands.hasLiveLock (hearly now hnow _ htaken) hrow
  · rw [Job.isLockedBy, howner, beq_iff_eq] at hlocked
    exact (howners (Option.some.inj hlocked)).symm
  · rintro rfl
    exact hstands.isLockedBy hrow

/-! ## Two engines that race for two jobs -/

/-- Both engines poll both jobs.  The left one is faster to lock the first job, and its pool accepts
it.  The right one locks the second job; its pool refuses it at first, and accepts it in the next
cycle. -/
def race : Fleet Engine.ofPair :=
  (start Engine.ofPair (.ofTwo (.mail "first") (.mail "second"))).play
    [.begin (.cycle true) (.acquire true 5) rfl, .call (.cycle true) 6 .early,
      .begin (.cycle false) (.acquire false 5) rfl, .call (.cycle false) 6 .early,
      .call (.cycle true) 3 .early,
      .call (.cycle false) 13 { Circumstances.early with hasRoom := false },
      .call (.cycle true) 5 .early,
      .begin (.cycle false) (.acquire false 5) rfl, .call (.cycle false) 12 .early]

theorem reachable_race : Reachable (.ofTwo (.mail "first") (.mail "second")) race :=
  Reachable.start.play _

theorem race_dispatches_each_job_once :
    Reachable (.ofTwo (.mail "first") (.mail "second")) race ∧
      (Function.Injective fun left => (Engine.ofPair left).owner) ∧
      race.OnlyAcquires ∧ race.IsEarly ∧
      race.accepted.map (fun a => (a.1, a.2.job.id.text)) = [(true, "first"), (false, "second")] ∧
      (race.accepted.map fun a => a.2.job.id).Nodup ∧
      ∀ seat d, (seat, d) ∈ race.accepted → ∃ row, race.store.jobs.find? d.job.id = some row ∧
        (∀ now ∈ race.readings, row.hasLiveLock now = true) ∧
        ∀ k, row.isLockedBy (Engine.ofPair k).owner = true ↔ k = seat := by
  have honly : race.OnlyAcquires := by
    have hall : race.history.all (fun turn => turn.task.isAcquisition) = true := by decide +kernel
    exact List.all_eq_true.1 hall
  have hearly : race.IsEarly := by
    unfold IsEarly
    decide +kernel
  have haccepted : race.accepted.map (fun a => (a.1, a.2.job.id.text)) =
      [(true, "first"), (false, "second")] := by decide +kernel
  exact ⟨reachable_race, Engine.ofPair_owner_injective, honly, hearly, haccepted,
    reachable_race.each_job_dispatched_once Engine.ofPair_owner_injective honly hearly⟩

end Fleet

end DeferredWork

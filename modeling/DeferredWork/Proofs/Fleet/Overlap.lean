import DeferredWork.Proofs.Fleet.Holding
import DeferredWork.Proofs.Fleet.Play

set_option autoImplicit false

/-!
# Executions that overlap

Exclusive jobs of one scope are kept apart by two means.  Between engines it is the lock in the store:
none is taken while another job of the scope has one.  Within an engine it is the token: a lock is
taken with the token in hand, and a lock whose token was given back clears no other one.  So of two
tasks with locks on jobs of one scope, one has a lock that has lapsed, and if both are the same
engine's then the token of that one is gone (`Fleet.Reachable.excludes`).  A worker that has not
settled its job yet has the lock of the job in hand, and so two of them overlap only after an expiry
(`Fleet.Reachable.overlap_only_after_expiry`), or when an operator has cancelled a job that its worker
has not settled (`Fleet.cancelled_job_overlaps`).
-/

namespace DeferredWork

variable {ι : Type} {ε : Type → Type} {β : Type} {engine : ι → Engine ε}

/-! ## Locks on jobs of a scope -/

namespace Store

variable {s : Store} {log more : List (List Write)} {id : JobId} {scope : ScopeId} {row : Job}

/-- The job of a name was stored once, to run exclusively in a scope. -/
def HasScope (s : Store) (log : List (List Write)) (id : JobId) (scope : ScopeId) : Prop :=
  ∃ row, s.Bears log.flatten True row ∧ row.id = id ∧ row.exclusivityScope = some scope

theorem HasScope.append (h : s.HasScope log id scope) (more : List (List Write)) :
    s.HasScope (log ++ more) id scope := by
  obtain ⟨row, hborn, hrow⟩ := h
  refine ⟨row, ?_, hrow⟩
  rw [List.flatten_append]
  exact hborn.append _

/-- All rows of the name have the scope. -/
theorem HasScope.scope_eq (h : s.HasScope (log ++ more) id scope)
    (honce : s.InsertsOnce (log ++ more)) (hborn : s.Bears log.flatten True row)
    (hname : row.id = id) : row.exclusivityScope = some scope := by
  obtain ⟨found, hfound, hid, hscope⟩ := h
  rw [List.flatten_append] at hfound
  have hlater : s.Bears (log ++ more).flatten True row := by
    rw [List.flatten_append]
    exact hborn.append _
  rw [← hscope]
  refine hlater.scope_eq ?_ honce trivial (hname.trans hid.symm)
  rwa [List.flatten_append]

end Store

namespace Fleet

variable {s : Store} {f : Fleet engine}

/-- The lock has expired, or its job was deleted without a guard. -/
def HasLapsed (f : Fleet engine) (grant : Grant) : Prop :=
  (∃ now ∈ f.readings, grant.expiry < now) ∨ .delete grant.id .any ∈ f.log.flatten

/-- The engine at a seat has a task at a place, which has in hand the lock on a job that runs
exclusively in a scope. -/
structure Occupies (s : Store) (f : Fleet engine) (p : Place ι) (seat : ι) (grip : Grip)
    (grant : Grant) (scope : ScopeId) : Prop where
  holds : f.Holds p seat grip
  lock : grip.lock = some grant
  scope : s.HasScope f.log grant.id scope

/-- The lock in hand has lapsed, and towards tasks of its own engine it has no token any more. -/
structure Yields (f : Fleet engine) (seat other : ι) (grip : Grip) (grant : Grant) : Prop where
  lapsed : f.HasLapsed grant
  token : seat = other → grip.token = none

/-- Locks on exclusive jobs that are in hand stand unless they have lapsed, and of two that are on
jobs of one scope one yields to the other. -/
structure Excludes (s : Store) (f : Fleet engine) : Prop where
  stands : ∀ {p seat grip grant scope}, f.Occupies s p seat grip grant scope →
    f.HasLapsed grant ∨ f.store.jobs.IsLockedTo grant.id (engine seat).owner grant.expiry
  apart : ∀ {p q seat seat' grip grip' grant grant' scope}, p ≠ q →
    f.Occupies s p seat grip grant scope → f.Occupies s q seat' grip' grant' scope →
    f.Yields seat seat' grip grant ∨ f.Yields seat' seat grip' grant'

/-- Where no calls are made and no jobs are written, locks stay as they are. -/
theorem Excludes.of_still {f' : Fleet engine} (h : f.Excludes s) (hhistory : f'.history = f.history)
    (hjobs : f'.store.jobs = f.store.jobs)
    (hholds : ∀ {p seat grip grant}, f'.Holds p seat grip → grip.lock = some grant →
      f.Holds p seat grip) : f'.Excludes s := by
  have hbefore : ∀ {p seat grip grant scope}, f'.Occupies s p seat grip grant scope →
      f.Occupies s p seat grip grant scope := by
    rintro p seat grip grant scope ⟨hheld, hlock, hscope⟩
    rw [log, hhistory] at hscope
    exact ⟨hholds hheld hlock, hlock, hscope⟩
  have hlapsed : ∀ {grant}, f.HasLapsed grant → f'.HasLapsed grant := by
    intro grant h
    rwa [HasLapsed, readings, log, hhistory]
  constructor
  · intro p seat grip grant scope hoccupies
    rw [hjobs]
    exact (h.stands (hbefore hoccupies)).imp_left hlapsed
  · intro p q seat seat' grip grip' grant grant' scope hne hoccupies hoccupies'
    exact (h.apart hne (hbefore hoccupies) (hbefore hoccupies')).imp
      (fun hyields => ⟨hlapsed hyields.lapsed, hyields.token⟩)
      (fun hyields => ⟨hlapsed hyields.lapsed, hyields.token⟩)

variable [DecidableEq ι]

theorem HasLapsed.advance {grant : Grant} (h : f.HasLapsed grant) (turn : Turn ι ε)
    (thread : Thread engine) (s' : Store) : (f.advance turn thread s').HasLapsed grant := by
  rw [HasLapsed, readings_advance, log_advance, List.flatten_append]
  rcases h with ⟨now, hnow, hlt⟩ | hforced
  · exact .inl ⟨now, List.mem_append_left _ hnow, hlt⟩
  · exact .inr (List.mem_append_left _ hforced)

theorem Yields.advance {seat other : ι} {grip : Grip} {grant : Grant}
    (h : f.Yields seat other grip grant) (turn : Turn ι ε) (thread : Thread engine) (s' : Store) :
    (f.advance turn thread s').Yields seat other grip grant :=
  ⟨h.lapsed.advance turn thread s', h.token⟩

omit [DecidableEq ι] in
/-- To lose the token makes no difference. -/
theorem Yields.of_token {seat other : ι} {before grip : Grip} {grant : Grant}
    (h : f.Yields seat other before grant)
    (htoken : grip.token = none ∨ grip.token = before.token) : f.Yields seat other grip grant := by
  refine ⟨h.lapsed, fun hsame => ?_⟩
  rcases htoken with hnone | hkept
  · exact hnone
  · rw [hkept]
    exact h.token hsame

section Turn

variable {place : Place ι} {thread : Thread engine} {call : Call ε β}
  {next : β → Routine ε thread.task.Result} {answer : β} {s' : Store}

/-- Where a lock on an exclusive job comes from that is in hand after a call: the call has taken it,
or it was in the same hand before, or a cycle has passed it on to a new worker. -/
inductive Comes (s : Store) (f : Fleet engine) (place : Place ι) (thread : Thread engine)
    (exchange : Exchange (Call ε)) (p : Place ι) (seat : ι) (grip : Grip) (grant : Grant)
    (scope : ScopeId) : Prop
  | taken {ws : List Write} (here : p = place) (batch : Event.batch? (.own exchange) = some ws)
      (taken : Grant.ofBatch ws = some grant) (seat : thread.task.seat? = some seat)
  | kept {before : Grip} (occupies : f.Occupies s p seat before grant scope)
      (token : grip.token = none ∨ grip.token = before.token)
      (quiet : p = place → Event.batch? (.own exchange) = none ∧
        Turn.accepted? (⟨place, thread.task, exchange⟩ : Turn ι ε) = none)
  | passed {d : Dispatched} (occupies : f.Occupies s place seat grip grant scope)
      (worker : p = .worker f.history.length)
      (accepted : Turn.accepted? (⟨place, thread.task, exchange⟩ : Turn ι ε) = some (seat, d))

theorem Reachable.comes (h : Reachable s f)
    (howners : Function.Injective fun seat => (engine seat).owner) (hold : f.IsOrderly True)
    (honce : s.InsertsOnce (f.log ++ (Event.batch? (.own ⟨call, answer⟩)).toList))
    (here : f.threads place = some thread) (asks : thread.rest = .ask call next) {p : Place ι}
    {seat : ι} {grip : Grip} {grant : Grant} {scope : ScopeId}
    (hoccupies : (f.advance ⟨place, thread.task, ⟨call, answer⟩⟩ (thread.goOn asks answer)
      s').Occupies s p seat grip grant scope) :
    f.Comes s place thread ⟨call, answer⟩ p seat grip grant scope := by
  obtain ⟨hholds, hlock, hscope⟩ := hoccupies
  rw [log_advance] at hscope
  have hknows := h.knowsLocks howners honce.of_append hold
  have hoccupied : ∀ {q before}, f.Holds q seat before → before.lock = some grant →
      f.Occupies s q seat before grant scope := by
    intro q before hbefore hlock
    obtain ⟨row, hborn, hname, -⟩ := hknows.born hbefore hlock
    exact ⟨hbefore, hlock, row, hborn, hname, hscope.scope_eq honce hborn hname⟩
  rcases hholds.of_advance with ⟨d, hacc, hworker, rfl⟩ | ⟨rfl, hseat, rfl⟩ | ⟨hne, hother⟩
  · have hgrip := h.ofDispatched_eq_grip hknows here asks hacc
    rw [hgrip] at hlock ⊢
    exact .passed (hoccupied (h.hires here asks hacc).1 hlock) hworker hacc
  · cases hbatch : Event.batch? (.own ⟨call, answer⟩) with
    | some ws =>
      rw [Grip.lock_after_batch _ hbatch] at hlock
      exact .taken rfl hbatch hlock hseat
    | none =>
      have hbefore := hoccupied ⟨thread, here, hseat, rfl⟩ (Grip.lock_of_after hbatch hlock)
      refine .kept hbefore (Grip.token_of_after_of_lock hlock) fun _ => ⟨hbatch, ?_⟩
      refine Option.eq_none_iff_forall_ne_some.2 fun ⟨k, d⟩ hacc => ?_
      rw [(h.hires here asks hacc).2.2.2] at hlock
      cases hlock
  · exact .kept (hoccupied hother hlock) (.inr rfl) fun hplace => absurd hplace hne

/-- A task that hands in fair writes on the job that it is at work on has the lock and the token of
the job in hand. -/
theorem Reachable.grip_of_charge (h : Reachable s f)
    (howners : Function.Injective fun seat => (engine seat).owner) (hold : f.IsOrderly True)
    (honce : s.InsertsOnce f.log) (here : f.threads place = some thread)
    (asks : thread.rest = .ask call next) (horderly : thread.task.IsOrderly engine True)
    {ws : List Write} (hbatch : Event.batch? (.own ⟨call, answer⟩) = some ws)
    (hfair : ∀ w ∈ ws, w.IsFair (.lenient True) (thread.task.charge engine thread.talk)
      (thread.talk.flatMap Exchange.told)) {seat : ι} {id : JobId}
    (hcharge : thread.task.charge engine thread.talk = some ⟨(engine seat).owner, id⟩) :
    f.Holds place seat thread.grip ∧ ∃ row expiry, s.Bears f.log.flatten True row ∧ row.id = id ∧
      thread.grip.lock = some ⟨id, expiry⟩ ∧ thread.grip.token = row.exclusivityScope := by
  have hallowed := h.allowed here horderly asks
  have hborn : ∀ {row}, row ∈ thread.known → s.Bears f.log.flatten True row :=
    fun hrow => ((h.remembers honce hold).known place thread here _ hrow).born
  obtain ⟨rows, hexchange⟩ := Event.batch?_own_eq_some_iff.1 hbatch
  cases hexchange
  have happly : (thread.task.conduct engine True).apply thread.talk ws := hallowed
  cases htask : thread.task with
  | acquire k batch =>
    rw [htask] at happly hcharge
    obtain ⟨found, hfound, hsame⟩ := Option.map_eq_some_iff.1 hcharge
    obtain ⟨howner, rfl⟩ := Charge.mk.inj hsame
    obtain rfl := howners howner
    have hgrip : thread.grip = Grip.ofCycle thread.talk := by
      rw [Thread.grip, htask]
      rfl
    refine ⟨⟨thread, here, by rw [htask]; rfl, rfl⟩, ?_⟩
    obtain ⟨row, expiry, holds⟩ := Engine.Acquires.exists_holds happly hfair
    rw [holds.lock] at hfound
    cases hfound
    rw [hgrip]
    exact ⟨row, expiry, hborn (List.mem_append_right _ holds.told), rfl, holds.lock, holds.token⟩
  | run k d =>
    rw [htask] at happly hcharge
    obtain ⟨howner, rfl⟩ := Charge.mk.inj (Option.some.inj hcharge)
    obtain rfl := howners howner
    have hworks := h.worksOn howners honce hold here htask
    obtain ⟨expiry, hexpiry⟩ := hworks.locked
    refine ⟨⟨thread, here, by rw [htask]; rfl, rfl⟩, d.job, expiry, ?_, rfl, ?_, ?_⟩
    · refine hborn (List.mem_append_left _ ?_)
      rw [htask]
      exact List.mem_singleton_self _
    · rw [hworks.lock happly.first, Grip.ofDispatched, hexpiry]
      rfl
    · rw [← hworks.token, ← happly.token, Thread.grip, htask]
      rfl
  | _ =>
    rw [htask] at hcharge
    cases hcharge

/-- The lock of another task than the caller stands after the call, or has lapsed. -/
theorem Reachable.stands_kept (h : Reachable s f)
    (howners : Function.Injective fun seat => (engine seat).owner) (hold : f.IsOrderly True)
    (honce : s.InsertsOnce (f.log ++ (Event.batch? (.own ⟨call, answer⟩)).toList))
    (hexcludes : f.Excludes s) (here : f.threads place = some thread)
    (asks : thread.rest = .ask call next) (replies : f.Replies thread.task.seat? call answer s')
    (horderly : thread.task.IsOrderly engine True) {p : Place ι} {seat : ι} {grip : Grip}
    {grant : Grant} {scope : ScopeId} (hne : p ≠ place)
    (hoccupies : f.Occupies s p seat grip grant scope) :
    (f.advance ⟨place, thread.task, ⟨call, answer⟩⟩ (thread.goOn asks answer) s').HasLapsed grant ∨
      s'.jobs.IsLockedTo grant.id (engine seat).owner grant.expiry := by
  have hlater : f.HasLapsed grant →
      (f.advance ⟨place, thread.task, ⟨call, answer⟩⟩ (thread.goOn asks answer) s').HasLapsed grant :=
    fun hlapsed => hlapsed.advance _ _ s'
  rcases hexcludes.stands hoccupies with hlapsed | hlocked
  · exact .inl (hlater hlapsed)
  · by_cases hlapsed : (f.advance ⟨place, thread.task, ⟨call, answer⟩⟩ (thread.goOn asks answer)
        s').HasLapsed grant
    · exact .inl hlapsed
    · right
      have hremembers := h.remembers honce.of_append hold
      refine h.stands hremembers here asks replies horderly honce hlocked ?_ ?_ ?_
      · -- Of two tasks of one engine the one without the token does not settle.
        intro ws hbatch hfair hcharge
        obtain ⟨hholds, row, expiry, hborn, hname, hlock, htoken⟩ :=
          h.grip_of_charge howners hold honce.of_append here asks horderly hbatch hfair hcharge
        have hother : f.Occupies s place seat thread.grip ⟨grant.id, expiry⟩ scope :=
          ⟨hholds, hlock, hoccupies.scope⟩
        rcases hexcludes.apart hne hoccupies hother with hyields | hyields
        · exact hlapsed (hlater hyields.lapsed)
        · rw [hyields.token rfl] at htoken
          rw [(hoccupies.scope.append _).scope_eq honce hborn hname] at htoken
          cases htoken
      · intro ws hbatch hmem
        refine hlapsed (.inr ?_)
        rw [log_advance, List.flatten_append]
        refine List.mem_append_right _ (List.mem_flatten.2 ⟨ws, ?_, hmem⟩)
        exact Option.mem_toList.2 hbatch
      · intro ws hbatch w hw now hlock
        by_contra hlate
        refine hlapsed (.inl ⟨now, ?_, Instant.not_le.1 hlate⟩)
        rw [readings_advance]
        exact List.mem_append_left _ (h.lockTime_mem_readings here asks horderly hbatch hw hlock)

/-- A lock on an exclusive job that is in hand after a call stands or has lapsed. -/
theorem Reachable.stands_advance (h : Reachable s f)
    (howners : Function.Injective fun seat => (engine seat).owner) (hold : f.IsOrderly True)
    (honce : s.InsertsOnce (f.log ++ (Event.batch? (.own ⟨call, answer⟩)).toList))
    (hexcludes : f.Excludes s) (here : f.threads place = some thread)
    (asks : thread.rest = .ask call next) (replies : f.Replies thread.task.seat? call answer s')
    (horderly : thread.task.IsOrderly engine True) {p : Place ι} {seat : ι} {grip : Grip}
    {grant : Grant} {scope : ScopeId}
    (hcomes : f.Comes s place thread ⟨call, answer⟩ p seat grip grant scope) :
    (f.advance ⟨place, thread.task, ⟨call, answer⟩⟩ (thread.goOn asks answer) s').HasLapsed grant ∨
      s'.jobs.IsLockedTo grant.id (engine seat).owner grant.expiry := by
  have hunchanged : ∀ {q before}, f.Occupies s q seat before grant scope → s' = f.store →
      (f.advance ⟨place, thread.task, ⟨call, answer⟩⟩ (thread.goOn asks answer) s').HasLapsed
        grant ∨ s'.jobs.IsLockedTo grant.id (engine seat).owner grant.expiry := by
    rintro q before hbefore rfl
    exact (hexcludes.stands hbefore).imp_left fun hlapsed => hlapsed.advance _ _ _
  cases hcomes with
  | taken _ hbatch htaken hseat =>
    obtain ⟨_, _, _, hlocks⟩ := h.locks here asks replies horderly hbatch htaken
    obtain ⟨_, htask⟩ := hlocks.task
    obtain ⟨_, hw⟩ := hlocks.written
    rw [htask] at hseat
    cases hseat
    exact .inr (JobTable.isLockedTo_of_lock hw)
  | kept hbefore _ hquiet =>
    by_cases hplace : p = place
    · exact hunchanged hbefore (replies.answered.unchanged (hquiet hplace).1)
    · exact h.stands_kept howners hold honce hexcludes here asks replies horderly hplace hbefore
  | passed hbefore _ hacc =>
    refine hunchanged hbefore (replies.answered.unchanged ?_)
    obtain ⟨_, -, hexchange⟩ := Turn.accepted?_eq_some_iff.1 hacc
    dsimp only at hexchange
    rw [hexchange]
    rfl

/-- When a lock is taken, all others on jobs of its scope have lapsed, and none of its engine's tasks
with such a lock has the token. -/
theorem Reachable.yields_to_taken (h : Reachable s f)
    (howners : Function.Injective fun seat => (engine seat).owner) (hold : f.IsOrderly True)
    (honce : s.InsertsOnce (f.log ++ (Event.batch? (.own ⟨call, answer⟩)).toList))
    (hexcludes : f.Excludes s) (here : f.threads place = some thread)
    (asks : thread.rest = .ask call next) (replies : f.Replies thread.task.seat? call answer s')
    (horderly : thread.task.IsOrderly engine True) {ws : List Write}
    (hbatch : Event.batch? (.own ⟨call, answer⟩) = some ws) {grant grant' : Grant}
    (htaken : Grant.ofBatch ws = some grant) {scope : ScopeId}
    (hscope : s.HasScope (f.log ++ (Event.batch? (.own ⟨call, answer⟩)).toList) grant.id scope)
    {q : Place ι} {seat seat' : ι} {grip' : Grip} (hseat : thread.task.seat? = some seat)
    (hne : q ≠ place) (hother : f.Occupies s q seat' grip' grant' scope) :
    (f.advance ⟨place, thread.task, ⟨call, answer⟩⟩ (thread.goOn asks answer) s').Yields seat' seat
      grip' grant' := by
  obtain ⟨_, row, now, hlocks⟩ := h.locks here asks replies horderly hbatch htaken
  obtain ⟨_, hw⟩ := hlocks.written
  have hremembers := h.remembers honce.of_append hold
  have hrowScope : row.exclusivityScope = some scope :=
    hscope.scope_eq honce (hremembers.known place thread here row hlocks.timed.mem_known).born
      hlocks.named
  have hstored : ∀ {id}, s.HasScope (f.log ++ (Event.batch? (.own ⟨call, answer⟩)).toList) id scope →
      ∀ row, f.store.jobs.find? id = some row → row.exclusivityScope = some scope :=
    fun hscope row hrow => hscope.scope_eq honce
      (hremembers.stored row (JobTable.mem_of_find? hrow)) (JobTable.id_of_find? hrow)
  constructor
  · rcases hexcludes.stands hother with hlapsed | hlocked
    · exact hlapsed.advance _ _ _
    · have hlt := hlocked.lt_of_lock (hstored (hother.scope.append _)) (hstored hscope) hw
      refine .inl ⟨now, ?_, hlt⟩
      rw [readings_advance]
      exact List.mem_append_left _ (h.mem_readings here hlocks.timed.mem_talk)
  · rintro rfl
    obtain ⟨row', hborn, hname', hfree | hsame⟩ :=
      (h.knowsLocks howners honce.of_append hold).born hother.holds hother.lock
    · exact hfree
    · -- The caller has the token, so the other task does not.
      rw [(hother.scope.append _).scope_eq honce hborn hname'] at hsame
      refine absurd ((h.tokensHeld honce.of_append hold).sole hother.holds
        ⟨thread, here, hseat, rfl⟩ hsame ?_) hne
      rw [hlocks.grip_token]
      exact hrowScope

/-- Of two locks on jobs of one scope that are in hand after a call, one yields to the other. -/
theorem Reachable.apart_advance (h : Reachable s f)
    (howners : Function.Injective fun seat => (engine seat).owner) (hold : f.IsOrderly True)
    (honce : s.InsertsOnce (f.log ++ (Event.batch? (.own ⟨call, answer⟩)).toList))
    (hexcludes : f.Excludes s) (here : f.threads place = some thread)
    (asks : thread.rest = .ask call next) (replies : f.Replies thread.task.seat? call answer s')
    (horderly : thread.task.IsOrderly engine True) {p q : Place ι} {seat seat' : ι}
    {grip grip' : Grip} {grant grant' : Grant} {scope : ScopeId} (hne : p ≠ q)
    (hscope : s.HasScope (f.log ++ (Event.batch? (.own ⟨call, answer⟩)).toList) grant.id scope)
    (hscope' : s.HasScope (f.log ++ (Event.batch? (.own ⟨call, answer⟩)).toList) grant'.id scope)
    (hcomes : f.Comes s place thread ⟨call, answer⟩ p seat grip grant scope)
    (hcomes' : f.Comes s place thread ⟨call, answer⟩ q seat' grip' grant' scope) :
    (f.advance ⟨place, thread.task, ⟨call, answer⟩⟩ (thread.goOn asks answer) s').Yields seat seat'
        grip grant ∨
      (f.advance ⟨place, thread.task, ⟨call, answer⟩⟩ (thread.goOn asks answer) s').Yields seat' seat
        grip' grant' := by
  have hnothing : ∀ {d ws}, Turn.accepted? (⟨place, thread.task, ⟨call, answer⟩⟩ : Turn ι ε) = some d →
      Event.batch? (.own ⟨call, answer⟩) ≠ some ws := by
    intro d ws hacc hbatch
    obtain ⟨_, -, hexchange⟩ := Turn.accepted?_eq_some_iff.1 hacc
    dsimp only at hexchange
    rw [hexchange] at hbatch
    cases hbatch
  cases hcomes with
  | taken hp hbatch htaken hseat =>
    cases hcomes' with
    | taken hq => exact absurd (hp.trans hq.symm) hne
    | kept hbefore htoken hquiet =>
      have hq : q ≠ place := fun hq => by simp [(hquiet hq).1] at hbatch
      exact .inr ((h.yields_to_taken howners hold honce hexcludes here asks replies horderly hbatch
        htaken hscope hseat hq hbefore).of_token htoken)
    | passed _ _ hacc => exact absurd hbatch (hnothing hacc)
  | kept hbefore htoken hquiet =>
    cases hcomes' with
    | taken hq hbatch htaken hseat =>
      have hp : p ≠ place := fun hp => by simp [(hquiet hp).1] at hbatch
      exact .inl ((h.yields_to_taken howners hold honce hexcludes here asks replies horderly hbatch
        htaken hscope' hseat hp hbefore).of_token htoken)
    | kept hbefore' htoken' _ =>
      exact (hexcludes.apart hne hbefore hbefore').imp
        (fun hyields => (hyields.advance _ _ _).of_token htoken)
        (fun hyields => (hyields.advance _ _ _).of_token htoken')
    | passed hbefore' _ hacc =>
      have hp : p ≠ place := fun hp => by simp [(hquiet hp).2] at hacc
      exact (hexcludes.apart hp hbefore hbefore').imp
        (fun hyields => (hyields.advance _ _ _).of_token htoken)
        (fun hyields => hyields.advance _ _ _)
  | passed hbefore hp hacc =>
    cases hcomes' with
    | taken _ hbatch => exact absurd hbatch (hnothing hacc)
    | kept hbefore' htoken' hquiet =>
      have hq : q ≠ place := fun hq => by simp [(hquiet hq).2] at hacc
      exact (hexcludes.apart hq.symm hbefore hbefore').imp
        (fun hyields => hyields.advance _ _ _)
        (fun hyields => (hyields.advance _ _ _).of_token htoken')
    | passed _ hq _ => exact absurd (hp.trans hq.symm) hne

end Turn

/-- Locks on exclusive jobs stand until they lapse, and of two on jobs of one scope one yields. -/
theorem Reachable.excludes (h : Reachable s f)
    (howners : Function.Injective fun seat => (engine seat).owner) (honce : s.InsertsOnce f.log)
    (horderly : f.IsOrderly True) : f.Excludes s := by
  refine h.induction_on_turns (I := fun f => f.Excludes s) ?_ ?_ ?_ ?_ honce horderly
  · constructor
    · rintro p seat grip grant scope ⟨⟨thread, hp, -⟩, -, -⟩
      cases hp
    · rintro p q seat seat' grip grip' grant grant' scope - ⟨⟨thread, hp, -⟩, -, -⟩
      cases hp
  · intro f place task suits vacant hexcludes
    refine hexcludes.of_still rfl rfl fun hholds hlock => ?_
    rcases hholds.of_enter suits vacant with rfl | hbefore
    · cases hlock
    · exact hbefore
  · intro f place thread β call next answer s' h hold _ here asks replies hthread honce hexcludes
    constructor
    · intro p seat grip grant scope hoccupies
      exact h.stands_advance howners hold honce hexcludes here asks replies hthread
        (h.comes howners hold honce here asks hoccupies)
    · intro p q seat seat' grip grip' grant grant' scope hne hoccupies hoccupies'
      have hscope := hoccupies.scope
      have hscope' := hoccupies'.scope
      rw [log_advance] at hscope hscope'
      exact h.apart_advance howners hold honce hexcludes here asks replies hthread hne hscope hscope'
        (h.comes howners hold honce here asks hoccupies)
        (h.comes howners hold honce here asks hoccupies')
  · exact fun value hexcludes => hexcludes.of_still rfl rfl fun hholds _ => hholds

/-! ## Workers of one scope -/

section Workers

variable {p q : Place ι} {thread thread' : Thread engine} {seat seat' : ι} {d d' : Dispatched}
  {scope : ScopeId}

/-- A worker that has not settled its job has the lock of the job in hand. -/
theorem Reachable.occupies_of_run (h : Reachable s f)
    (howners : Function.Injective fun seat => (engine seat).owner) (honce : s.InsertsOnce f.log)
    (horderly : f.IsOrderly True) (here : f.threads p = some thread)
    (htask : thread.task = .run seat d) (hnone : NoneAccepted thread.talk)
    (hscope : d.job.exclusivityScope = some scope) :
    ∃ expiry, d.job.lockedUntil = some expiry ∧
      f.Occupies s p seat thread.grip ⟨d.job.id, expiry⟩ scope := by
  have hworks := h.worksOn howners honce horderly here htask
  obtain ⟨expiry, hexpiry⟩ := hworks.locked
  refine ⟨expiry, hexpiry, ⟨thread, here, by rw [htask]; rfl, rfl⟩, ?_, d.job, ?_, rfl, hscope⟩
  · rw [hworks.lock hnone, Grip.ofDispatched, hexpiry]
    rfl
  · refine ((h.remembers honce horderly).known p thread here d.job ?_).born
    rw [Thread.known, htask]
    exact List.mem_append_left _ (List.mem_singleton_self _)

/-- Of two workers for exclusive jobs of one scope that have not settled them yet, one has a lock that
has expired, provided that no name is inserted twice, the handlers of engines are fair, and nobody has
deleted one of the jobs without a guard. -/
theorem Reachable.overlap_only_after_expiry (h : Reachable s f)
    (howners : Function.Injective fun seat => (engine seat).owner) (honce : s.InsertsOnce f.log)
    (horderly : f.IsOrderly True) (hne : p ≠ q) (here : f.threads p = some thread)
    (here' : f.threads q = some thread') (htask : thread.task = .run seat d)
    (htask' : thread'.task = .run seat' d') (hnone : NoneAccepted thread.talk)
    (hnone' : NoneAccepted thread'.talk) (hscope : d.job.exclusivityScope = some scope)
    (hscope' : d'.job.exclusivityScope = some scope)
    (hforced : .delete d.job.id .any ∉ f.log.flatten)
    (hforced' : .delete d'.job.id .any ∉ f.log.flatten) :
    ∃ expiry expiry', d.job.lockedUntil = some expiry ∧ d'.job.lockedUntil = some expiry' ∧
      ∃ now ∈ f.readings, expiry < now ∨ expiry' < now := by
  obtain ⟨expiry, hexpiry, hoccupies⟩ :=
    h.occupies_of_run howners honce horderly here htask hnone hscope
  obtain ⟨expiry', hexpiry', hoccupies'⟩ :=
    h.occupies_of_run howners honce horderly here' htask' hnone' hscope'
  refine ⟨expiry, expiry', hexpiry, hexpiry', ?_⟩
  rcases (h.excludes howners honce horderly).apart hne hoccupies hoccupies' with
    ⟨⟨now, hnow, hlt⟩ | hdeleted, -⟩ | ⟨⟨now, hnow, hlt⟩ | hdeleted, -⟩
  · exact ⟨now, hnow, .inl hlt⟩
  · exact absurd hdeleted hforced
  · exact ⟨now, hnow, .inr hlt⟩
  · exact absurd hdeleted hforced'

end Workers

/-! ## Two jobs of a tenant -/

/-- The job of a worker that has not started yet, with the seat of its engine. -/
def waiting? (f : Fleet engine) (p : Place ι) : Option (ι × Dispatched) :=
  match f.threads p with
  | some ⟨.run seat d, [], _, _⟩ => some (seat, d)
  | _ => none

omit [DecidableEq ι] in
theorem exists_of_waiting? {p : Place ι} {seat : ι} {d : Dispatched}
    (h : f.waiting? p = some (seat, d)) :
    ∃ thread, f.threads p = some thread ∧ thread.task = .run seat d ∧ thread.talk = [] := by
  unfold waiting? at h
  split at h
  · rename_i found hfound
    cases h
    exact ⟨_, hfound, rfl, rfl⟩
  · cases h

/-- A job of a tenant who runs one job at a time, dispatched with a lock on it. -/
def tenantMail (name : String) (owner : Owner) (expiry : Instant) : Dispatched where
  job :=
    { (Job.mail name).lockedBy owner expiry with scope := some ⟨"tenant"⟩, revision := 2 }
  token := some ⟨"tenant"⟩

/-- A store with two jobs of the tenant. -/
def tenantStore : Store :=
  .ofTwo { Job.mail "first" with scope := some ⟨"tenant"⟩ }
    { Job.mail "second" with scope := some ⟨"tenant"⟩ }

/-- The left engine dispatches the first job, and an operator suspends it.  When the lock has expired,
the right engine dispatches the second job. -/
def succession : Fleet Engine.ofPair :=
  (start Engine.ofPair tenantStore).play
    [.begin (.cycle true) (.acquire true 1) rfl, .call (.cycle true) 13 .early,
      .begin (.call 0) (.suspend ⟨.ofMillis 1, 3⟩ ⟨"first"⟩) trivial, .call (.call 0) 5 .early,
      .begin (.cycle false) (.acquire false 1) rfl, .call (.cycle false) 13 .late]

/-- The left engine dispatches the first job, and an operator cancels it.  The right engine dispatches
the second job at once. -/
def cancellation : Fleet Engine.ofPair :=
  (start Engine.ofPair tenantStore).play
    [.begin (.cycle true) (.acquire true 1) rfl, .call (.cycle true) 13 .early,
      .begin (.call 0) (.cancel ⟨.ofMillis 1, 3⟩ ⟨"first"⟩) trivial, .call (.call 0) 5 .early,
      .begin (.cycle false) (.acquire false 1) rfl, .call (.cycle false) 13 .early]

theorem succession_after_expiry :
    Reachable tenantStore succession ∧ (Function.Injective fun left => (Engine.ofPair left).owner) ∧
      tenantStore.InsertsOnce succession.log ∧ succession.IsOrderly True ∧
      succession.waiting? (.worker 9) =
        some (true, tenantMail "first" (Engine.ofPair true).owner earlyExpiry) ∧
      succession.waiting? (.worker 25) =
        some (false, tenantMail "second" (Engine.ofPair false).owner lateExpiry) ∧
      .delete ⟨"first"⟩ .any ∉ succession.log.flatten ∧
      .delete ⟨"second"⟩ .any ∉ succession.log.flatten ∧
      ∃ expiry expiry',
        (tenantMail "first" (Engine.ofPair true).owner earlyExpiry).job.lockedUntil = some expiry ∧
        (tenantMail "second" (Engine.ofPair false).owner lateExpiry).job.lockedUntil = some expiry' ∧
        ∃ now ∈ succession.readings, expiry < now ∨ expiry' < now := by
  have hreachable : Reachable tenantStore succession := Reachable.start.play _
  have honce : tenantStore.InsertsOnce succession.log := by
    unfold Store.InsertsOnce
    decide +kernel
  have horderly : succession.IsOrderly True := by
    refine .ofPair ?_
    decide +kernel
  have hfirst : succession.waiting? (.worker 9) =
      some (true, tenantMail "first" (Engine.ofPair true).owner earlyExpiry) := by decide +kernel
  have hsecond : succession.waiting? (.worker 25) =
      some (false, tenantMail "second" (Engine.ofPair false).owner lateExpiry) := by decide +kernel
  have hforced : .delete ⟨"first"⟩ .any ∉ succession.log.flatten := by decide +kernel
  have hforced' : .delete ⟨"second"⟩ .any ∉ succession.log.flatten := by decide +kernel
  refine ⟨hreachable, Engine.ofPair_owner_injective, honce, horderly, hfirst, hsecond, hforced,
    hforced', ?_⟩
  obtain ⟨thread, here, htask, htalk⟩ := exists_of_waiting? hfirst
  obtain ⟨thread', here', htask', htalk'⟩ := exists_of_waiting? hsecond
  have hnone : NoneAccepted thread.talk := by
    rw [htalk]
    exact List.forall_mem_nil _
  have hnone' : NoneAccepted thread'.talk := by
    rw [htalk']
    exact List.forall_mem_nil _
  exact hreachable.overlap_only_after_expiry Engine.ofPair_owner_injective honce horderly
    (by decide) here here' htask htask' hnone hnone' rfl rfl hforced hforced'

/-- Two workers have been handed exclusive jobs of one scope and have settled neither, though neither
lock has expired.  The worker of the cancelled job has not started here, and would end in contention; one
that had read its job before would go on with it beside the other. -/
theorem cancelled_job_overlaps :
    Reachable tenantStore cancellation ∧
      (Function.Injective fun left => (Engine.ofPair left).owner) ∧
      (∀ left kind handler, (Engine.ofPair left).handlers.resolve kind = some handler →
        handler.StagesNothing) ∧
      tenantStore.InsertsOnce cancellation.log ∧ cancellation.IsOrderly True ∧
      cancellation.waiting? (.worker 9) =
        some (true, tenantMail "first" (Engine.ofPair true).owner earlyExpiry) ∧
      cancellation.waiting? (.worker 25) =
        some (false, tenantMail "second" (Engine.ofPair false).owner earlyExpiry) ∧
      (tenantMail "first" (Engine.ofPair true).owner earlyExpiry).job.exclusivityScope =
        some ⟨"tenant"⟩ ∧
      (tenantMail "second" (Engine.ofPair false).owner earlyExpiry).job.exclusivityScope =
        some ⟨"tenant"⟩ ∧
      ∀ now ∈ cancellation.readings, now ≤ earlyExpiry := by
  have honce : tenantStore.InsertsOnce cancellation.log := by
    unfold Store.InsertsOnce
    decide +kernel
  have horderly : cancellation.IsOrderly True := by
    refine .ofPair ?_
    decide +kernel
  exact ⟨Reachable.start.play _, Engine.ofPair_owner_injective,
    fun _ _ _ => Engine.stagesNothing_ofPair, honce, horderly, by decide +kernel, by decide +kernel,
    rfl, rfl, by decide +kernel⟩

end Fleet

end DeferredWork

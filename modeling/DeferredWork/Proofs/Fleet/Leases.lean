import Mathlib.Data.List.TakeWhile
import DeferredWork.Proofs.Fleet.Play
import DeferredWork.Proofs.Fleet.Standing

set_option autoImplicit false

/-!
# How long locks last

While engines acquire, execute and settle jobs, and operators do anything but cancel, a lock lasts
until it has expired, or until a call of its owner settles the job (`Turn.settles`).  A later lock
on the job is taken after the first one has expired (`Fleet.Reachable.lock_lasts_until_settled`).

Whether the call that settles belongs to the lock makes no difference: an engine that has dispatched
a job twice, since its first lock had expired, loses the second lock when the first worker settles
(`Fleet.older_dispatch_clears_newer_lock`).
-/

namespace DeferredWork

variable {ι : Type} {ε : Type → Type} {β : Type} {engine : ι → Engine ε}

/-! ## Calls that lock and settle -/

namespace Turn

variable {turn : Turn ι ε} {id : JobId} {owner : Owner}

/-- The time at which a call takes a lock on the job of a name. -/
def locksAt? (id : JobId) (turn : Turn ι ε) : Option Instant :=
  turn.batch?.bind fun ws => ws.findSome? (Write.locksAt? id)

/-- A call that may end a lock of its owner on a job before the lock has expired: a worker of the
owner's for the job hands in a batch, or a cycle of the owner's hands in one that is about the job and
takes no lock on it. -/
def settles (engine : ι → Engine ε) (owner : Owner) (id : JobId) (turn : Turn ι ε) : Bool :=
  match turn.task, turn.batch? with
  | .run seat d, some _ => (engine seat).owner == owner && d.job.id == id
  | .acquire seat _, some ws =>
    (engine seat).owner == owner && (turn.locksAt? id).isNone && ws.any (Write.touches id)
  | _, _ => false

theorem locksAt?_eq_none {ws : List Write} (hbatch : turn.batch? = some ws)
    (h : turn.locksAt? id = none) : ∀ w ∈ ws, w.locksAt? id = none := by
  rw [locksAt?, hbatch] at h
  exact List.findSome?_eq_none_iff.1 h

/-- A call of a task that is at work on a job, and neither locks nor settles it, does not touch it. -/
theorem not_touches_of_charge {talk : List (Exchange (Call ε))} {ws : List Write}
    (hcharge : turn.task.charge engine talk = some ⟨owner, id⟩) (hbatch : turn.batch? = some ws)
    (hlock : turn.locksAt? id = none) (hsettles : turn.settles engine owner id = false) :
    ∀ w ∈ ws, w.touches id = false := by
  unfold settles at hsettles
  rw [hbatch, hlock] at hsettles
  revert hcharge hsettles
  cases turn.task with
  | acquire seat batch =>
    intro hcharge hsettles
    obtain ⟨grant, -, hsame⟩ := Option.map_eq_some_iff.1 hcharge
    obtain ⟨rfl, -⟩ := Charge.mk.inj hsame
    simpa using hsettles
  | run seat d =>
    intro hcharge hsettles
    cases hcharge
    simp at hsettles
  | _ =>
    intro hcharge
    cases hcharge

end Turn

namespace Fleet

variable [DecidableEq ι] {s s' : Store} {f : Fleet engine} {scopesFixed : Prop} {turn : Turn ι ε}
  {id : JobId} {owner : Owner} {expiry now : Instant}

/-! ## A lock that nothing settles -/

/-- A lock outlasts a call that neither takes a new lock on the job nor settles it. -/
theorem Reachable.stands_unsettled (h : Reachable s f) (hremembers : f.Remembers s scopesFixed)
    (htakes : f.Takes turn s') (horderly : turn.task.IsOrderly engine scopesFixed)
    (honce : s.InsertsOnce (f.log ++ turn.batch?.toList))
    (hforced : .delete id .any ∉ turn.batch?.toList.flatten) (hlock : turn.locksAt? id = none)
    (hsettles : turn.settles engine owner id = false)
    (hlocked : f.store.jobs.IsLockedTo id owner expiry) : s'.jobs.IsLockedTo id owner expiry := by
  cases htakes with
  | @mk place thread _ call next answer _ here asks replies =>
    by_cases hcharge : thread.task.charge engine thread.talk = some ⟨owner, id⟩
    · cases hbatch : Turn.batch? (⟨place, thread.task, ⟨call, answer⟩⟩ : Turn ι ε) with
      | none =>
        rw [replies.answered.unchanged hbatch]
        exact hlocked
      | some ws =>
        have hnot := Turn.not_touches_of_charge hcharge hbatch hlock hsettles
        obtain ⟨rows, hexchange⟩ := Event.batch?_own_eq_some_iff.1 hbatch
        cases hexchange
        have hws := Store.writeAll_of_apply replies.answered.apply
        exact JobTable.isLockedTo_of_find?_eq (JobTable.find?_writeAll_of_not_touches hws hnot)
          hlocked
    · refine h.stands hremembers here asks replies horderly honce hlocked
        (fun _ _ _ => hcharge) ?_ ?_
      · intro ws hbatch hmem
        refine hforced (List.mem_flatten.2 ⟨ws, ?_, hmem⟩)
        exact Option.mem_toList.2 hbatch
      · intro ws (hbatch : Turn.batch? ⟨place, thread.task, ⟨call, answer⟩⟩ = some ws) w hw now hnow
        rw [Turn.locksAt?_eq_none hbatch hlock w hw] at hnow
        cases hnow

/-- A lock stands as long as no call takes a new one on the job and none settles it. -/
theorem Reachable.stands_since (h : Reachable s f) (honce : s.InsertsOnce f.log)
    (horderly : f.IsOrderly scopesFixed) (hforced : .delete id .any ∉ f.log.flatten)
    {before quiet : List (Turn ι ε)} {m : Turn ι ε} {revision : Nat}
    (hhistory : f.history = before ++ m :: quiet)
    (hlock : m.batch? = some [.lock id revision owner expiry now])
    (hquiet : ∀ turn ∈ quiet, turn.locksAt? id = none ∧ turn.settles engine owner id = false) :
    f.store.jobs.IsLockedTo id owner expiry := by
  induction h generalizing quiet with
  | start => cases (List.append_eq_nil_iff.1 hhistory.symm).2
  | @step f f' h hstep ih =>
    cases hstep with
    | enter suits vacant => exact ih honce horderly hforced hhistory hquiet
    | @turn place thread _ call next answer s' here asks replies =>
      rw [log_advance] at honce hforced
      rw [List.flatten_append] at hforced
      rcases List.eq_nil_or_concat quiet with rfl | ⟨quiet, last, rfl⟩
      · -- This call takes the lock.
        obtain ⟨-, hturn⟩ := List.append_inj' hhistory rfl
        obtain rfl := (List.cons.inj hturn).1
        obtain ⟨rows, hexchange⟩ := Event.batch?_own_eq_some_iff.1 hlock
        cases hexchange
        obtain ⟨left, hw, -⟩ :=
          JobTable.writeAll_singleton_eq_ok_iff.1 (Store.writeAll_of_apply replies.answered.apply)
        exact JobTable.isLockedTo_of_lock hw
      · rw [List.concat_eq_append] at hhistory hquiet
        rw [← List.cons_append, ← List.append_assoc] at hhistory
        obtain ⟨hbefore, hturn⟩ := List.append_inj' hhistory rfl
        obtain rfl := (List.cons.inj hturn).1
        have hold : f.IsOrderly scopesFixed := fun turn hmem =>
          horderly turn (List.mem_append_left _ hmem)
        obtain ⟨hlast, hsettles⟩ := hquiet _ (List.mem_append_right _ (List.mem_singleton_self _))
        refine h.stands_unsettled (h.remembers honce.of_append hold) (.mk here asks replies)
          (horderly _ (List.mem_append_right _ (List.mem_singleton_self _))) honce
          (fun hmem => hforced (List.mem_append_right _ hmem)) hlast hsettles ?_
        exact ih honce.of_append hold (fun hmem => hforced (List.mem_append_left _ hmem)) hbefore
          fun turn hmem => hquiet turn (List.mem_append_left _ hmem)
    | reach value => exact ih honce horderly hforced hhistory hquiet

/-! ## Locks follow the clock -/

/-- The times at which locks were taken on the job of a name. -/
def lockTimes (f : Fleet engine) (id : JobId) : List Instant :=
  f.log.flatten.filterMap (Write.locksAt? id)

theorem lockTimes_advance (f : Fleet engine) (turn : Turn ι ε) (thread : Thread engine)
    (s' : Store) : (f.advance turn thread s').lockTimes id =
      f.lockTimes id ++ turn.batch?.toList.flatten.filterMap (Write.locksAt? id) := by
  rw [lockTimes, log_advance, List.flatten_append, List.filterMap_append, lockTimes]

/-- What takes a lock on a job: a task that knows the job's row has just read the clock, and the store
takes its lock. -/
theorem Reachable.exists_lock (h : Reachable s f) (htakes : f.Takes turn s')
    (horderly : turn.task.IsOrderly engine scopesFixed) (hlock : turn.locksAt? id = some now) :
    ∃ place thread row owner expiry left, f.threads place = some thread ∧
      thread.HasTimed row now ∧ row.id = id ∧
      f.store.jobs.write (.lock id row.revision owner expiry now) = .ok (s'.jobs, left) := by
  cases htakes with
  | @mk place thread _ call next answer _ here asks replies =>
    cases hbatch : Turn.batch? (⟨place, thread.task, ⟨call, answer⟩⟩ : Turn ι ε) with
    | none =>
      rw [Turn.locksAt?, hbatch] at hlock
      cases hlock
    | some ws =>
      rw [Turn.locksAt?, hbatch] at hlock
      obtain ⟨w, hw, hnow⟩ := List.exists_of_findSome?_eq_some hlock
      rcases h.takesLock_or_isFair here asks horderly hbatch with htakesLock | hfair
      · obtain ⟨grant, hgrant⟩ := htakesLock.exists_grant
        obtain ⟨seat, row, time, hlocks⟩ := h.locks here asks replies horderly hbatch hgrant
        obtain ⟨left, hwrite⟩ := hlocks.written
        obtain rfl := List.mem_singleton.1 (hlocks.batch ▸ hw)
        obtain ⟨_, _, _, hsame⟩ := Write.locksAt?_eq_some_iff.1 hnow
        cases hsame
        exact ⟨place, thread, row, _, _, left, here, hlocks.timed, hlocks.named, hwrite⟩
      · obtain ⟨_, _, _, rfl⟩ := Write.locksAt?_eq_some_iff.1 hnow
        exact (hfair _ hw).elim

/-- Locks are taken at times that clocks have shown. -/
theorem Reachable.lockTimes_subset_readings (h : Reachable s f)
    (horderly : f.IsOrderly scopesFixed) (id : JobId) : f.lockTimes id ⊆ f.readings := by
  induction h with
  | start => exact List.nil_subset _
  | @step f f' h hstep ih =>
    cases hstep with
    | enter suits vacant => exact ih horderly
    | @turn place thread _ call next answer s' here asks replies =>
      obtain ⟨hold, hturn⟩ := List.forall_mem_append.1 horderly
      rw [lockTimes_advance, readings_advance]
      intro now hnow
      refine List.mem_append_left _ ?_
      rcases List.mem_append.1 hnow with hnow | hnow
      · exact ih hold hnow
      · obtain ⟨w, hw, hlock⟩ := List.mem_filterMap.1 hnow
        obtain ⟨ws, hbatch, hw⟩ := List.mem_flatten.1 hw
        exact h.lockTime_mem_readings here asks (hturn _ (List.mem_singleton_self _))
          (Option.mem_toList.1 hbatch) hw hlock
    | reach value => exact ih horderly

/-- When a task that knows a row has read the clock, no lock was taken on the job later than that, as
long as the row is the stored one. -/
theorem Reachable.lockTimes_le (h : Reachable s f) (honce : s.InsertsOnce f.log)
    (horderly : f.IsOrderly scopesFixed) (hclock : f.readings.Pairwise (· ≤ ·)) {p : Place ι}
    {thread : Thread engine} {row : Job} (hp : f.threads p = some thread)
    (htimed : thread.HasTimed row now) (hstill : f.store.jobs.find? row.id = some row) :
    ∀ past ∈ f.lockTimes row.id, past ≤ now := by
  induction h generalizing p thread row with
  | start => cases hp
  | @step f f' h hstep ih =>
    cases hstep with
    | @enter place task suits vacant =>
      rw [threads_enter] at hp
      split at hp
      · cases hp
        exact absurd rfl htimed.talk_ne_nil
      · exact ih honce horderly hclock hp htimed hstill
    | @turn place caller _ call next answer s' here asks replies =>
      rw [log_advance] at honce
      rw [readings_advance] at hclock
      have hold : f.IsOrderly scopesFixed := (List.forall_mem_append.1 horderly).1
      rcases threads_advance f _ _ s' hp with ⟨seat, d, -, -, rfl⟩ | ⟨rfl, rfl⟩ | ⟨-, hp⟩
      · exact absurd rfl htimed.talk_ne_nil
      · -- The task reads the clock now, and the locks were taken at times shown before.
        obtain ⟨earlier, htalk, -⟩ := htimed
        obtain ⟨-, hexchange⟩ := List.append_inj' htalk rfl
        cases hexchange
        intro past hpast
        rw [lockTimes_advance] at hpast
        have hpast : past ∈ f.lockTimes row.id ++ [] := hpast
        rw [List.append_nil] at hpast
        have hshown := h.lockTimes_subset_readings hold row.id hpast
        exact (List.pairwise_append.1 hclock).2.2 past hshown now (List.mem_singleton_self _)
      · have hremembers := h.remembers honce.of_append hold
        have hrecalls := hremembers.known p thread hp row htimed.mem_known
        obtain ⟨hbefore, hnot⟩ := hrecalls.still_of_still replies.answered.commits honce hstill
        intro past hpast
        rw [lockTimes_advance] at hpast
        rcases List.mem_append.1 hpast with hpast | hpast
        · exact ih honce.of_append hold (List.pairwise_append.1 hclock).1 hp htimed hbefore past hpast
        · obtain ⟨w, hw, hlock⟩ := List.mem_filterMap.1 hpast
          have htouch := hnot w hw
          rw [Write.touches_of_locksAt? hlock] at htouch
          cases htouch
    | reach value => exact ih honce horderly hclock hp htimed hstill

/-! ## One lock after the other -/

section History

variable {before between quiet later : List (Turn ι ε)} {m m' : Turn ι ε} {now' : Instant}

/-- Up to each of its calls the history is that of a fleet, for which what was supposed of the whole
history holds as well. -/
theorem Reachable.cut_orderly (h : Reachable s f) (honce : s.InsertsOnce f.log)
    (horderly : f.IsOrderly scopesFixed) (hhistory : f.history = before ++ m :: later) :
    ∃ (g : Fleet engine) (s' : Store), Reachable s g ∧ g.history = before ∧ g.Takes m s' ∧
      s.InsertsOnce g.log ∧ g.IsOrderly scopesFixed ∧ m.task.IsOrderly engine scopesFixed ∧
      g.log <+: f.log ∧ g.readings <+: f.readings := by
  obtain ⟨g, s', hg, hbefore, htakes⟩ := h.cut hhistory
  have hpart : g.history <+: f.history := by
    rw [hhistory, hbefore]
    exact List.prefix_append _ _
  have hlog : g.log <+: f.log := hpart.filterMap _
  refine ⟨g, s', hg, hbefore, htakes, ?_, fun turn hmem => horderly turn (hpart.mem hmem), ?_,
    hlog, hpart.filterMap _⟩
  · obtain ⟨more, hmore⟩ := hlog
    rw [← hmore] at honce
    exact honce.of_append
  · refine horderly m ?_
    rw [hhistory]
    exact List.mem_append_right _ List.mem_cons_self

/-- Of two locks on a job the later one is not taken at an earlier time. -/
theorem Reachable.locks_in_order (h : Reachable s f) (honce : s.InsertsOnce f.log)
    (horderly : f.IsOrderly scopesFixed) (hclock : f.readings.Pairwise (· ≤ ·))
    (hhistory : f.history = before ++ m :: (between ++ m' :: later))
    (hlock : m.locksAt? id = some now) (hlock' : m'.locksAt? id = some now') : now ≤ now' := by
  rw [← List.cons_append, ← List.append_assoc] at hhistory
  obtain ⟨g, s', hg, hbefore, htakes, honce, hold, hm', -, hreadings⟩ :=
    h.cut_orderly honce horderly hhistory
  obtain ⟨place, thread, row, owner, expiry, left, here, htimed, rfl, hw⟩ :=
    hg.exists_lock htakes hm' hlock'
  -- The lock is taken on the row that the task knows, so the store still has it.
  have hstill : g.store.jobs.find? row.id = some row := by
    obtain ⟨c, hc, -, -⟩ := JobTable.write_eq_ok_iff.1 hw
    generalize hrevision : row.revision = revision at hc
    cases hc with
    | @lock _ stored _ _ _ found unlocked alone =>
      have hremembers := hg.remembers honce hold
      have hreached := (hremembers.known place thread here row htimed.mem_known).reached
      have hsame := hreached.eq_of_revision found hrevision.symm
      rw [← hsame]
      exact hsame.symm ▸ found
  refine hg.lockTimes_le honce hold (hclock.sublist hreadings.sublist) here htimed hstill now ?_
  cases hbatch : m.batch? with
  | none =>
    rw [Turn.locksAt?, hbatch] at hlock
    cases hlock
  | some ws =>
    rw [Turn.locksAt?, hbatch] at hlock
    obtain ⟨w, hw, hnow⟩ := List.exists_of_findSome?_eq_some hlock
    refine List.mem_filterMap.2 ⟨w, List.mem_flatten.2 ⟨ws, ?_, hw⟩, hnow⟩
    refine List.mem_filterMap.2 ⟨m, ?_, hbatch⟩
    rw [hbefore]
    exact List.mem_append_right _ List.mem_cons_self

/-- The next lock on a job is taken after the last one has expired, if none of the calls in between
settles the job for the owner of the last one. -/
theorem Reachable.next_lock_after_expiry (h : Reachable s f) (honce : s.InsertsOnce f.log)
    (horderly : f.IsOrderly scopesFixed) (hforced : .delete id .any ∉ f.log.flatten)
    {revision : Nat} (hhistory : f.history = before ++ m :: (quiet ++ m' :: later))
    (hlock : m.batch? = some [.lock id revision owner expiry now])
    (hquiet : ∀ turn ∈ quiet, turn.locksAt? id = none ∧ turn.settles engine owner id = false)
    (hlock' : m'.locksAt? id = some now') : expiry < now' := by
  rw [← List.cons_append, ← List.append_assoc] at hhistory
  obtain ⟨g, s', hg, hbefore, htakes, honce, hold, hm', hlog, -⟩ :=
    h.cut_orderly honce horderly hhistory
  have hunforced : .delete id .any ∉ g.log.flatten := by
    obtain ⟨more, hmore⟩ := hlog
    rw [← hmore, List.flatten_append] at hforced
    exact fun hmem => hforced (List.mem_append_left _ hmem)
  have hlocked := hg.stands_since honce hold hunforced hbefore hlock hquiet
  obtain ⟨place, thread, row, owner', expiry', left, -, -, -, hw⟩ := hg.exists_lock htakes hm' hlock'
  refine Instant.not_le.1 fun hearly => ?_
  exact (hlocked.lock hearly hw).1 rfl

/-- While engines acquire, execute and settle jobs, clocks never go back, and operators do anything
but cancel the job, every lock that is taken on the job after another one is taken when that one has
expired, unless some call of the owner of that one has settled the job before the next lock on it. -/
theorem Reachable.lock_lasts_until_settled (h : Reachable s f) (honce : s.InsertsOnce f.log)
    (horderly : f.IsOrderly False) (hclock : f.readings.Pairwise (· ≤ ·))
    (hforced : .delete id .any ∉ f.log.flatten) {revision : Nat}
    (hhistory : f.history = before ++ m :: (between ++ m' :: later))
    (hlock : m.batch? = some [.lock id revision owner expiry now])
    (hsettles : ∀ turn ∈ between.takeWhile fun turn => (turn.locksAt? id).isNone,
      turn.settles engine owner id = false)
    (hlock' : m'.locksAt? id = some now') : expiry < now' := by
  have hquiet : ∀ turn ∈ between.takeWhile fun turn => (turn.locksAt? id).isNone,
      turn.locksAt? id = none ∧ turn.settles engine owner id = false := by
    intro turn hmem
    have hnone := List.mem_takeWhile_imp (p := fun turn : Turn ι ε => (turn.locksAt? id).isNone) hmem
    exact ⟨Option.isNone_iff_eq_none.1 hnone, hsettles turn hmem⟩
  have hsplit := @List.takeWhile_append_dropWhile _ (fun turn => (turn.locksAt? id).isNone) between
  cases hrest : between.dropWhile fun turn => (turn.locksAt? id).isNone with
  | nil =>
    -- No lock was taken in between.
    rw [hrest, List.append_nil] at hsplit
    rw [hsplit] at hquiet
    exact h.next_lock_after_expiry honce horderly hforced hhistory hlock hquiet hlock'
  | cons next rest =>
    rw [hrest] at hsplit
    rw [← hsplit, List.append_assoc, List.cons_append] at hhistory
    have hnext : (next.locksAt? id).isNone = false := by
      have hne : (between.dropWhile fun turn => (turn.locksAt? id).isNone) ≠ [] := by
        rw [hrest]
        exact List.cons_ne_nil _ _
      have hhead := List.head_dropWhile_not (fun turn : Turn ι ε => (turn.locksAt? id).isNone) hne
      simpa only [hrest, List.head_cons] using hhead
    obtain ⟨soon, hsoon⟩ := Option.isSome_iff_exists.1 (Option.isNone_eq_false_iff.1 hnext)
    have hexpired : expiry < soon :=
      h.next_lock_after_expiry honce horderly hforced hhistory hlock hquiet hsoon
    rw [← List.cons_append, ← List.append_assoc] at hhistory
    have hordered := h.locks_in_order honce horderly hclock hhistory hsoon hlock'
    exact Instant.lt_def.2 (Int.lt_of_lt_of_le hexpired hordered)

end History

/-! ## An engine that dispatches a job twice -/

/-- The left engine's lock on the first job has expired when it acquires again, so it locks and
dispatches the job once more.  Then the worker of the first dispatch starts and finds that the job has
changed, and the right engine acquires. -/
def relock : Fleet Engine.ofPair :=
  (start Engine.ofPair (.ofTwo (.mail "first") (.mail "second"))).play
    [.begin (.cycle true) (.acquire true 1) rfl, .call (.cycle true) 12 .early,
      .begin (.cycle true) (.acquire true 1) rfl, .call (.cycle true) 12 .late,
      .call (.worker 8) 7 .late,
      .begin (.cycle false) (.acquire false 1) rfl, .call (.cycle false) 12 .late]

theorem reachable_relock : Reachable (.ofTwo (.mail "first") (.mail "second")) relock :=
  Reachable.start.play _

theorem insertsOnce_relock : (Store.ofTwo (.mail "first") (.mail "second")).InsertsOnce relock.log := by
  unfold Store.InsertsOnce
  decide +kernel

theorem isOrderly_relock : relock.IsOrderly False := by
  refine .ofPair ?_
  decide +kernel

omit [DecidableEq ι] in
/-- The calls before, between and after two calls. -/
theorem history_split {i j : Nat} {m m' : Turn ι ε} (hij : i < j) (hi : f.history[i]? = some m)
    (hj : f.history[j]? = some m') :
    f.history = f.history.take i ++ m ::
      ((f.history.drop (i + 1)).take (j - (i + 1)) ++ m' :: f.history.drop (j + 1)) := by
  obtain ⟨hlength, rfl⟩ := List.getElem?_eq_some_iff.1 hi
  obtain ⟨hlength', rfl⟩ := List.getElem?_eq_some_iff.1 hj
  have hdrop : f.history.drop j = (f.history.drop (i + 1)).drop (j - (i + 1)) := by
    rw [List.drop_drop, Nat.add_sub_cancel' hij]
  rw [← List.drop_eq_getElem_cons hlength', hdrop, List.take_append_drop,
    ← List.drop_eq_getElem_cons hlength, List.take_append_drop]

theorem relock_after_early_expiry :
    Reachable (.ofTwo (.mail "first") (.mail "second")) relock ∧
      relock.readings.Pairwise (· ≤ ·) ∧ .delete ⟨"first"⟩ .any ∉ relock.log.flatten ∧
      relock.history[6]?.bind Turn.batch? =
        some [.lock ⟨"first"⟩ 1 (Engine.ofPair true).owner earlyExpiry .epoch] ∧
      relock.history[37]?.bind (Turn.locksAt? ⟨"first"⟩) = some Circumstances.late.now ∧
      earlyExpiry < Circumstances.late.now := by
  have hclock : relock.readings.Pairwise (· ≤ ·) := by decide +kernel
  have hforced : .delete ⟨"first"⟩ .any ∉ relock.log.flatten := by decide +kernel
  have hfirst : relock.history[6]?.bind Turn.batch? =
      some [.lock ⟨"first"⟩ 1 (Engine.ofPair true).owner earlyExpiry .epoch] := by decide +kernel
  have hlast : relock.history[37]?.bind (Turn.locksAt? ⟨"first"⟩) =
      some Circumstances.late.now := by decide +kernel
  have hsettles : (((relock.history.drop 7).take 30).takeWhile fun turn =>
      (turn.locksAt? ⟨"first"⟩).isNone).all
      (fun turn => !turn.settles Engine.ofPair (Engine.ofPair true).owner ⟨"first"⟩) = true := by
    decide +kernel
  refine ⟨reachable_relock, hclock, hforced, hfirst, hlast, ?_⟩
  obtain ⟨m, hm, hlock⟩ := Option.bind_eq_some_iff.1 hfirst
  obtain ⟨m', hm', hlock'⟩ := Option.bind_eq_some_iff.1 hlast
  refine reachable_relock.lock_lasts_until_settled insertsOnce_relock isOrderly_relock hclock hforced
    (history_split (by decide) hm hm') hlock ?_ hlock'
  intro turn hmem
  have hall := List.all_eq_true.1 hsettles turn hmem
  rwa [Bool.not_eq_true'] at hall

/-- The worker of the second dispatch has not even started, and its lock has not expired, when the
right engine takes a lock on the job. -/
theorem older_dispatch_clears_newer_lock :
    Reachable (.ofTwo (.mail "first") (.mail "second")) relock ∧
      (Function.Injective fun left => (Engine.ofPair left).owner) ∧
      (Store.ofTwo (.mail "first") (.mail "second")).InsertsOnce relock.log ∧
      relock.IsOrderly False ∧ relock.readings.Pairwise (· ≤ ·) ∧
      .delete ⟨"first"⟩ .any ∉ relock.log.flatten ∧
      relock.history[18]?.bind Turn.batch? =
        some [.lock ⟨"first"⟩ 2 (Engine.ofPair true).owner lateExpiry Circumstances.late.now] ∧
      (relock.history[20]?.bind Turn.accepted?).map (fun a => (a.1, a.2.job.id, a.2.job.lockedUntil)) =
        some (true, ⟨"first"⟩, some lateExpiry) ∧
      (relock.threads (.worker 20)).map Thread.isOver = some false ∧
      relock.history[37]?.bind Turn.batch? =
        some [.lock ⟨"first"⟩ 4 (Engine.ofPair false).owner lateExpiry Circumstances.late.now] ∧
      Circumstances.late.now ≤ lateExpiry :=
  ⟨reachable_relock, Engine.ofPair_owner_injective, insertsOnce_relock, isOrderly_relock,
    by decide +kernel, by decide +kernel, by decide +kernel, by decide +kernel, by decide +kernel,
    by decide +kernel, by decide +kernel⟩

end Fleet

end DeferredWork

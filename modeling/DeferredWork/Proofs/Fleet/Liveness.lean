import DeferredWork.Proofs.Engine.Timing
import DeferredWork.Proofs.Fleet.Holding
import DeferredWork.Proofs.Fleet.Leases
import DeferredWork.Proofs.Fleet.Record
import DeferredWork.Proofs.Routine.Play
import DeferredWork.Proofs.Store.Polling
import DeferredWork.Settings.Basic

set_option autoImplicit false

/-!
# Handlers and live locks

A worker may wait for any time before it runs its job.  When it invokes the handler, the stored row
is the one that was dispatched, locked by a cycle of its engine for the duration of the engine's
locks (`Fleet.Reachable.lock_of_run`).  So the lock is live if the worker has begun by the expiry,
and then no poll at that time offers the job
(`Fleet.Reachable.handler_runs_under_lock_of_dispatch`).

A worker that begins later invokes the handler all the same, and its writes are committed, although
the job is offered to all engines by then (`Fleet.belated_handler_runs_under_expired_lock`).
-/

namespace DeferredWork

variable {ι : Type} {ε : Type → Type} {β : Type} {engine : ι → Engine ε}

/-- To run a dispatched job reads the clock and then the stored row, if there is a handler for the
job. -/
theorem Engine.leads_runJob {engine : Engine ε} {d : Dispatched} {handler : Handler ε}
    (h : engine.handlers.resolve d.job.kind = some handler) (now : Instant) :
    ∃ next, (engine.runJob d).Leads [⟨.clock, now⟩] (.ask (.store (.get d.job.id)) next) := by
  obtain ⟨next, hread⟩ : ∃ next, Transaction.runFrom engine.limit
      (Command.executeJob d.job engine.owner handler).run { now := now } =
        .ask (.store (.get d.job.id)) next := by
    change ∃ next, Transaction.runFrom _ (.ask (.find d.job.id) _) _ = _
    rw [Transaction.runFrom]
    exact ⟨_, rfl⟩
  have hrun : (engine.transact (.executeJob d.job engine.owner handler)).Leads [⟨.clock, now⟩]
      (.ask (.store (.get d.job.id)) next) := .ask (hread ▸ .stop _)
  unfold runJob executeAndSettle execute
  rw [h]
  exact ⟨_, (((hrun.bind _).bind _).onAbort _).bind _⟩

theorem Job.hasLiveLock_iff {job : Job} {owner : Owner} {expiry now : Instant}
    (howner : job.isLockedBy owner = true) (hexpiry : job.lockedUntil = some expiry) :
    job.hasLiveLock now = true ↔ now ≤ expiry := by
  rw [isLockedBy, beq_iff_eq] at howner
  simp [hasLiveLock, howner, hexpiry]

namespace Fleet

/-- The job of a worker that has read the clock and nothing else so far, with the seat of its engine
and the time. -/
def begun? (f : Fleet engine) (p : Place ι) : Option (ι × Dispatched × Instant) :=
  match f.threads p with
  | some ⟨.run seat d, [⟨.clock, now⟩], _, _⟩ => some (seat, d, now)
  | _ => none

theorem exists_of_begun? {f : Fleet engine} {p : Place ι} {seat : ι} {d : Dispatched}
    {now : Instant} (h : f.begun? p = some (seat, d, now)) :
    ∃ thread, f.threads p = some thread ∧ thread.task = .run seat d ∧
      thread.talk = [⟨.clock, now⟩] := by
  unfold begun? at h
  split at h
  · rename_i found hfound
    cases h
    exact ⟨_, hfound, rfl, rfl⟩
  · cases h

/-- With its next call a worker of the engine at a seat finds a row, in a transaction as of an
instant, and on this row it invokes the handler of the job that was dispatched to it. -/
structure Invokes (f : Fleet engine) (seat : ι) (d : Dispatched) (handler : Handler ε) (row : Job)
    (now : Instant) : Prop where
  worker : ∃ place, f.begun? place = some (seat, d, now)
  registered : (engine seat).handlers.resolve d.job.kind = some handler
  found : f.store.get d.job.id = .ok (some row)
  goesOn : Command.Invokes d.job (engine seat).owner handler row

/-- The engine at a seat has taken a lock on a job up to an instant, for the duration of its locks
from a time that the clock has shown. -/
def HasLocked (f : Fleet engine) (seat : ι) (id : JobId) (expiry : Instant) : Prop :=
  ∃ revision, ∃ time ∈ f.readings,
    [.lock id revision (engine seat).owner expiry time] ∈ f.log ∧
      time.after? (engine seat).lockDuration = some expiry

variable {s : Store} {f : Fleet engine} {seat : ι} {d : Dispatched} {handler : Handler ε}
  {row : Job} {now : Instant} {scopesFixed : Prop}

/-- An invocation is a call that the fleet may make. -/
theorem Invokes.takes (h : f.Invokes seat d handler row now) :
    ∃ place, f.Takes ⟨place, .run seat d, ⟨.store (.get d.job.id), .ok (some row)⟩⟩ f.store := by
  obtain ⟨place, hbegun⟩ := h.worker
  obtain ⟨thread, here, htask, htalk⟩ := exists_of_begun? hbegun
  obtain ⟨next, hrun⟩ := Engine.leads_runJob h.registered now
  obtain ⟨task, talk, rest, leads⟩ := thread
  obtain rfl : task = .run seat d := htask
  obtain rfl : talk = [⟨.clock, now⟩] := htalk
  refine ⟨place, .mk here (leads.unique hrun) ?_⟩
  change f.store.respond (.get d.job.id) = _
  rw [Store.respond_get, h.found]
  rfl

variable [DecidableEq ι]

/-! ## Locks of workers -/

/-- Every lock that a cycle takes lasts for the duration of the engine's locks. -/
theorem Reachable.lastsFor (h : Reachable s f) {place : Place ι} {thread : Thread engine}
    {batch : Nat} {call : Call ε β} {next : β → Routine ε thread.task.Result} {answer : β}
    {ws : List Write} (here : f.threads place = some thread)
    (htask : thread.task = .acquire seat batch) (asks : thread.rest = .ask call next)
    (hbatch : Event.batch? (.own ⟨call, answer⟩) = some ws) :
    ∀ w ∈ ws, w.LastsFor (engine seat).lockDuration := by
  have hkeeps : (thread.task.routine engine).Keeps (engine seat).timing.rules
      (fun _ _ => True) [] := by
    rw [htask]
    exact (engine seat).keeps_timing batch
  obtain ⟨rows, hexchange⟩ := Event.batch?_own_eq_some_iff.1 hbatch
  cases hexchange
  exact h.allowed_of here hkeeps asks

/-- A lock that a cycle has in hand was taken for the duration of the engine's locks. -/
theorem Reachable.hasLocked_of_grip (h : Reachable s f) (honce : s.InsertsOnce f.log)
    (horderly : f.IsOrderly scopesFixed) {place : Place ι} {thread : Thread engine} {batch : Nat}
    (here : f.threads place = some thread) (htask : thread.task = .acquire seat batch)
    {earlier : List (Exchange (Call ε))} (hearlier : earlier ⊆ thread.talk) {grant : Grant}
    (hlock : (Grip.ofCycle earlier).lock = some grant) :
    f.HasLocked seat grant.id grant.expiry := by
  obtain ⟨exchange, hmem, ws, hbatch, hgrant⟩ := Grip.exists_taken hlock
  -- The call that took the lock is on the record, and it was made in the same cycle.
  have hrecorded := h.recorded here (hearlier hmem)
  have hlogged : ws ∈ f.log := List.mem_filterMap.2 ⟨_, hrecorded, hbatch⟩
  obtain ⟨before, after, hhistory⟩ := List.append_of_mem hrecorded
  obtain ⟨g, s', hg, -, htakes, -, -, horderly', -, hreadings⟩ :=
    h.cut_orderly honce horderly hhistory
  generalize hturn : (⟨place, thread.task, exchange⟩ : Turn ι ε) = turn at htakes
  cases htakes with
  | @mk there caller _ call next answer _ hthere asks replies =>
    obtain ⟨rfl, hsame, rfl⟩ := Turn.mk.inj hturn
    have htask' : caller.task = .acquire seat batch := hsame.symm.trans htask
    rw [hsame] at horderly'
    obtain ⟨k, row, time, hlocks⟩ := hg.locks hthere asks replies horderly' hbatch hgrant
    obtain ⟨_, hcycle⟩ := hlocks.task
    rw [htask'] at hcycle
    cases hcycle
    have hlasts := hg.lastsFor hthere htask' asks hbatch
    rw [hlocks.batch] at hlogged hlasts
    exact ⟨row.revision, time, hreadings.mem (hg.mem_readings hthere hlocks.timed.mem_talk),
      hlogged, hlasts _ (List.mem_singleton_self _)⟩

/-- The job of a worker carries the lock that a cycle of its engine took, for the duration of the
engine's locks. -/
theorem Reachable.lock_of_run (h : Reachable s f)
    (howners : Function.Injective fun seat => (engine seat).owner) (honce : s.InsertsOnce f.log)
    (horderly : f.IsOrderly scopesFixed) {place : Place ι} {thread : Thread engine}
    (here : f.threads place = some thread) (htask : thread.task = .run seat d) :
    ∃ expiry, d.job.lockedUntil = some expiry ∧ f.HasLocked seat d.job.id expiry := by
  obtain ⟨g, cycle, batch, since, hg, hhistory, -, hthere, hacquires, hdispatches⟩ :=
    h.dispatched here htask
  have hearlier : g.history <+: f.history := hhistory ▸ List.prefix_append _ _
  have hlog : g.log <+: f.log := hearlier.filterMap _
  have honce' : s.InsertsOnce g.log := by
    obtain ⟨more, hmore⟩ := hlog
    rw [← hmore] at honce
    exact honce.of_append
  have horderly' : g.IsOrderly scopesFixed := fun turn hmem => horderly turn (hearlier.mem hmem)
  generalize htalk : cycle.talk = talk at hdispatches
  cases hdispatches with
  | @reread earlier row expiry _ holds named owned carried =>
    have hgrip : cycle.grip.lock = some ⟨d.job.id, expiry⟩ := by
      rw [Thread.grip, hacquires, htalk, named, ← holds.lock]
      exact congrArg Grip.lock (Grip.through_append_singleton _ _ _)
    obtain ⟨revision, time, htime, hlogged, hafter⟩ := hg.hasLocked_of_grip honce' horderly' hthere
      hacquires (htalk ▸ List.subset_append_left _ _) holds.lock
    rw [← named] at hlogged
    refine ⟨expiry, ?_, revision, time, (hearlier.filterMap _).mem htime, hlog.mem hlogged, hafter⟩
    refine (hg.knowsLocks howners honce' horderly').reread hthere ?_ htalk hgrip owned
    rw [hacquires]
    rfl

/-! ## Handlers -/

/-- A handler is invoked on the row that was dispatched, which is stored and carries a lock that the
worker's engine took for the duration of its locks.  The lock is live unless the worker has begun
after its expiry, and as long as it is live no poll offers the job. -/
theorem Reachable.handler_runs_under_lock_of_dispatch (h : Reachable s f)
    (howners : Function.Injective fun seat => (engine seat).owner) (honce : s.InsertsOnce f.log)
    (horderly : f.IsOrderly scopesFixed) (hinvokes : f.Invokes seat d handler row now) :
    row = d.job ∧ f.store.jobs.find? d.job.id = some row ∧
      row.isLockedBy (engine seat).owner = true ∧
      ∃ expiry, row.lockedUntil = some expiry ∧ f.HasLocked seat d.job.id expiry ∧
        (row.hasLiveLock now = true ↔ now ≤ expiry) ∧
        (now ≤ expiry → ∀ limit job, f.store.Offers now limit job → job.id ≠ d.job.id) := by
  obtain ⟨place, hbegun⟩ := hinvokes.worker
  obtain ⟨thread, here, htask, -⟩ := exists_of_begun? hbegun
  obtain ⟨hrevision, howned⟩ := Command.invokes_iff.1 hinvokes.goesOn
  have hstored : f.store.jobs.find? d.job.id = some row := Store.find?_of_get hinvokes.found
  have hknown : d.job ∈ thread.known := by
    rw [Thread.known, htask]
    exact List.mem_append_left _ (List.mem_singleton_self _)
  have hsame : row = d.job :=
    (h.pins honce here d.job hknown).reached.eq_of_revision hstored hrevision
  obtain ⟨expiry, hexpiry, hlocked⟩ := h.lock_of_run howners honce horderly here htask
  rw [← hsame] at hexpiry
  have hlive : row.hasLiveLock now = true ↔ now ≤ expiry := Job.hasLiveLock_iff howned hexpiry
  refine ⟨hsame, hstored, howned, expiry, hexpiry, hlocked, hlive, ?_⟩
  intro hearly limit job hoffers hname
  obtain ⟨hmem, hacquirable⟩ := hoffers.acquirable
  have hfound := JobTable.find?_eq_some_of_mem hmem
  rw [hname, hstored] at hfound
  cases hfound
  simp [Job.isAcquirable, hlive.2 hearly] at hacquirable

end Fleet

/-! ## A worker that waits -/

/-- Settings with the lock duration and the limit of the pair of engines. -/
def Settings.ofPair : Settings :=
  { Settings.default with lockDuration := .ofMillis 5, limit := .ofMillis 1 }

/-- The settings of the pair keep the rules; shares are numbers in floating point. -/
theorem Settings.validate_ofPair (hjitter : isShare ofPair.retryPolicy.jitter = true)
    (hlowWater : isShare ofPair.backpressure.lowWater = true) : ofPair.validate = .ok () := by
  have hflaw : ofPair.flaw? = none := by
    unfold flaw?
    rw [hjitter, hlowWater]
    decide +kernel
  rw [validate, hflaw]

namespace Fleet

/-- The left engine has dispatched the first job at the start of 1970, and its worker begins. -/
def begun (c : Circumstances) : Fleet Engine.ofPair :=
  (start Engine.ofPair (.ofTwo (.mail "first") (.mail "second"))).play
    [.begin (.cycle true) (.acquire true 1) rfl, .call (.cycle true) 12 .early,
      .call (.worker 8) 1 c]

theorem reachable_begun (c : Circumstances) :
    Reachable (.ofTwo (.mail "first") (.mail "second")) (begun c) :=
  Reachable.start.play _

theorem punctual_handler_runs_under_live_lock :
    Reachable (.ofTwo (.mail "first") (.mail "second")) (begun .early) ∧
      (Function.Injective fun left => (Engine.ofPair left).owner) ∧
      (Store.ofTwo (.mail "first") (.mail "second")).InsertsOnce (begun .early).log ∧
      (begun .early).IsOrderly True ∧
      (begun .early).Invokes true ⟨.lockedMail, none⟩ .idle .lockedMail .epoch ∧
      Job.lockedMail.hasLiveLock .epoch = true ∧
      ∀ limit job, (begun .early).store.Offers .epoch limit job → job.id ≠ ⟨"first"⟩ := by
  have honce : (Store.ofTwo (.mail "first") (.mail "second")).InsertsOnce (begun .early).log := by
    unfold Store.InsertsOnce
    decide +kernel
  have horderly : (begun .early).IsOrderly True := by
    refine .ofPair ?_
    decide +kernel
  have hinvokes : (begun .early).Invokes true ⟨.lockedMail, none⟩ .idle .lockedMail .epoch := by
    refine ⟨⟨.worker 8, ?_⟩, rfl, ?_, Command.invokes_iff.2 ⟨rfl, rfl⟩⟩
    · decide +kernel
    · decide +kernel
  obtain ⟨-, -, -, expiry, hexpiry, -, hlive, hoffers⟩ :=
    (reachable_begun .early).handler_runs_under_lock_of_dispatch Engine.ofPair_owner_injective honce
      horderly hinvokes
  obtain rfl : earlyExpiry = expiry := Option.some.inj hexpiry
  have hearly : Instant.epoch ≤ earlyExpiry := by decide +kernel
  exact ⟨reachable_begun .early, Engine.ofPair_owner_injective, honce, horderly, hinvokes,
    hlive.2 hearly, hoffers hearly⟩

/-- With the settings of the pair the worker of the first job begins when the lock on the job has
expired.  It invokes the handler, although the job is offered to all engines at that time, and what
comes of it is committed. -/
theorem belated_handler_runs_under_expired_lock :
    ((Settings.isShare Settings.ofPair.retryPolicy.jitter = true →
        Settings.isShare Settings.ofPair.backpressure.lowWater = true →
        Settings.ofPair.validate = .ok ()) ∧
      ∀ left, (Engine.ofPair left).lockDuration = Settings.ofPair.lockDuration ∧
        (Engine.ofPair left).limit = Settings.ofPair.limit) ∧
    Reachable (.ofTwo (.mail "first") (.mail "second")) (begun .late) ∧
      (Function.Injective fun left => (Engine.ofPair left).owner) ∧
      (Store.ofTwo (.mail "first") (.mail "second")).InsertsOnce (begun .late).log ∧
      (begun .late).IsOrderly True ∧ (begun .late).readings.Pairwise (· ≤ ·) ∧
      (begun .late).Invokes true ⟨.lockedMail, none⟩ .idle .lockedMail Circumstances.late.now ∧
      Job.lockedMail.hasLiveLock Circumstances.late.now = false ∧
      (begun .late).store.Offers Circumstances.late.now 2 .lockedMail ∧
      ((begun .late).play [.call (.worker 8) 2 .late]).store.jobs.find? ⟨"first"⟩ = none := by
  have honce : (Store.ofTwo (.mail "first") (.mail "second")).InsertsOnce (begun .late).log := by
    unfold Store.InsertsOnce
    decide +kernel
  have horderly : (begun .late).IsOrderly True := by
    refine .ofPair ?_
    decide +kernel
  have hinvokes : (begun .late).Invokes true ⟨.lockedMail, none⟩ .idle .lockedMail
      Circumstances.late.now := by
    refine ⟨⟨.worker 8, ?_⟩, rfl, ?_, Command.invokes_iff.2 ⟨rfl, rfl⟩⟩
    · decide +kernel
    · decide +kernel
  have hoffers : (begun .late).store.Offers Circumstances.late.now 2 .lockedMail := by
    have hroom : (begun .late).store.jobs.rows.length ≤ 2 := by decide +kernel
    refine (Store.offers_iff (by decide +kernel)).2 ((JobTable.mem_poll_iff hroom).2 ?_)
    decide +kernel
  exact ⟨⟨Settings.validate_ofPair, fun _ => ⟨rfl, rfl⟩⟩, reachable_begun .late,
    Engine.ofPair_owner_injective, honce, horderly, by decide +kernel, hinvokes, by decide +kernel,
    hoffers, by decide +kernel⟩

end Fleet

end DeferredWork

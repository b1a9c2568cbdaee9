import DeferredWork.Proofs.Shift.Basic
import DeferredWork.Proofs.Store.Incidents
import DeferredWork.Store.Report

set_option autoImplicit false

/-!
# Parked jobs and open incidents

In a shift with handlers that stage nothing, each parked job has an open incident, unless it recurs
and starts each run without retries (`Shift.Reachable.parked_job_has_open_incident`): the next run
of such a job is stored without any incident (`Shift.next_run_parked_without_incident`).  If
moreover only dispatched jobs are run, no job with an open incident is cancelled, and no name is
inserted twice, then each open incident is one of a parked job and is resolved by giving the job
retries again (`Shift.Reachable.open_incident_can_be_resolved`).  To cancel a parked job leaves its
incident open (`Shift.incident_outlives_cancelled_job`).
-/

namespace DeferredWork

open Relation

variable {ι : Type} {ε : Type → Type}

/-! ## What deeds keep -/

namespace Contents

/-- Each parked job has an open incident, or recurs and starts each run without retries. -/
def IsTended (c : Contents) : Prop :=
  ∀ id row, c.jobs.find? id = some row → row.isParked = true →
    id ∈ Incident.openJobs c.incidents ∨
      row.interval.isSome = true ∧ row.retriesPerRun = 0

/-- No job has two open incidents, and each job that has one is stored and parked. -/
structure IsAccurate (c : Contents) : Prop where
  nodup : (Incident.openJobs c.incidents).Nodup
  parked : ∀ id ∈ Incident.openJobs c.incidents,
    ∃ row, c.jobs.find? id = some row ∧ row.isParked = true

/-- The job has no open incident. -/
def HasNoIncident (c : Contents) (id : JobId) : Prop := id ∉ Incident.openJobs c.incidents

/-- A job with an open incident stays so if a row of another name is stored. -/
theorem IsAccurate.parked_put {c : Contents} (h : c.IsAccurate) {row : Job} {id : JobId}
    (hmem : id ∈ Incident.openJobs c.incidents) (hname : row.id ≠ id) :
    ∃ found, (c.put row).jobs.find? id = some found ∧ found.isParked = true := by
  obtain ⟨found, hfound, hparked⟩ := h.parked id hmem
  exact ⟨found, (find?_put_of_ne hname).trans hfound, hparked⟩

/-- The open incidents stay accurate if a job without any is deleted. -/
theorem IsAccurate.erase {c : Contents} (h : c.IsAccurate) {id : JobId}
    (may : c.HasNoIncident id) : (c.erase id).IsAccurate := by
  refine ⟨h.nodup, fun k hmem => ?_⟩
  obtain ⟨found, hfound, hparked⟩ := h.parked k hmem
  refine ⟨found, (find?_erase_of_ne ?_).trans hfound, hparked⟩
  rintro rfl
  exact may hmem

/-- The open incidents stay accurate if a job is stored under a free name. -/
theorem IsAccurate.put {c : Contents} (h : c.IsAccurate) {row : Job}
    (free : c.jobs.find? row.id = none) : (c.put row).IsAccurate := by
  refine ⟨h.nodup, fun id hmem => h.parked_put hmem ?_⟩
  rintro rfl
  obtain ⟨found, hfound, -⟩ := h.parked _ hmem
  rw [free] at hfound
  cases hfound

end Contents

/-- No more incidents are open than jobs are parked. -/
theorem Contents.IsAccurate.countP_le {c : Contents} (h : c.IsAccurate) :
    c.incidents.countP Incident.isOpen ≤ c.jobs.rows.countP Job.isParked := by
  have hsub : Incident.openJobs c.incidents ⊆ (c.jobs.rows.filter Job.isParked).map Job.id := by
    intro id hmem
    obtain ⟨row, hrow, hparked⟩ := h.parked id hmem
    obtain ⟨hstored, rfl⟩ := JobTable.find?_eq_some_iff.1 hrow
    exact List.mem_map_of_mem (List.mem_filter.2 ⟨hstored, hparked⟩)
  have hle := (List.subperm_of_subset h.nodup hsub).length_le
  rwa [Incident.length_openJobs, List.length_map, ← List.countP_eq_length_filter] at hle

namespace Deed

variable {removable : Contents → JobId → Prop} {c c' : Contents}

theorem isTended (h : Deed removable c c') (hc : c.IsTended) : c'.IsTended := by
  intro id found hfound hparked
  cases h with
  | rewrite rewrites =>
    cases rewrites with
    | @mk before row stored like =>
      rcases Contents.find?_put_cases hfound with ⟨rfl, rfl⟩ | ⟨-, hbefore⟩
      · rw [like.interval, like.perRun]
        exact hc _ before stored (like.parked ▸ hparked)
      · exact hc id found hbefore hparked
  | store free active =>
    rcases Contents.find?_put_cases hfound with ⟨rfl, rfl⟩ | ⟨-, hbefore⟩
    · rw [active] at hparked
      cases hparked
    · exact hc id found hbefore hparked
  | @park row incident parked isOpen named =>
    rw [Contents.raise, Incident.mem_openJobs_raiseAmong isOpen]
    rcases Contents.find?_put_cases hfound with ⟨rfl, rfl⟩ | ⟨-, hbefore⟩
    · exact .inl (.inr named.symm)
    · exact (hc id found hbefore hparked).imp_left .inl
  | @renew row now active =>
    rw [Contents.resolve, Incident.openJobs_resolveAmong, List.mem_filter]
    rcases Contents.find?_put_cases hfound with ⟨rfl, rfl⟩ | ⟨hname, hbefore⟩
    · rw [active] at hparked
      cases hparked
    · exact (hc id found hbefore hparked).imp_left fun hmem => ⟨hmem, bne_iff_ne.2 (Ne.symm hname)⟩
  | remove may =>
    exact hc id found (Contents.find?_of_find?_erase hfound) hparked
  | @replace _ next may recurs fresh free =>
    rcases Contents.find?_put_cases hfound with ⟨rfl, rfl⟩ | ⟨-, hbefore⟩
    · exact .inr ⟨recurs, fresh ▸ beq_iff_eq.1 hparked⟩
    · exact hc id found (Contents.find?_of_find?_erase hbefore) hparked

theorem isTended_of_deeds (h : ReflTransGen (Deed removable) c c') (hc : c.IsTended) :
    c'.IsTended := by
  induction h with
  | refl => exact hc
  | tail _ deed ih => exact deed.isTended ih

/-- A deed that deletes no job with an open incident keeps the open incidents accurate. -/
theorem isAccurate (h : Deed Contents.HasNoIncident c c') (hc : c.IsAccurate) : c'.IsAccurate := by
  cases h with
  | rewrite rewrites =>
    cases rewrites with
    | @mk before row stored like =>
      refine ⟨hc.nodup, fun id hmem => ?_⟩
      by_cases hname : row.id = id
      · subst hname
        obtain ⟨found, hfound, hparked⟩ := hc.parked _ hmem
        rw [stored] at hfound
        obtain rfl := Option.some.inj hfound
        exact ⟨row, c.find?_put_self row, like.parked.trans hparked⟩
      · exact hc.parked_put hmem hname
  | store free active => exact hc.put free
  | @park row incident parked isOpen named =>
    refine ⟨Incident.nodup_openJobs_raiseAmong isOpen hc.nodup, fun id hmem => ?_⟩
    by_cases hname : row.id = id
    · subst hname
      exact ⟨row, c.find?_put_self row, parked⟩
    · refine hc.parked_put ?_ hname
      refine ((Incident.mem_openJobs_raiseAmong isOpen).1 hmem).resolve_right ?_
      rintro rfl
      exact hname named.symm
  | @renew row now active =>
    have hjobs := Incident.openJobs_resolveAmong row.id now c.incidents
    constructor
    · exact hjobs ▸ hc.nodup.filter _
    · intro id hmem
      obtain ⟨hbefore, hname⟩ := List.mem_filter.1 (hjobs ▸ hmem)
      exact hc.parked_put hbefore (Ne.symm (bne_iff_ne.1 hname))
  | remove may => exact hc.erase may
  | replace may recurs fresh free => exact (hc.erase may).put free

theorem isAccurate_of_deeds (h : ReflTransGen (Deed Contents.HasNoIncident) c c')
    (hc : c.IsAccurate) : c'.IsAccurate := by
  induction h with
  | refl => exact hc
  | tail _ deed ih => exact deed.isAccurate ih

end Deed

/-! ## Parked jobs -/

namespace Shift

variable {engine : ι → Engine ε} {w : Shift ι ε}

theorem Reachable.isTended (h : w.Reachable engine fun _ task => task.isNamed = true)
    (hquiet : ∀ seat kind handler, (engine seat).handlers.resolve kind = some handler →
      handler.StagesNothing) : w.store.contents.IsTended := by
  induction h with
  | start => exact fun id row hrow => nomatch hrow
  | @work w task trace s' r' h allowed runs alone ended ih =>
    have hspares : task.Spares (fun _ _ => True) w.store.contents := by
      cases task with
      | run seat d => exact fun _ _ _ => trivial
      | transact limit command => cases allowed
      | _ => trivial
    exact Deed.isTended_of_deeds (deeds_of_runs runs alone ended hspares hquiet) ih

/-- **A parked job has an open incident.**  In a shift of acquisition cycles, of executions whose
handlers stage nothing, and of operators who schedule, cancel, suspend and activate jobs and set
their retries, each parked job has an open incident, unless it recurs and starts each run without
retries. -/
theorem Reachable.parked_job_has_open_incident
    (h : w.Reachable engine fun _ task => task.isNamed = true)
    (hquiet : ∀ seat kind handler, (engine seat).handlers.resolve kind = some handler →
      handler.StagesNothing) {job : Job} (hjob : job ∈ w.store.jobs.rows)
    (hparked : job.isParked = true) :
    (∃ i ∈ w.store.incidents, i.isOpen = true ∧ i.jobId = job.id) ∨
      job.interval.isSome = true ∧ job.retriesPerRun = 0 :=
  (h.isTended hquiet job.id job (JobTable.find?_eq_some_of_mem hjob) hparked).imp_left
    Incident.mem_openJobs.1

/-- A job for which there is no handler, with one retry. -/
def unanswered : Job := { Job.new ⟨"first"⟩ "call" .epoch with retries := 1 }

/-- A job is scheduled and dispatched, and its execution fails. -/
def escalation : Shift Bool fun _ => Empty :=
  ((start.work Engine.ofPair .early (.schedule ⟨.ofMillis 1, 3⟩ unanswered)).work Engine.ofPair
    .early (.acquire true 1)).work Engine.ofPair .early
      (.run true ⟨{ unanswered.lockedBy (Engine.ofPair true).owner earlyExpiry with revision := 2 },
        none⟩)

theorem failed_job_has_open_incident :
    ∃ job ∈ escalation.store.jobs.rows, job.isParked = true ∧ job.interval.isSome = false ∧
      ((∃ i ∈ escalation.store.incidents, i.isOpen = true ∧ i.jobId = job.id) ∨
        job.interval.isSome = true ∧ job.retriesPerRun = 0) := by
  have hreachable : escalation.Reachable Engine.ofPair fun _ task => task.isNamed = true :=
    ((Reachable.start.play .early rfl (by decide +kernel)).play .early rfl
      (by decide +kernel)).play .early rfl (by decide +kernel)
  have hparked : ∃ job ∈ escalation.store.jobs.rows,
      job.isParked = true ∧ job.interval.isSome = false := by
    decide +kernel
  obtain ⟨job, hjob, hparked, honce⟩ := hparked
  exact ⟨job, hjob, hparked, honce, hreachable.parked_job_has_open_incident
    (fun _ _ _ => Engine.stagesNothing_ofPair) hjob hparked⟩

/-- A recurring job for which no retries are configured, and which has none. -/
def unretried : Job :=
  { (Job.new ⟨"first"⟩ "mail" .epoch).withRetries 0 with interval := some (.ofMillis 1) }

/-- A recurring job for which no retries are configured is scheduled.  An operator gives it one
retry; it is dispatched and executed. -/
def overtime : Shift Bool fun _ => Empty :=
  (((start.work Engine.ofPair .early (.schedule ⟨.ofMillis 1, 3⟩ unretried)).work Engine.ofPair
    .early (.setRetries ⟨.ofMillis 1, 3⟩ ⟨"first"⟩ 1)).work Engine.ofPair .early
      (.acquire true 1)).work Engine.ofPair .early
        (.run true ⟨{ unretried.lockedBy (Engine.ofPair true).owner earlyExpiry with
          retries := 1, revision := 3 }, none⟩)

/-- The next run starts with the retries that are configured, which are none, but nobody raises an
incident for it. -/
theorem next_run_parked_without_incident :
    (overtime.Reachable Engine.ofPair fun _ task => task.isNamed = true) ∧
      (∀ left kind handler, (Engine.ofPair left).handlers.resolve kind = some handler →
        handler.StagesNothing) ∧
      ∃ job ∈ overtime.store.jobs.rows, job.isParked = true ∧
        ∀ i ∈ overtime.store.incidents, i.isOpen = true → i.jobId ≠ job.id :=
  ⟨(((Reachable.start.play .early rfl (by decide +kernel)).play .early rfl
      (by decide +kernel)).play .early rfl (by decide +kernel)).play .early rfl (by decide +kernel),
    fun _ _ _ => Engine.stagesNothing_ofPair, by decide +kernel⟩

/-! ## Open incidents -/

/-- The task runs only what was dispatched, cancels no job with an open incident, and is no command
without a name. -/
def IsCareful (w : Shift ι ε) : Task ι ε → Prop
  | .run seat d => (seat, d) ∈ w.dispatched
  | .cancel _ id => ∀ i ∈ w.store.incidents, i.isOpen = true → i.jobId ≠ id
  | .transact _ _ => False
  | _ => True

theorem Reachable.isAccurate (h : w.Reachable engine IsCareful)
    (hquiet : ∀ seat kind handler, (engine seat).handlers.resolve kind = some handler →
      handler.StagesNothing) (honce : Store.empty.InsertsOnce w.log) :
    w.store.contents.IsAccurate := by
  induction h with
  | start => exact ⟨List.nodup_nil, fun id hmem => nomatch hmem⟩
  | @work w task trace s' r' h allowed runs alone ended ih =>
    rw [log_snoc] at honce
    have haccurate := ih honce.of_append
    have hspares : task.Spares Contents.HasNoIncident w.store.contents := by
      cases task with
      | run seat d =>
        intro row hrow hcurrent hopen
        obtain ⟨hrecalls, hactive⟩ := h.recalls honce.of_append allowed
        -- The row that is stored is the one that was dispatched.
        obtain rfl := hrecalls.reached.eq_of_revision hrow hcurrent
        obtain ⟨found, hfound, hparked⟩ := haccurate.parked _ hopen
        rw [hrow] at hfound
        rw [← Option.some.inj hfound, hactive] at hparked
        cases hparked
      | cancel operator id =>
        intro hopen
        obtain ⟨i, hi, hisOpen, hname⟩ := Incident.mem_openJobs.1 hopen
        exact allowed i hi hisOpen hname
      | transact limit command => exact allowed.elim
      | _ => trivial
    exact Deed.isAccurate_of_deeds (deeds_of_runs runs alone ended hspares hquiet) haccurate

end Shift

/-- To give a parked job retries again resolves its incident. -/
theorem Job.Resets.not_mem_openJobs {row : Job} {retries : Nat} {incidents left : List Incident}
    (h : row.Resets retries incidents left) (hparked : row.isParked = true)
    (hretries : 0 < retries) : row.id ∉ Incident.openJobs left := by
  cases h with
  | renewed now parked renews =>
    rw [Incident.openJobs_resolveAmong, List.mem_filter]
    exact fun hmem => bne_iff_ne.1 hmem.2 rfl
  | parked id now active used =>
    rw [hparked] at active
    cases active
  | same like =>
    rw [hparked] at like
    exact absurd (beq_iff_eq.1 like.symm) (Nat.ne_of_gt hretries)

/-- An operator who gives the job retries again succeeds while the store is in reach, and leaves no
open incident of the job. -/
def Store.IsRenewable (ε : Type → Type) (s : Store) (id : JobId) : Prop :=
  ∀ (operator : Operator) (retries : Nat), operator.limit ≠ .zero → 0 < retries →
    s.available = true →
      Routine.Achieves (operator.setRetries (ε := ε) id retries) s fun result s' =>
        (∃ changed, result = .ok changed) ∧ ∀ i ∈ s'.incidents, i.isOpen = true → i.jobId ≠ id

/-- A parked job can be given retries again, which resolves its incident. -/
theorem Store.isRenewable_of_parked {s : Store} {id : JobId} {job : Job}
    (hjob : s.jobs.find? id = some job) (hparked : job.isParked = true) : s.IsRenewable ε id := by
  intro operator retries hlimit hretries havailable
  refine ((operator.ensures_setRetries id retries).achieves havailable).mono ?_
  intro result s' hupdates
  generalize hleft : s'.contents = left at hupdates
  cases hupdates with
  | @done row incidents stored goes =>
    obtain rfl := Option.some.inj (hjob.symm.trans stored)
    obtain rfl := JobTable.id_of_find? hjob
    refine ⟨⟨_, rfl⟩, ?_⟩
    have hincidents : s'.incidents = incidents := congrArg Contents.incidents hleft
    rw [hincidents]
    intro i hi hopen hname
    exact goes.not_mem_openJobs hparked hretries (Incident.mem_openJobs.2 ⟨i, hi, hopen, hname⟩)
  | missing none => cases hjob.symm.trans none
  | hindered hindered => exact (hindered.resolve_left hlimit).elim

namespace Shift

variable {engine : ι → Engine ε} {w : Shift ι ε}

/-- **An open incident can be acted on.**  In a shift in which handlers stage nothing, only
dispatched jobs are run, no job with an open incident is cancelled, and no name is inserted twice,
each open incident is one of a stored job that is parked, and to give this job retries again
resolves it.  So no more incidents are open than jobs are parked. -/
theorem Reachable.open_incident_can_be_resolved (h : w.Reachable engine IsCareful)
    (hquiet : ∀ seat kind handler, (engine seat).handlers.resolve kind = some handler →
      handler.StagesNothing) (honce : Store.empty.InsertsOnce w.log) :
    (∀ i ∈ w.store.incidents, i.isOpen = true → ∃ job, w.store.jobs.find? i.jobId = some job ∧
      job.isParked = true ∧ w.store.IsRenewable ε i.jobId) ∧
    ∀ now stats, w.store.stats now = .ok stats → stats.openIncidents ≤ stats.withIncident := by
  have haccurate := h.isAccurate hquiet honce
  constructor
  · intro i hi hopen
    obtain ⟨job, hjob, hparked⟩ :=
      haccurate.parked i.jobId (Incident.mem_openJobs.2 ⟨i, hi, hopen, rfl⟩)
    exact ⟨job, hjob, hparked, Store.isRenewable_of_parked hjob hparked⟩
  · intro now stats hstats
    rw [Store.stats, Store.answer] at hstats
    split at hstats
    · cases hstats
      exact haccurate.countP_le
    · cases hstats

theorem incident_of_failed_job_can_be_resolved :
    escalation.store.incidents.map Incident.jobId = [⟨"first"⟩] ∧
      (∀ i ∈ escalation.store.incidents, i.isOpen = true → ∃ job,
        escalation.store.jobs.find? i.jobId = some job ∧ job.isParked = true ∧
        escalation.store.IsRenewable (fun _ => Empty) i.jobId) ∧
      ∀ now stats, escalation.store.stats now = .ok stats →
        stats.openIncidents ≤ stats.withIncident := by
  have hreachable : escalation.Reachable Engine.ofPair IsCareful := by
    refine ((Reachable.start.play .early trivial (by decide +kernel)).play .early trivial
      (by decide +kernel)).play .early ?_ (by decide +kernel)
    rw [IsCareful]
    decide +kernel
  have honce : Store.empty.InsertsOnce escalation.log := by
    unfold Store.InsertsOnce
    decide +kernel
  exact ⟨by decide +kernel, hreachable.open_incident_can_be_resolved
    (fun _ _ _ => Engine.stagesNothing_ofPair) honce⟩

/-- A parked job is scheduled and cancelled. -/
def withdrawal : Shift Bool fun _ => Empty :=
  (start.work Engine.ofPair .early (.schedule ⟨.ofMillis 1, 3⟩ unretried)).work Engine.ofPair .early
    (.cancel ⟨.ofMillis 1, 3⟩ ⟨"first"⟩)

/-- The job is gone, but its incident stays open. -/
theorem incident_outlives_cancelled_job :
    (withdrawal.Reachable Engine.ofPair fun _ task => task.isNamed = true) ∧
      (∀ left kind handler, (Engine.ofPair left).handlers.resolve kind = some handler →
        handler.StagesNothing) ∧
      Store.empty.InsertsOnce withdrawal.log ∧ withdrawal.dispatched = [] ∧
      (∃ i ∈ withdrawal.store.incidents, i.isOpen = true ∧
        withdrawal.store.jobs.find? i.jobId = none) ∧
      ¬ ∀ now stats, withdrawal.store.stats now = .ok stats →
        stats.openIncidents ≤ stats.withIncident := by
  have honce : Store.empty.InsertsOnce withdrawal.log := by
    unfold Store.InsertsOnce
    decide +kernel
  refine ⟨(Reachable.start.play .early rfl (by decide +kernel)).play .early rfl (by decide +kernel),
    fun _ _ _ => Engine.stagesNothing_ofPair, honce, by decide +kernel, by decide +kernel, ?_⟩
  intro hstats
  have hle := hstats .epoch ⟨0, 0, 0, 0, 0, 0, 1⟩ (by decide +kernel)
  exact absurd hle (by decide)

end Shift

end DeferredWork

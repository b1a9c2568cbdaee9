import Mathlib.Logic.Relation
import DeferredWork.Engine.Acquisition
import DeferredWork.Proofs.Cluster.Fairness
import DeferredWork.Proofs.Engine.Progress
import DeferredWork.Proofs.Fleet.Basic
import DeferredWork.Proofs.Operator.Leaving

set_option autoImplicit false

/-!
# What tasks do to jobs and incidents

Seen from afar, engines and operators do few things to the jobs and incidents: they write a job
again without a change to whether it needs an operator, store one that needs none, park one with an
incident, give a parked one retries again and resolve its incident, delete a job, or replace it by
its next run (`Deed`).  A task that is alone with the store, with handlers that stage nothing, does
nothing else (`Task.ensures_deeds`).  So what all deeds keep, all such tasks keep.
-/

namespace DeferredWork

open Relation

variable {ι : Type} {ε : Type → Type} {α : Type}

/-! ## Deeds -/

/-- A row is parked if the other is, and recurs like the other. -/
structure Job.StandsLike (row before : Job) : Prop where
  parked : row.isParked = before.isParked
  interval : row.interval = before.interval
  perRun : row.retriesPerRun = before.retriesPerRun

/-- A stored row is written again, and stands as before. -/
inductive Contents.Rewrites (c : Contents) : Contents → Prop
  | mk {before row : Job} (stored : c.jobs.find? row.id = some before)
      (like : row.StandsLike before) : Rewrites c (c.put row)

/-- One thing that is done to the jobs and incidents.  Only what is removable is deleted. -/
inductive Deed (removable : Contents → JobId → Prop) (c : Contents) : Contents → Prop
  | rewrite {c' : Contents} (rewrites : c.Rewrites c') : Deed removable c c'
  | store {row : Job} (free : c.jobs.find? row.id = none) (active : row.isParked = false) :
      Deed removable c (c.put row)
  | park {row : Job} {incident : Incident} (parked : row.isParked = true)
      (isOpen : incident.isOpen = true) (named : incident.jobId = row.id) :
      Deed removable c ((c.put row).raise incident)
  | renew {row : Job} (now : Instant) (active : row.isParked = false) :
      Deed removable c ((c.put row).resolve row.id now)
  | remove {id : JobId} (may : removable c id) : Deed removable c (c.erase id)
  | replace {id : JobId} {next : Job} (may : removable c id) (recurs : next.interval.isSome = true)
      (fresh : next.retries = next.retriesPerRun)
      (free : (c.erase id).jobs.find? next.id = none) : Deed removable c ((c.erase id).put next)

/-- The job of this name needs no operator. -/
def Contents.IsActive (c : Contents) (id : JobId) : Prop :=
  ∀ row, c.jobs.find? id = some row → row.isParked = false

namespace Contents

variable {c c' : Contents}

theorem Rewrites.isActive {id : JobId} (h : c.Rewrites c') (hactive : c.IsActive id) :
    c'.IsActive id := by
  intro found hfound
  cases h with
  | @mk before row stored like =>
    rcases find?_put_cases hfound with ⟨rfl, rfl⟩ | ⟨-, hbefore⟩
    · exact like.parked.trans (hactive before stored)
    · exact hactive found hbefore

theorem isActive_of_reflTransGen {id : JobId} (h : ReflTransGen Rewrites c c')
    (hactive : c.IsActive id) : c'.IsActive id := by
  induction h with
  | refl => exact hactive
  | tail _ hrewrites ih => exact hrewrites.isActive ih

/-- A job that is due has retries left. -/
theorem isActive_of_mem_poll {job : Job} {now : Instant} {limit : Nat}
    (h : job ∈ c.jobs.poll now limit) : c.IsActive job.id := by
  have heligible := (List.mergeSort_perm _ _).mem_iff.1 (List.mem_of_mem_take h)
  rw [List.mem_filter] at heligible
  obtain ⟨hmem, heligible⟩ := heligible
  intro row hrow
  obtain rfl := Option.some.inj ((JobTable.find?_eq_some_of_mem hmem).symm.trans hrow)
  simp only [JobTable.isEligibleAmong, Job.isAcquirable, Bool.and_eq_true, decide_eq_true_eq]
    at heligible
  exact beq_eq_false_iff_ne.2 (Nat.ne_of_gt heligible.1.1.2)

theorem rewrites_of_lock {id : JobId} {revision : Nat} {owner : Owner} {expiry now : Instant}
    {change : Change} (h : c.jobs.view.Allows (.lock id revision owner expiry now) change) :
    c.Rewrites (c.after change (.lock id revision owner expiry now)) := by
  cases h with
  | lock found unlocked alone =>
    obtain rfl := JobTable.id_of_find? found
    exact .mk found ⟨rfl, rfl, rfl⟩

end Contents

/-! ## Acquisition cycles -/

/-- The store may go out of reach; only stored jobs that need no operator may be dispatched. -/
def Setting.current : Setting where
  outages := True
  dispatch c d := c.jobs.find? d.job.id = some d.job ∧ d.job.isParked = false

namespace Engine

open Routine

variable (engine : Engine ε) {setting : Setting} {c : Contents}

theorem ensures_lockJob (job : Job) :
    (engine.transact (.lockJob job engine.owner engine.lockDuration)).Ensures setting
      (fun _ c' => ReflTransGen Contents.Rewrites c c') c := by
  refine Transaction.ensures_run fun now => Command.yields_now_bind ?_
  split
  · exact Transaction.closes_error .refl
  · split
    · exact .refl
    · refine Command.yields_stage (Transaction.closes_of_failed (fun _ => .refl) ?_)
      intro c' htakes
      obtain ⟨change, hlock, rfl⟩ := Contents.takes_singleton.1 htakes
      exact .single (Contents.rewrites_of_lock hlock)

/-- A job that was locked is as it is stored. -/
theorem ensures_lock (job : Job) :
    (engine.lock job).Ensures setting
      (fun result c' => ReflTransGen Contents.Rewrites c c' ∧
        ∀ found, result = .ok (some found) → c'.jobs.find? job.id = some found) c := by
  refine ensures_bind.2 ((engine.ensures_lockJob job).mono fun result c' hleft => ?_)
  cases result with
  | error e =>
    refine ⟨hleft, fun found hfound => ?_⟩
    split at hfound <;> cases hfound
  | ok _ =>
    refine ensures_get_bind ⟨hleft, fun found hfound => ?_⟩ fun _ => ⟨hleft, ?_⟩
    · have hfilter := Option.filter_eq_some_iff.1 (Except.ok.inj hfound)
      exact hfilter.1
    · intro found hfound
      simp at hfound

theorem Frees.rewrites {engine : Engine ε} {id : JobId} {c' : Contents} (h : engine.Frees c id c') :
    ReflTransGen Contents.Rewrites c c' := by
  cases h with
  | released stored locked =>
    obtain rfl := JobTable.id_of_find? stored
    exact .single (.mk stored ⟨rfl, rfl, rfl⟩)
  | notHeld free => exact .refl

theorem ensures_unlock (id : JobId) :
    (engine.unlock id).Ensures setting (fun _ c' => ReflTransGen Contents.Rewrites c c') c := by
  refine ensures_bind.2 ((engine.ensures_releaseLock id).mono fun result c' hsettles => ?_)
  have hleft : ReflTransGen Contents.Rewrites c c' := by
    generalize settled result = settlement at hsettles
    cases hsettles with
    | done frees => exact frees.rewrites
    | hindered hindered => exact .refl
  cases result with
  | ok _ => exact hleft
  | error e => exact hleft

theorem ensures_takeTokenFor {post : Option (Option ScopeId) → Contents → Prop}
    (tried : List ScopeId) (job : Job) (h : ∀ token, post token c) :
    (takeTokenFor (ε := ε) tried job).Ensures setting post c := by
  unfold takeTokenFor
  split
  · exact h _
  · split
    · exact h _
    · refine ensures_query_bind rfl fun taken => ?_
      split
      · exact h _
      · exact h _

/-- A job that is offered is dispatched only as it is stored, and with retries left. -/
theorem ensures_offer (job : Job) (token : Option ScopeId) (hactive : c.IsActive job.id) :
    (engine.offer job token).Ensures .current
      (fun _ c' => ReflTransGen Contents.Rewrites c c') c := by
  refine Ensures.onAbort (ensures_bind.2 ((engine.ensures_lock job).mono ?_)) _
  rintro result c₁ ⟨hleft, hfound⟩
  match result, hfound with
  | .error e, _ => exact ensures_giveBack token hleft
  | .ok none, _ => exact ensures_giveBack token hleft
  | .ok (some locked), hfound =>
    have hstored := hfound locked rfl
    have hready := Contents.isActive_of_reflTransGen hleft hactive locked hstored
    rw [← JobTable.id_of_find? hstored] at hstored
    refine ensures_dispatch ⟨hstored, hready⟩ fun accepted => ?_
    cases accepted with
    | true => exact ensures_query_bind rfl fun _ => ensures_query_bind rfl fun _ => hleft
    | false =>
      refine ensures_query_bind rfl fun _ => ensures_bind.2 ((engine.ensures_unlock _).mono ?_)
      intro released c₂ hreleased
      exact ensures_giveBack token (hleft.trans hreleased)

theorem ensures_offerAll (jobs : List Job) (tried : List ScopeId) (report : CycleReport)
    (hactive : ∀ job ∈ jobs, c.IsActive job.id) :
    (engine.offerAll jobs tried report).Ensures .current
      (fun _ c' => ReflTransGen Contents.Rewrites c c') c := by
  induction jobs generalizing tried report c with
  | nil => exact .refl
  | cons job jobs ih =>
    obtain ⟨hhead, htail⟩ := List.forall_mem_cons.1 hactive
    refine ensures_bind.2 (ensures_takeTokenFor tried job fun token => ?_)
    cases token with
    | none => exact ih _ _ htail
    | some token =>
      refine ensures_bind.2 ((engine.ensures_offer job token hhead).mono ?_)
      intro result c₁ hleft
      have hrest : ∀ tried report, (engine.offerAll jobs tried report).Ensures .current
          (fun _ c' => ReflTransGen Contents.Rewrites c c') c₁ := fun tried report =>
        (ih tried report fun job hjob =>
          Contents.isActive_of_reflTransGen hleft (htail job hjob)).mono
            fun _ _ hmore => hleft.trans hmore
      match result with
      | .error e => exact hleft
      | .ok .lost => exact hrest _ _
      | .ok .dispatched => exact hrest _ _
      | .ok .rejected => exact hleft

/-- An acquisition cycle writes stored jobs again, and changes nothing else. -/
theorem ensures_acquire (batch : Nat) :
    (engine.acquire batch).Ensures .current
      (fun _ c' => ReflTransGen Contents.Rewrites c c') c := by
  have hcycle : (engine.runCycle batch).Ensures .current
      (fun _ c' => ReflTransGen Contents.Rewrites c c') c := by
    refine ensures_query_bind rfl fun _ => ensures_query_bind rfl fun now => ?_
    refine ensures_findDue_bind ?_ fun _ => .refl
    cases hdue : c.jobs.poll now (max batch 1) with
    | nil => exact .refl
    | cons job jobs =>
      refine ensures_query_bind rfl fun _ => engine.ensures_offerAll _ _ _ ?_
      rw [← hdue]
      exact fun job hjob => Contents.isActive_of_mem_poll hjob
  refine ensures_query_bind rfl fun _ => ensures_bind.2 (hcycle.mono fun result c' hleft => ?_)
  refine ensures_query_bind rfl fun _ => ?_
  cases result with
  | error e => exact ensures_query_bind rfl fun _ => hleft
  | ok report => exact hleft

end Engine

/-! ## Executions -/

/-- A handler that stages nothing has nothing to hand in. -/
theorem Interaction.Obeys.writes_eq {seen : List Job} {x x' : Interaction (Request ε) α}
    {said : List (Exchange (Request ε))} {calls : List (Exchange (Call ε))} {ctx ctx' : Context}
    (h : x.Obeys (.ofStaged fun _ _ => False) seen) (hleads : x.Leads said x')
    (hserved : ctx.ServesAll said calls ctx') : ctx'.writes = ctx.writes := by
  induction hleads generalizing seen calls ctx with
  | stop r =>
    cases hserved
    rfl
  | @ask _ q b next talk r' rest ih =>
    cases h with
    | ask allowed obeys =>
      cases hserved with
      | @cons _ ctx₁ _ _ _ _ _ head more =>
        have hsame : ctx₁.writes = ctx.writes := by
          rw [head.writes]
          cases hstaged : Exchange.staged? ⟨q, b⟩ with
          | none => exact List.append_nil _
          | some change => exact (Discipline.allows_staged allowed hstaged).elim
        exact (ih (obeys b head.faithful) more).trans hsame

namespace Engine

open Routine

variable {engine : Engine ε} {setting : Setting} {job : Job} {c c' : Contents}
  {removable : Contents → JobId → Prop}

/-- The batch of an execution whose handler stages nothing is the end of the stored row. -/
theorem Hands.ends {completion : Completion} {ws : List Write}
    (h : engine.Hands setting job c completion ws)
    (hquiet : ∀ kind handler, engine.handlers.resolve kind = some handler →
      handler.StagesNothing) :
    ∃ row now, c.jobs.find? job.id = some row ∧ row.revision = job.revision ∧
      row.Ends now completion ws := by
  cases h with
  | @mk handler row now said calls ctx completion ending resolved stored current locked leads served
      told ends =>
    have hwrites : ctx.writes = [] :=
      (hquiet _ _ resolved row []).writes_eq leads served
    rw [hwrites]
    exact ⟨row, now, stored, current, ends⟩

end Engine

/-- The next run of a recurring job recurs, and has the retries that are configured. -/
theorem Job.nextRun_recurs {row : Job} {interval : Duration} (h : row.interval = some interval)
    (id : JobId) (due now : Instant) : (row.nextRun id due now).interval.isSome = true ∧
      (row.nextRun id due now).retries = (row.nextRun id due now).retriesPerRun :=
  ⟨h ▸ rfl, rfl⟩

/-- To end a row is to remove it, or to replace it. -/
theorem Job.Ends.deed {row : Job} {now : Instant} {completion : Completion} {ws : List Write}
    {c c' : Contents} {removable : Contents → JobId → Prop} (h : row.Ends now completion ws)
    (htakes : c.Takes ws c') (may : removable c row.id) : Deed removable c c' := by
  cases h with
  | deleted once =>
    obtain ⟨change, hdelete, rfl⟩ := Contents.takes_singleton.1 htakes
    rw [Contents.after_delete hdelete]
    exact .remove may
  | @rescheduled interval recurs id =>
    obtain ⟨change, hdelete, htakes⟩ := Contents.takes_cons.1 htakes
    obtain ⟨change', hinsert, rfl⟩ := Contents.takes_singleton.1 htakes
    rw [Contents.after_delete hdelete] at hinsert ⊢
    obtain ⟨hfree, hafter⟩ := Contents.after_insert hinsert
    obtain ⟨hrecurs, hfresh⟩ :=
      row.nextRun_recurs recurs (.ofUuid id) (row.nextOccurrence now interval) now
    rw [hafter]
    generalize row.nextRun (.ofUuid id) (row.nextOccurrence now interval) now = next at *
    exact .replace may hrecurs hfresh hfree

namespace Engine

open Routine

variable {engine : Engine ε} {setting : Setting} {job : Job} {c c' : Contents}
  {removable : Contents → JobId → Prop}

theorem Charges.deeds {error : HandlerError} (h : engine.Charges job c error c') :
    ReflTransGen (Deed removable) c c' := by
  cases h with
  | @retried row now due retries stored locked decided =>
    rw [← JobTable.id_of_find? stored] at stored
    have hfewer : retries < (row.charged error).retries :=
      Job.lt_of_decideFailure_eq_retry decided
    have hleft : 0 < retries := (Job.decideFailure_eq_retry decided).2
    refine .single (.rewrite (.mk stored ⟨?_, rfl, rfl⟩))
    exact (beq_eq_false_iff_ne.2 (Nat.ne_of_gt hleft)).trans
      (beq_eq_false_iff_ne.2 (Nat.ne_of_gt (Nat.zero_lt_of_lt hfewer))).symm
  | @parked row now id stored locked decided =>
    exact .single (.park rfl rfl rfl)
  | notHeld free => exact .refl

/-- What a run does, if its handler stages nothing and the job may be removed as it was
dispatched. -/
theorem Leaves.deeds {result : Except TransactionError ExecutionOutcome}
    (h : engine.Leaves setting job c result c')
    (hquiet : ∀ kind handler, engine.handlers.resolve kind = some handler →
      handler.StagesNothing)
    (hmay : ∀ row, c.jobs.find? job.id = some row → row.revision = job.revision →
      removable c job.id) : ReflTransGen (Deed removable) c c' := by
  cases h with
  | committed hands takes =>
    obtain ⟨row, now, stored, current, ends⟩ := hands.ends hquiet
    have may := hmay row stored current
    rw [← JobTable.id_of_find? stored] at may
    exact .single (ends.deed takes may)
  | contention performs frees =>
    exact ReflTransGen.mono (fun _ _ => Deed.rewrite) _ _ frees.rewrites
  | handlerFailed charges => exact charges.deeds
  | failed performs => exact .refl
  | unsettled hindered => exact .refl

end Engine

/-! ## Calls of operators -/

namespace Operator

variable {operator : Operator} {setting : Setting} {id : JobId} {c c' : Contents}
  {removable : Contents → JobId → Prop}

theorem Schedules.deeds {job : Job} {result : Except TransactionError JobId}
    (h : Schedules c job result c') : ReflTransGen (Deed removable) c c' := by
  cases h with
  | stored free active => exact .single (.store free active)
  | parked free parked id now => exact .single (.park parked rfl rfl)
  | failed e => exact .refl

theorem Cancels.deeds {result : Except TransactionError Bool} (h : Cancels c id result c')
    (may : removable c id) : ReflTransGen (Deed removable) c c' := by
  cases h with
  | removed stored => exact .single (.remove may)
  | gone => exact .refl
  | failed e => exact .refl

/-- An amendment that leaves all incidents as they are writes a stored job again. -/
theorem Updates.deeds {amend : Job → Job} {result : Except TransactionError Job}
    (h : operator.Updates setting c id amend (fun _ => (· = c.incidents)) result c')
    (hname : ∀ row, (amend row).id = row.id) (hlike : ∀ row, (amend row).StandsLike row) :
    ReflTransGen (Deed removable) c c' := by
  cases h with
  | @done row left stored goes =>
    obtain rfl := goes
    rw [← JobTable.id_of_find? stored, ← hname] at stored
    obtain ⟨hparked, hinterval, hperRun⟩ := hlike row
    exact .single (.rewrite (.mk stored ⟨hparked, hinterval, hperRun⟩))
  | missing none => exact .refl
  | hindered hindered => exact .refl

theorem Updates.deeds_of_resets {retries : Nat} {result : Except TransactionError Job}
    (h : operator.Updates setting c id (fun row => { row with retries := retries })
      (fun row => row.Resets retries c.incidents) result c') :
    ReflTransGen (Deed removable) c c' := by
  cases h with
  | @done row left stored goes =>
    cases goes with
    | renewed now parked renews =>
      exact .single (.renew now (beq_eq_false_iff_ne.2 (Nat.ne_of_gt renews)))
    | parked id now active used => exact .single (.park (beq_iff_eq.2 used) rfl rfl)
    | same like =>
      rw [← JobTable.id_of_find? stored] at stored
      exact .single (.rewrite (.mk stored ⟨like.symm, rfl, rfl⟩))
  | missing none => exact .refl
  | hindered hindered => exact .refl

end Operator

/-! ## Tasks -/

/-- What the task may delete is removable. -/
def Task.Spares (removable : Contents → JobId → Prop) (c : Contents) : Task ι ε → Prop
  | .run _ d => ∀ row, c.jobs.find? d.job.id = some row → row.revision = d.job.revision →
      removable c d.job.id
  | .cancel _ id => removable c id
  | .transact _ _ => False
  | _ => True

/-- A task that is alone with the store, with handlers that stage nothing, does deeds. -/
theorem Task.ensures_deeds {engine : ι → Engine ε} {removable : Contents → JobId → Prop}
    {c : Contents} (task : Task ι ε) (hspares : task.Spares removable c)
    (hquiet : ∀ seat kind handler, (engine seat).handlers.resolve kind = some handler →
      handler.StagesNothing) :
    (task.routine engine).Ensures .current
      (fun _ c' => ReflTransGen (Deed removable) c c') c := by
  cases task with
  | acquire seat batch =>
    exact ((engine seat).ensures_acquire batch).mono fun _ _ hleft =>
      ReflTransGen.mono (fun _ _ => Deed.rewrite) _ _ hleft
  | run seat d =>
    exact ((engine seat).ensures_runJob d).mono fun _ _ hleaves =>
      hleaves.deeds (hquiet seat) hspares
  | schedule operator job =>
    exact (operator.ensures_schedule job).mono fun _ _ hleaves => hleaves.deeds
  | cancel operator id =>
    exact (operator.ensures_cancel id).mono fun _ _ hleaves => hleaves.deeds hspares
  | setRetries operator id retries =>
    exact (operator.ensures_setRetries id retries).mono fun _ _ hleaves => hleaves.deeds_of_resets
  | suspend operator id =>
    exact (operator.ensures_suspend id).mono fun _ _ hleaves =>
      hleaves.deeds (fun _ => rfl) fun _ => ⟨rfl, rfl, rfl⟩
  | activate operator id =>
    exact (operator.ensures_activate id).mono fun _ _ hleaves =>
      hleaves.deeds (fun _ => rfl) fun _ => ⟨rfl, rfl, rfl⟩
  | transact limit command => exact hspares.elim

end DeferredWork

import DeferredWork.Proofs.Cluster.Exclusivity
import DeferredWork.Proofs.Engine.Accounting
import DeferredWork.Proofs.Shift.Tokens

set_option autoImplicit false

/-!
# Which jobs get through

A poll leaves out the jobs of scopes in which a live lock is held, and a cycle leaves for later those
whose token is with another job.  In a cycle that nothing hinders the pool takes, of the jobs that the
poll returned, those that need no token and of each free scope the first
(`Duty.FairCycle.admits`).  So a cycle dispatches a job exactly if there is one that can be acquired
and has its token free, and is outranked by few enough others that have to wait
(`Duty.Reachable.cycle_dispatches_iff`).  Such others are there only if a job in flight has lost its
lock: it keeps the token, and then the jobs of its scope take up places in the poll and hold up jobs
that have nothing to do with it (`Duty.urgent_job_holds_up_unrelated_one`).
-/

namespace DeferredWork

variable {ε : Type → Type} {α : Type}

/-! ## Locks that nothing stands against -/

namespace JobTable

variable {t : JobTable} {now later : Instant} {tried : List ScopeId} {job : Job}

/-- The job is stored as it is, and from now on nothing stands against a lock on it, unless its scope
is one that was tried. -/
structure IsOpen (t : JobTable) (now : Instant) (tried : List ScopeId) (job : Job) : Prop where
  stored : t.find? job.id = some job
  unlocked : job.hasLiveLock now = false
  free : ∀ scope ∉ tried, job.exclusivityScope = some scope →
    ∀ row ∈ t.rows, row.exclusivityScope = some scope → row.hasLiveLock now = false

theorem Eligible.isOpen (h : t.Eligible now job) : t.IsOpen now [] job :=
  ⟨find?_eq_some_of_mem h.stored, h.unlocked, fun scope _ => h.free scope⟩

theorem IsOpen.mono {more : List ScopeId} (h : t.IsOpen now tried job) (hsub : tried ⊆ more) :
    t.IsOpen now more job :=
  ⟨h.stored, h.unlocked, fun scope hnew => h.free scope fun hmem => hnew (hsub hmem)⟩

/-- A lock on another job matters to the scope of that one only. -/
theorem IsOpen.put {row : Job} (h : t.IsOpen now tried job) (hname : row.id ≠ job.id) :
    (t.put row).IsOpen now (row.exclusivityScope.toList ++ tried) job where
  stored := by rw [find?_put, if_neg hname, h.stored]
  unlocked := h.unlocked
  free scope hnew hscope other hother hmate := by
    rw [List.mem_append, not_or, Option.mem_toList] at hnew
    rcases mem_put.1 hother with rfl | ⟨hmem, -⟩
    · exact absurd hmate hnew.1
    · exact h.free scope hnew.2 hscope other hmem hmate

theorem hasLiveLock_eq_false_of_le {row : Job} (h : row.hasLiveLock now = false)
    (hle : now ≤ later) : row.hasLiveLock later = false :=
  Bool.eq_false_iff.2 fun hlive => Bool.eq_false_iff.1 h (Job.hasLiveLock_of_le hle hlive)

/-- No scope keeps the job from being locked, if it is not one that was tried. -/
theorem IsOpen.busyScope?_eq_none (h : t.IsOpen now tried job) (hle : now ≤ later)
    (hnew : ∀ scope ∈ job.exclusivityScope, scope ∉ tried) :
    t.view.busyScope? job later = none := by
  unfold View.busyScope?
  cases hscope : job.exclusivityScope with
  | none => rfl
  | some scope =>
    have hfree : t.view.isScopeBusy scope job.id later = false := by
      refine List.any_eq_false.2 fun row hrow hoccupies => ?_
      simp only [Job.occupies, Bool.and_eq_true, beq_iff_eq] at hoccupies
      have hidle := h.free scope (hnew scope hscope) hscope row hrow hoccupies.1.2
      rw [hasLiveLock_eq_false_of_le hidle hle] at hoccupies
      cases hoccupies.2
    dsimp only
    rw [hfree]
    rfl

end JobTable

/-- A store in reach takes the lock that nothing stands against. -/
theorem Contents.takes_lock {c : Contents} {now later : Instant} {tried : List ScopeId} {job : Job}
    (h : c.jobs.IsOpen now tried job) (hle : now ≤ later)
    (hnew : ∀ scope ∈ job.exclusivityScope, scope ∉ tried) (owner : Owner) (expiry : Instant) :
    c.Takes [.lock job.id job.revision owner expiry later]
      (c.put { job.lockedBy owner expiry with revision := job.revision + 1 }) :=
  takes_singleton.2 ⟨_, .lock h.stored (JobTable.hasLiveLock_eq_false_of_le h.unlocked hle)
    (h.busyScope?_eq_none hle hnew), rfl⟩

/-! ## Tokens that are to be had -/

namespace ScopeTokens

variable {tokens : ScopeTokens} {tried : List ScopeId} {job : Job} {jobs : List Job}

/-- The job needs no token, or one that is free and of a scope that was not tried. -/
def admits (tokens : ScopeTokens) (tried : List ScopeId) (job : Job) : Bool :=
  job.exclusivityScope.all fun scope => !tried.contains scope && !tokens.isHeld scope

/-- The jobs that get through, after some scopes were tried: each that needs no token, and of each
free scope that was not tried the first. -/
def admitted (tokens : ScopeTokens) : List Job → List ScopeId → List Job
  | [], _ => []
  | job :: jobs, tried =>
    let later := tokens.admitted jobs (job.exclusivityScope.toList ++ tried)
    if tokens.admits tried job then job :: later else later

theorem admits_iff :
    tokens.admits tried job = true ↔
      ∀ scope ∈ job.exclusivityScope, scope ∉ tried ∧ tokens.isHeld scope = false := by
  simp [admits, Option.all_eq_true]

/-- Of the tokens only those of scopes matter that were not tried. -/
theorem admitted_congr {other : ScopeTokens}
    (h : ∀ scope ∉ tried, tokens.isHeld scope = other.isHeld scope) :
    tokens.admitted jobs tried = other.admitted jobs tried := by
  induction jobs generalizing tried with
  | nil => rfl
  | cons job jobs ih =>
    have hadmits : tokens.admits tried job = other.admits tried job := by
      rw [Bool.eq_iff_iff, admits_iff, admits_iff]
      refine forall₂_congr fun scope _ => and_congr_right fun hnew => ?_
      rw [h scope hnew]
    rw [admitted, admitted, hadmits, ih fun scope hnew => h scope fun hmem => hnew ?_]
    exact List.mem_append_right _ hmem

/-- The scope of a job that does not get through stands in the way of others as it did before. -/
theorem admits_append (h : tokens.admits tried job = false) (other : Job) :
    tokens.admits (job.exclusivityScope.toList ++ tried) other = tokens.admits tried other := by
  rw [Bool.eq_iff_iff, admits_iff, admits_iff]
  refine forall₂_congr fun scope _ => ?_
  rw [List.mem_append, not_or, and_assoc, Option.mem_toList, and_iff_right_iff_imp]
  rintro ⟨hnew, hfree⟩ hscope
  rw [Bool.eq_false_iff] at h
  refine h (admits_iff.2 fun found hfound => ?_)
  rw [Option.mem_unique hfound hscope]
  exact ⟨hnew, hfree⟩

theorem admitted_ne_nil_iff :
    tokens.admitted jobs tried ≠ [] ↔ ∃ job ∈ jobs, tokens.admits tried job = true := by
  induction jobs generalizing tried with
  | nil => simp [admitted]
  | cons job jobs ih =>
    rw [admitted]
    cases hadmits : tokens.admits tried job with
    | true => simp [hadmits]
    | false => simp [hadmits, ih, admits_append hadmits]

theorem follow?_append (talk more : List (Exchange (Call ε))) :
    tokens.follow? (talk ++ more) = (tokens.follow? talk).bind fun tokens => tokens.follow? more := by
  induction talk generalizing tokens with
  | nil => rfl
  | cons exchange talk ih =>
    rw [List.cons_append, follow?, follow?]
    split
    · exact ih
    · rfl

end ScopeTokens

/-- The conversation is neither about tokens, nor does the pool take a job in it. -/
structure IsBackground (talk : List (Exchange (Call ε))) : Prop where
  follow : ∀ tokens : ScopeTokens, tokens.follow? talk = some tokens
  accepted : talk.filterMap Exchange.accepted? = []

theorem isBackground_nil : IsBackground (ε := ε) [] := ⟨fun _ => rfl, rfl⟩

theorem IsBackground.append {talk more : List (Exchange (Call ε))} (h : IsBackground talk)
    (hmore : IsBackground more) : IsBackground (talk ++ more) where
  follow tokens := by
    rw [ScopeTokens.follow?_append, h.follow, Option.bind_some, hmore.follow]
  accepted := by rw [List.filterMap_append, h.accepted, hmore.accepted, List.nil_append]

/-! ## Cycles that nothing hinders -/

/-- A transaction that locks a job commits the lock, if the calendar has room for it and time is given
at all. -/
theorem Transaction.runFrom_lockJob_eq_commit {limit duration : Duration} {now expiry : Instant}
    (hlimit : limit ≠ .zero) (hexpiry : now.after? duration = some expiry) (job : Job)
    (owner : Owner) :
    runFrom (ε := ε) limit (Command.lockJob job owner duration).run { now := now } =
      commit (Context.stage { now := now } (.lock job owner expiry)) () := by
  have hstep : duration.nanos ≤ Instant.maxStep := by
    unfold Instant.after? at hexpiry
    exact (Option.ite_none_right_eq_some.1 hexpiry).1
  have htimely : (Context.stage { now := now } (.lock job owner expiry)).exceeds limit = false := by
    have hnone : ¬ limit < Duration.zero := Nat.not_lt_zero _
    simp [Context.exceeds, Context.stage, hlimit, hnone]
  rw [Command.run_lockJob, runFrom]
  dsimp only
  rw [if_neg (Nat.not_lt.2 hstep), hexpiry, Option.elim_some, runFrom, runFrom, htimely]
  rfl

namespace Engine

open Routine

variable {engine : Engine ε} {c : Contents} {now : Instant} {tried : List ScopeId} {job : Job}

/-- The store is in reach, the clock does not fall behind a time and leaves room for a lock, and the
pool takes every job. -/
def fair (engine : Engine ε) (now : Instant) : Outlook ε where
  outages := False
  possible
    | ⟨.clock, time⟩ => now ≤ time ∧ (time.after? engine.lockDuration).isSome = true
    | ⟨.dispatch _, taken⟩ => taken = true
    | _ => True

theorem concludes_lockJob_of_isOpen (hlimit : engine.limit ≠ .zero)
    (h : c.jobs.IsOpen now tried job) (hnew : ∀ scope ∈ job.exclusivityScope, scope ∉ tried) :
    (engine.transact (.lockJob job engine.owner engine.lockDuration)).Concludes (engine.fair now)
      (fun said outcome c' => IsBackground said ∧ outcome = .ok () ∧
        ∃ time locked, engine.Locks time job locked ∧ c' = c.put locked) c := by
  refine concludes_aside rfl fun time ⟨hle, hstep⟩ => ?_
  obtain ⟨expiry, hexpiry⟩ := Option.isSome_iff_exists.1 hstep
  rw [Transaction.runFrom_lockJob_eq_commit hlimit hexpiry]
  have htakes := Contents.takes_lock h hle hnew engine.owner expiry
  refine concludes_callStore_bind (ensures_callApply _) ?_ ?_
  · rintro rows c' (⟨rows, -, htaken⟩ | ⟨e, hfailed, -⟩)
    · obtain rfl := htaken.unique htakes
      exact ⟨⟨fun tokens => rfl, rfl⟩, rfl, time, _, ⟨expiry, hexpiry, rfl⟩, rfl⟩
    · cases hfailed
  · rintro e c' (⟨rows, hrows, -⟩ | ⟨e, -, -, hrefuses | hout⟩)
    · cases hrows
    · exact absurd hrefuses htakes.not_refuses
    · exact hout.elim

theorem concludes_lock_of_isOpen (hlimit : engine.limit ≠ .zero)
    (h : c.jobs.IsOpen now tried job) (hnew : ∀ scope ∈ job.exclusivityScope, scope ∉ tried) :
    (engine.lock job).Concludes (engine.fair now) (fun said outcome c' => IsBackground said ∧
      ∃ time locked, engine.Locks time job locked ∧ outcome = .ok (some locked) ∧
        c' = c.put locked) c := by
  refine concludes_bind ((concludes_lockJob_of_isOpen hlimit h hnew).mono ?_)
  rintro said _ _ ⟨hquiet, rfl, time, locked, hlocks, rfl⟩
  have hkept : (c.put locked).jobs.find? job.id = some locked := by
    rw [← hlocks.id_eq]
    exact c.find?_put_self locked
  refine concludes_callStore_bind (ensures_callGet _) ?_ ?_
  · rintro found c' ⟨rfl, hfound | ⟨hout, -⟩⟩
    · obtain rfl := Except.ok.inj (hfound.trans (congrArg Except.ok hkept))
      refine ⟨hquiet.append ⟨fun tokens => rfl, rfl⟩, time, locked, hlocks, ?_, rfl⟩
      rw [Option.filter_some, if_pos hlocks.isLockedBy]
    · exact hout.elim
  · rintro e c' ⟨-, hfound | ⟨hout, -⟩⟩
    · cases hfound
    · exact hout.elim

theorem concludes_offer_of_isOpen (hlimit : engine.limit ≠ .zero)
    (h : c.jobs.IsOpen now tried job) (hnew : ∀ scope ∈ job.exclusivityScope, scope ∉ tried)
    (token : Option ScopeId) :
    (engine.offer job token).Concludes (engine.fair now) (fun said outcome c' =>
      outcome = .ok .dispatched ∧ (∀ tokens : ScopeTokens, tokens.follow? said = some tokens) ∧
        ∃ time locked, engine.Locks time job locked ∧ c' = c.put locked ∧
          said.filterMap Exchange.accepted? = [⟨locked, token⟩]) c := by
  refine Concludes.onAbort (concludes_bind ((concludes_lock_of_isOpen hlimit h hnew).mono ?_)) _
  rintro said _ _ ⟨hquiet, time, locked, hlocks, rfl, rfl⟩
  refine concludes_dispatch_bind fun taken htaken => ?_
  obtain rfl : taken = true := htaken
  refine concludes_query_bind rfl fun _ _ => concludes_query_bind rfl fun _ _ => ?_
  refine ⟨rfl, fun tokens => ?_, time, locked, hlocks, rfl, ?_⟩
  · rw [ScopeTokens.follow?_append, hquiet.follow]
    rfl
  · rw [List.filterMap_append, hquiet.accepted]
    rfl

/-- What is said before a job is left for later. -/
structure Waits (job : Job) (tried : List ScopeId) (first : List (Exchange (Call ε))) : Prop where
  accepted : first.filterMap Exchange.accepted? = []
  follow : ∀ tokens tokens' : ScopeTokens, tokens.follow? first = some tokens' →
    tokens' = tokens ∧ tokens.admits tried job = false

/-- What is said before a job is offered to the pool. -/
structure Enters (job : Job) (tried : List ScopeId) (first : List (Exchange (Call ε))) : Prop where
  accepted : first.filterMap Exchange.accepted? = []
  untried : ∀ scope ∈ job.exclusivityScope, scope ∉ tried
  follow : ∀ tokens tokens' : ScopeTokens, tokens.follow? first = some tokens' →
    tokens.admits tried job = true ∧
      ∀ scope ∉ job.exclusivityScope.toList ++ tried, tokens.isHeld scope = tokens'.isHeld scope

theorem waits_of_tried {scope : ScopeId} (hscope : job.exclusivityScope = some scope)
    (hmem : scope ∈ tried) : Waits (ε := ε) job tried [] where
  accepted := rfl
  follow tokens tokens' hfollow := by
    cases hfollow
    refine ⟨rfl, Bool.eq_false_iff.2 fun hadmits => ?_⟩
    exact (ScopeTokens.admits_iff.1 hadmits scope hscope).1 hmem

theorem waits_of_refused {scope : ScopeId} (hscope : job.exclusivityScope = some scope) :
    Waits (ε := ε) job tried [⟨.takeToken scope, false⟩] where
  accepted := rfl
  follow tokens tokens' hfollow := by
    obtain ⟨htrue, hfollow⟩ := Option.ite_none_right_eq_some.1 hfollow
    cases hfollow
    refine ⟨rfl, Bool.eq_false_iff.2 fun hadmits => ?_⟩
    have hfree := (ScopeTokens.admits_iff.1 hadmits scope hscope).2
    simp [ScopeTokens.tells, hfree] at htrue

theorem enters_of_none (hnone : job.exclusivityScope = none) : Enters (ε := ε) job tried [] where
  accepted := rfl
  untried := by simp [hnone]
  follow tokens tokens' hfollow := by
    cases hfollow
    exact ⟨ScopeTokens.admits_iff.2 (by simp [hnone]), fun _ _ => rfl⟩

theorem enters_of_taken {scope : ScopeId} (hscope : job.exclusivityScope = some scope)
    (hnew : scope ∉ tried) : Enters (ε := ε) job tried [⟨.takeToken scope, true⟩] where
  accepted := rfl
  untried := by simpa [hscope] using hnew
  follow tokens tokens' hfollow := by
    obtain ⟨htrue, hfollow⟩ := Option.ite_none_right_eq_some.1 hfollow
    have hfree : tokens.isHeld scope = false := by simpa [ScopeTokens.tells] using htrue
    refine ⟨ScopeTokens.admits_iff.2 (by simp [hscope, hnew, hfree]), fun other hother => ?_⟩
    obtain rfl : (tokens.take? scope).getD tokens = tokens' := Option.some.inj hfollow
    cases htake : tokens.take? scope with
    | none => rfl
    | some taken =>
      have hne : other ≠ scope := fun heq => hother (by simp [hscope, heq])
      rw [Option.getD_some, Bool.eq_iff_iff, ScopeTokens.isHeld_take? htake, or_iff_right hne]

/-- Before a job is offered or left for later, not much is said. -/
theorem concludes_takeTokenFor_bind_of_follow {outlook : Outlook ε}
    {post : List (Exchange (Call ε)) → α → Contents → Prop}
    {f : Option (Option ScopeId) → Routine ε α}
    (hwait : ∀ first, Waits job tried first →
      (f none).Concludes outlook (fun more => post (first ++ more)) c)
    (henter : ∀ first token, Enters job tried first →
      (f (some token)).Concludes outlook (fun more => post (first ++ more)) c) :
    Routine.Concludes outlook post ((takeTokenFor tried job).bind f) c := by
  refine concludes_takeTokenFor_bind (fun hnone => henter [] none (enters_of_none hnone))
    (fun scope hmem hscope => hwait [] (waits_of_tried hscope hmem)) ?_
  intro scope hnew hscope taken
  cases taken with
  | false => exact hwait [⟨.takeToken scope, false⟩] (waits_of_refused hscope)
  | true =>
    exact henter [⟨.takeToken scope, true⟩] (some scope) (enters_of_taken hscope hnew)

/-- What the pool has taken are the jobs that get through, as far as what is said of the tokens is
true, and the report counts them on top of a number of others. -/
def Admits (jobs : List Job) (tried : List ScopeId) (dispatched : Nat)
    (said : List (Exchange (Call ε))) (result : Except AcquisitionError CycleReport) : Prop :=
  ∀ tokens tokens' : ScopeTokens, tokens.follow? said = some tokens' →
    ∃ report, result = .ok report ∧
      report.dispatched = dispatched + (said.filterMap Exchange.accepted?).length ∧
      (said.filterMap Exchange.accepted?).map (fun d => d.job.id) =
        (tokens.admitted jobs tried).map Job.id

section

variable {jobs : List Job} {dispatched : Nat} {first said : List (Exchange (Call ε))}
  {result : Except AcquisitionError CycleReport}

theorem Admits.pass
    (h : Admits jobs (job.exclusivityScope.toList ++ tried) dispatched said result)
    (hwaits : Waits job tried first) :
    Admits (job :: jobs) tried dispatched (first ++ said) result := by
  intro tokens tokens' hfollow
  rw [ScopeTokens.follow?_append, Option.bind_eq_some_iff] at hfollow
  obtain ⟨_, hbefore, hfollow⟩ := hfollow
  obtain ⟨rfl, hstays⟩ := hwaits.follow tokens _ hbefore
  rw [List.filterMap_append, hwaits.accepted, List.nil_append, ScopeTokens.admitted, hstays]
  exact h _ _ hfollow

theorem Admits.dispatch {tries : List (Exchange (Call ε))} {time : Instant} {locked : Job}
    {token : Option ScopeId}
    (h : Admits jobs (job.exclusivityScope.toList ++ tried) (dispatched + 1) said result)
    (henters : Enters job tried first)
    (htries : ∀ tokens : ScopeTokens, tokens.follow? tries = some tokens)
    (hlocks : engine.Locks time job locked)
    (htaken : tries.filterMap Exchange.accepted? = [⟨locked, token⟩]) :
    Admits (job :: jobs) tried dispatched (first ++ (tries ++ said)) result := by
  intro tokens tokens' hfollow
  rw [ScopeTokens.follow?_append, Option.bind_eq_some_iff] at hfollow
  obtain ⟨tokens₁, hbefore, hfollow⟩ := hfollow
  obtain ⟨hadmits, hsame⟩ := henters.follow tokens tokens₁ hbefore
  rw [ScopeTokens.follow?_append, htries, Option.bind_some] at hfollow
  obtain ⟨report, hresult, hdispatched, hnames⟩ := h tokens₁ tokens' hfollow
  rw [List.filterMap_append, henters.accepted, List.nil_append, List.filterMap_append, htaken,
    ScopeTokens.admitted, hadmits, if_pos rfl, List.singleton_append, List.map_cons, List.map_cons,
    ScopeTokens.admitted_congr hsame, hnames, hlocks.id_eq]
  refine ⟨report, hresult, ?_, rfl⟩
  rw [hdispatched, List.length_cons, Nat.add_assoc, Nat.add_comm 1]

end

theorem concludes_offerAll_of_isOpen (hlimit : engine.limit ≠ .zero) (jobs : List Job)
    (tried : List ScopeId) (start : CycleReport)
    (hopen : ∀ job ∈ jobs, c.jobs.IsOpen now tried job) (hnames : (jobs.map Job.id).Nodup) :
    (engine.offerAll jobs tried start).Concludes (engine.fair now)
      (fun said result _ => Admits jobs tried start.dispatched said result) c := by
  induction jobs generalizing tried start c with
  | nil => exact fun _ _ _ => ⟨start, rfl, rfl, rfl⟩
  | cons job jobs ih =>
    obtain ⟨hjob, hjobs⟩ := List.forall_mem_cons.1 hopen
    obtain ⟨hfresh, hnames⟩ := List.nodup_cons.1 hnames
    refine concludes_takeTokenFor_bind_of_follow (fun first hwaits => ?_)
      fun first token henters => ?_
    · have hlater : ∀ row ∈ jobs, c.jobs.IsOpen now (job.exclusivityScope.toList ++ tried) row :=
        fun row hrow => (hjobs row hrow).mono (List.subset_append_right _ _)
      exact (ih _ _ hlater hnames).mono fun more result _ hadmits => hadmits.pass hwaits
    · refine concludes_bind
        ((concludes_offer_of_isOpen hlimit hjob henters.untried token).mono ?_)
      rintro tries _ _ ⟨rfl, hfollow, time, locked, hlocks, rfl, htaken⟩
      have hlater : ∀ row ∈ jobs,
          (c.put locked).jobs.IsOpen now (job.exclusivityScope.toList ++ tried) row := by
        intro row hrow
        have hname : locked.id ≠ row.id := fun heq => hfresh <| by
          rw [← hlocks.id_eq, heq]
          exact List.mem_map_of_mem hrow
        rw [← hlocks.exclusivityScope_eq]
        exact (hjobs row hrow).put hname
      exact (ih _ _ hlater hnames).mono fun more result _ hadmits =>
        hadmits.dispatch henters hfollow hlocks htaken

/-- What is said around a cycle matters neither to the tokens nor to the pool. -/
theorem Admits.within {jobs : List Job} {dispatched : Nat}
    {first said more : List (Exchange (Call ε))} {result : Except AcquisitionError CycleReport}
    (h : Admits jobs tried dispatched said result) (hfirst : IsBackground first)
    (hmore : IsBackground more) : Admits jobs tried dispatched (first ++ (said ++ more)) result := by
  intro tokens tokens' hfollow
  rw [ScopeTokens.follow?_append, hfirst.follow, Option.bind_some, ScopeTokens.follow?_append,
    Option.bind_eq_some_iff] at hfollow
  obtain ⟨tokens₁, hfollow, -⟩ := hfollow
  rw [List.filterMap_append, hfirst.accepted, List.nil_append, List.filterMap_append,
    hmore.accepted, List.append_nil]
  exact h tokens tokens₁ hfollow

/-- The rest of a cycle that has read the clock for its poll. -/
def pollAt (engine : Engine ε) (batch : Nat) (now : Instant) :
    Routine ε (Except AcquisitionError CycleReport) := do
  match ← Routine.callStore (.findDue now (max batch 1)) with
  | .error error => return .error (.ofStore error)
  | .ok [] => return .ok {}
  | .ok jobs =>
    Interaction.query (.enter .locking)
    engine.offerAll jobs [] { polled := jobs.length }

theorem runCycle_eq (engine : Engine ε) (batch : Nat) : engine.runCycle batch = (do
    Interaction.query (.enter .polling)
    let now ← Interaction.query .clock
    engine.pollAt batch now) := rfl

theorem concludes_pollAt (hlimit : engine.limit ≠ .zero) (batch : Nat) :
    (engine.pollAt batch now).Concludes (engine.fair now) (fun said result _ =>
      Admits (c.jobs.poll now (max batch 1)) [] 0 said result) c := by
  refine concludes_callStore_bind (ensures_callFindDue now _) ?_ ?_
  · rintro polled c ⟨rfl, hpoll | ⟨hout, -⟩⟩
    · have hpolled := Except.ok.inj hpoll
      have hopen : ∀ job ∈ polled, c.jobs.IsOpen now [] job := fun job hjob =>
        ((JobTable.eligible_iff .asKept).2 (JobTable.mem_poll (hpolled ▸ hjob))).isOpen
      have hnames := c.jobs.nodup_poll now (max batch 1)
      rw [← hpolled] at hnames ⊢
      have hasked : IsBackground (ε := ε) [⟨.store (.findDue now (max batch 1)), .ok polled⟩] :=
        ⟨fun _ => rfl, rfl⟩
      cases polled with
      | nil => exact fun _ _ _ => ⟨{}, rfl, rfl, rfl⟩
      | cons job jobs =>
        refine concludes_query_bind rfl fun _ _ => ?_
        have hentered : IsBackground (ε := ε) [⟨.enter .locking, ()⟩] := ⟨fun _ => rfl, rfl⟩
        refine (concludes_offerAll_of_isOpen hlimit _ [] _ hopen hnames).mono ?_
        intro said result _ hadmits
        have hwithin := hadmits.within (hasked.append hentered) isBackground_nil
        rwa [List.append_nil] at hwithin
    · exact hout.elim
  · rintro e _ ⟨-, hpoll | ⟨hout, -⟩⟩
    · cases hpoll
    · exact hout.elim

end Engine

/-! ## Cycles of an engine on duty -/

namespace Duty

open Routine

/-- A cycle of an engine on duty that nothing hinders, from the time that it reads first: nobody else
commits anything, the store is in reach, tokens are given out as they are free, the pool takes every
job, and the clock does not fall behind and leaves room for locks. -/
structure FairCycle (engine : Engine ε) (duty : Duty) (batch : Nat) (now : Instant)
    (talk : List (Exchange (Call ε))) (s' : Store)
    (rest : Routine ε (Except AcquisitionError CycleReport)) : Prop where
  reach : duty.store.available = true
  runs : Runs duty.store (engine.acquire batch) (talk.map Event.own) s' rest
  ended : rest.isOver = true
  tokens : (duty.tokens.follow? talk).isSome = true
  start : (talk.filterMap Exchange.reading?).head? = some now
  fair : ∀ exchange ∈ talk, (engine.fair now).possible exchange

variable {engine : Engine ε} {duty : Duty} {batch : Nat} {now : Instant}
  {talk : List (Exchange (Call ε))} {s' : Store}
  {rest : Routine ε (Except AcquisitionError CycleReport)}

/-- A cycle that nothing hinders ends with a report, and the pool has taken the jobs of the poll that
get through. -/
theorem FairCycle.admits (h : duty.FairCycle engine batch now talk s' rest)
    (hlimit : engine.limit ≠ .zero) :
    ∃ report, rest = .done (.ok report) ∧
      report.dispatched = (talk.filterMap Exchange.accepted?).length ∧
      (talk.filterMap Exchange.accepted?).map (fun d => d.job.id) =
        (duty.tokens.admitted (duty.store.jobs.poll now (max batch 1)) []).map Job.id := by
  have hpossible := h.fair
  have hstart := h.start
  obtain ⟨tokens', htokens⟩ := Option.isSome_iff_exists.1 h.tokens
  have hruns := h.runs
  rw [Engine.acquire, Engine.runCycle_eq] at hruns
  obtain ⟨_, _, talk, rfl, hcounted, hruns⟩ := runs_ask hruns h.ended
  obtain ⟨_, _, talk, rfl, hentered, hruns⟩ := runs_ask hruns h.ended
  obtain ⟨time, _, talk, rfl, hread, hruns⟩ := runs_ask hruns h.ended
  cases hcounted
  cases hentered
  cases hread
  obtain rfl := Option.some.inj hstart
  have hincludes : ∀ event ∈ talk.map Event.own, (engine.fair time).Includes event := by
    refine List.forall_mem_map.2 fun exchange hmem => hpossible exchange ?_
    exact List.mem_cons_of_mem _ (List.mem_cons_of_mem _ (List.mem_cons_of_mem _ hmem))
  have hreach : duty.store.available = false → (engine.fair time).outages := by
    rw [h.reach]
    exact nofun
  -- The outlook from here on is that of the time just read, so the rest is promised apart.
  have hconcluded : ∃ result, rest = .done result ∧
      Engine.Admits (duty.store.jobs.poll time (max batch 1)) [] 0
        ((talk.map Event.own).filterMap Event.own?) result := by
    refine hruns.concluded (?_ : Routine.Concludes (engine.fair time) (fun said result _ =>
      Engine.Admits (duty.store.jobs.poll time (max batch 1)) [] 0 said result) _ _)
      hreach hincludes h.ended
    refine concludes_bind ((Engine.concludes_pollAt hlimit batch).mono ?_)
    intro said result _ hadmits
    refine concludes_query_bind rfl fun _ _ => ?_
    have hended : IsBackground (ε := ε) [⟨.enter .idle, ()⟩] := ⟨fun _ => rfl, rfl⟩
    cases result with
    | error e =>
      refine concludes_query_bind rfl fun _ _ => ?_
      exact hadmits.within isBackground_nil (hended.append ⟨fun _ => rfl, rfl⟩)
    | ok report => exact hadmits.within isBackground_nil hended
  obtain ⟨result, rfl, hadmits⟩ := hconcluded
  rw [own?_own] at hadmits
  obtain ⟨report, rfl, hdispatched, hnames⟩ := hadmits duty.tokens tokens' htokens
  exact ⟨report, rfl, hdispatched.trans (Nat.zero_add _), hnames⟩

/-- The job needs no token, or one that is free. -/
def IsFree (duty : Duty) (job : Job) : Prop :=
  ∀ scope ∈ job.exclusivityScope, duty.tokens.isHeld scope = false

theorem isFree_iff {job : Job} : duty.IsFree job ↔ duty.tokens.admits [] job = true := by
  simp [IsFree, ScopeTokens.admits_iff]

/-- A job that can be acquired has to wait for its token only if that is with a job in flight in its
scope, and no job of the scope holds a live lock any more. -/
theorem Reachable.waits_for_lost_lock (h : Reachable engine duty) {job : Job}
    (heligible : duty.store.jobs.Eligible now job) (hwaits : ¬ duty.IsFree job) :
    ∃ d ∈ duty.inFlight, d.job.exclusivityScope = job.exclusivityScope ∧
      ∀ row ∈ duty.store.jobs.rows, row.exclusivityScope = job.exclusivityScope →
        row.hasLiveLock now = false := by
  rw [IsFree] at hwaits
  push Not at hwaits
  obtain ⟨scope, hscope, hheld⟩ := hwaits
  obtain ⟨hmatch, -⟩ := h.tokens_match_jobs_in_flight
  obtain ⟨d, hflight, hd⟩ := (hmatch scope).1 (Bool.eq_true_of_not_eq_false hheld)
  rw [Option.mem_def.1 hscope]
  exact ⟨d, hflight, hd, heligible.free scope hscope⟩

/-- **A cycle dispatches a job unless the poll is full of waiting ones.**  An engine on duty goes
through a cycle that nothing hinders.  The cycle ends with a report; and it has dispatched a job
exactly if some job can be acquired and needs no token or a free one, and the jobs that could be
acquired as well, outrank it and have to wait for their tokens are fewer than the poll may return.
Each job that has to wait does so for a job in flight in its scope that has lost its lock. -/
theorem Reachable.cycle_dispatches_iff (h : Reachable engine duty)
    (hcycle : duty.FairCycle engine batch now talk s' rest) (hlimit : engine.limit ≠ .zero) :
    ∃ report, rest = .done (.ok report) ∧
      report.dispatched = (talk.filterMap Exchange.accepted?).length ∧
      (0 < report.dispatched ↔ ∃ job, duty.store.jobs.Eligible now job ∧ duty.IsFree job ∧
        {rival | duty.store.jobs.Eligible now rival ∧ rival.Outranks job ∧
          ¬ duty.IsFree rival}.ncard < max batch 1) ∧
      ∀ rival, duty.store.jobs.Eligible now rival → ¬ duty.IsFree rival →
        ∃ d ∈ duty.inFlight, d.job.exclusivityScope = rival.exclusivityScope ∧
          ∀ row ∈ duty.store.jobs.rows, row.exclusivityScope = rival.exclusivityScope →
            row.hasLiveLock now = false := by
  obtain ⟨report, hdone, hdispatched, hnames⟩ := hcycle.admits hlimit
  have hcount : report.dispatched =
      (duty.tokens.admitted (duty.store.jobs.poll now (max batch 1)) []).length := by
    rw [hdispatched, ← List.length_map (fun d => d.job.id), hnames, List.length_map]
  refine ⟨report, hdone, hdispatched, ?_, fun rival => h.waits_for_lost_lock⟩
  rw [← JobTable.exists_mem_poll_iff, hcount, List.length_pos_iff, ScopeTokens.admitted_ne_nil_iff]
  simp only [isFree_iff]

end Duty

/-! ## Playing a cycle that nothing hinders -/

/-- The answer to a call of an engine with these tokens, and the store after it. -/
def ScopeTokens.answer {β : Type} (tokens : ScopeTokens) (circumstances : Circumstances) (s : Store) :
    Call ε β → β × Store
  | .takeToken scope => (!tokens.isHeld scope, s)
  | call => circumstances.answer s call

namespace ScopeTokens

variable {β : Type} (tokens : ScopeTokens) (circumstances : Circumstances) (s : Store)
  (call : Call ε β)

theorem answered_answer :
    call.Answered s (tokens.answer circumstances s call).1
      (tokens.answer circumstances s call).2 := by
  cases call with
  | takeToken scope => rfl
  | _ => exact circumstances.answered s _

theorem tells_answer :
    tokens.tells ⟨call, (tokens.answer circumstances s call).1⟩ = true := by
  cases call with
  | takeToken scope => simp [tells, answer]
  | _ => rfl

theorem possible_answer {engine : Engine ε} (hroom : circumstances.hasRoom = true)
    (hclock : (circumstances.now.after? engine.lockDuration).isSome = true) :
    (engine.fair circumstances.now).possible
      ⟨call, (tokens.answer circumstances s call).1⟩ := by
  cases call with
  | clock => exact ⟨Int.le_refl _, hclock⟩
  | dispatch d => exact hroom
  | _ => trivial

end ScopeTokens

namespace Routine

/-- What is said in a routine that is played alone by an engine with these tokens, what it comes to
unless it breaks off, and the store after it. -/
def playGuarded (circumstances : Circumstances) :
    Routine ε α → Store → ScopeTokens → List (Exchange (Call ε)) × Option α × Store
  | .done a, s, _ => ([], some a, s)
  | .abort _, s, _ => ([], none, s)
  | .ask call next, s, tokens =>
    let (answer, s₁) := tokens.answer circumstances s call
    let (talk, outcome, s') :=
      playGuarded circumstances (next answer) s₁ (tokens.after ⟨call, answer⟩)
    (⟨call, answer⟩ :: talk, outcome, s')

variable {circumstances : Circumstances} {s : Store} {tokens : ScopeTokens} {r : Routine ε α}

/-- What is played is a run that nobody disturbs. -/
theorem runs_playGuarded (circumstances : Circumstances) (r : Routine ε α) (s : Store)
    (tokens : ScopeTokens) :
    ∃ rest, rest.isOver = true ∧
      (∀ a, (r.playGuarded circumstances s tokens).2.1 = some a → rest = .done a) ∧
      Runs s r ((r.playGuarded circumstances s tokens).1.map Event.own)
        (r.playGuarded circumstances s tokens).2.2 rest := by
  induction r generalizing s tokens with
  | done a => exact ⟨.done a, rfl, fun b hb => congrArg _ (Option.some.inj hb), .stop s _⟩
  | abort reason => exact ⟨.abort reason, rfl, nofun, .stop s _⟩
  | ask call next ih =>
    obtain ⟨rest, hover, hdone, hruns⟩ := ih (tokens.answer circumstances s call).1
      (tokens.answer circumstances s call).2
      (tokens.after ⟨call, (tokens.answer circumstances s call).1⟩)
    exact ⟨rest, hover, hdone, .own (tokens.answered_answer circumstances s call) hruns⟩

/-- What is said of the tokens in a play is true. -/
theorem follow?_playGuarded (circumstances : Circumstances) (r : Routine ε α) (s : Store)
    (tokens : ScopeTokens) :
    (tokens.follow? (r.playGuarded circumstances s tokens).1).isSome = true := by
  induction r generalizing s tokens with
  | done a => rfl
  | abort reason => rfl
  | ask call next ih =>
    rw [playGuarded, ScopeTokens.follow?, if_pos (tokens.tells_answer circumstances s call)]
    exact ih _ _ _

theorem possible_playGuarded {engine : Engine ε} (hroom : circumstances.hasRoom = true)
    (hclock : (circumstances.now.after? engine.lockDuration).isSome = true) :
    ∀ exchange ∈ (r.playGuarded circumstances s tokens).1,
      (engine.fair circumstances.now).possible exchange := by
  induction r generalizing s tokens with
  | done a => exact List.forall_mem_nil _
  | abort reason => exact List.forall_mem_nil _
  | ask call next ih =>
    exact List.forall_mem_cons.2
      ⟨tokens.possible_answer circumstances s call hroom hclock, ih _⟩

end Routine

namespace Duty

/-- An engine on duty can go through a cycle that nothing hinders. -/
theorem fairCycle_playGuarded {engine : Engine ε} {duty : Duty} {circumstances : Circumstances}
    (hreach : duty.store.available = true) (hroom : circumstances.hasRoom = true)
    (hclock : (circumstances.now.after? engine.lockDuration).isSome = true) (batch : Nat) :
    ∃ rest, (∀ result, ((engine.acquire batch).playGuarded circumstances duty.store
        duty.tokens).2.1 = some result → rest = .done result) ∧
      duty.FairCycle engine batch circumstances.now
        ((engine.acquire batch).playGuarded circumstances duty.store duty.tokens).1
        ((engine.acquire batch).playGuarded circumstances duty.store duty.tokens).2.2 rest := by
  obtain ⟨rest, hover, hdone, hruns⟩ := Routine.runs_playGuarded circumstances
    (engine.acquire batch) duty.store duty.tokens
  exact ⟨rest, hdone, {
    reach := hreach
    runs := hruns
    ended := hover
    tokens := Routine.follow?_playGuarded circumstances _ _ _
    start := rfl
    fair := Routine.possible_playGuarded hroom hclock }⟩

/-- The first job of the desk was dispatched, and is not stored any more.  An urgent job of the desk
is stored now, and one that has nothing to do with it. -/
def cancelled : Duty :=
  { (start (.ofRow (desk "first"))).cycle (Engine.ofPair true) .early 1 with
    store := .ofTwo { desk "second" with priority := 5 } (.mail "third") }

theorem reachable_cancelled : Reachable (Engine.ofPair true) cancelled := by
  let first := (start (.ofRow (desk "first"))).cycle (Engine.ofPair true) .early 1
  have hfirst : first.Reachable (Engine.ofPair true) :=
    (Reachable.start _).cycle .early (by decide +kernel) (by decide +kernel)
  exact hfirst.step (.meanwhile first _)

/-- What is said in a cycle of the left engine that polls for so many jobs. -/
def playCancelled (batch : Nat) : List (Exchange (Call fun _ => Empty)) ×
    Option (Except AcquisitionError CycleReport) × Store :=
  ((Engine.ofPair true).acquire batch).playGuarded .early cancelled.store cancelled.tokens

/-- A cycle that nothing hinders ends as it is played. -/
theorem fairCycle_playCancelled (batch : Nat) {result : Except AcquisitionError CycleReport}
    (h : (playCancelled batch).2.1 = some result) :
    cancelled.FairCycle (Engine.ofPair true) batch .epoch (playCancelled batch).1
      (playCancelled batch).2.2 (.done result) := by
  have hreach : cancelled.store.available = true := rfl
  have hroom : Circumstances.early.hasRoom = true := rfl
  have hclock : (Circumstances.early.now.after? (Engine.ofPair true).lockDuration).isSome = true := by
    decide +kernel
  obtain ⟨rest, hdone, hcycle⟩ := fairCycle_playGuarded hreach hroom hclock batch
  rwa [hdone result h] at hcycle

/-- The left engine polls for one job, and leaves it for later.  It does not dispatch the other one,
although that can be acquired and needs no token. -/
theorem urgent_job_holds_up_unrelated_one :
    Reachable (Engine.ofPair true) cancelled ∧
      cancelled.FairCycle (Engine.ofPair true) 1 .epoch (playCancelled 1).1 (playCancelled 1).2.2
        (.done (.ok { polled := 1, deferred := 1 })) ∧
      (playCancelled 1).1.filterMap Exchange.accepted? = [] ∧
      cancelled.store.jobs.Eligible .epoch (.mail "third") ∧ cancelled.IsFree (.mail "third") :=
  ⟨reachable_cancelled, fairCycle_playCancelled 1 (by decide +kernel), by decide +kernel,
    ⟨by decide +kernel, rfl, rfl, by decide, rfl, nofun⟩, nofun⟩

/-- When the left engine polls for two jobs, it dispatches one. -/
theorem larger_batch_reaches_unrelated_one :
    ∃ job, cancelled.store.jobs.Eligible .epoch job ∧ cancelled.IsFree job ∧
      {rival | cancelled.store.jobs.Eligible .epoch rival ∧ rival.Outranks job ∧
        ¬ cancelled.IsFree rival}.ncard < 2 := by
  have hplayed : (playCancelled 2).2.1 =
      some (.ok { polled := 2, deferred := 1, dispatched := 1 }) := by
    decide +kernel
  obtain ⟨report, hdone, -, hiff, -⟩ :=
    reachable_cancelled.cycle_dispatches_iff (fairCycle_playCancelled 2 hplayed) (by decide)
  cases hdone
  exact hiff.1 (by decide)

end Duty

end DeferredWork

import DeferredWork.Proofs.Cluster.Claims

set_option autoImplicit false

/-!
# One live lock per scope

However the transactions of engines and operators interleave, at most one job of each exclusivity
scope has a lock that counts, at any instant that is not before a lock that was taken
(`Traffic.one_live_lock_per_scope`).  A lock is taken only if the scope is free at that instant, and
so from then on; every other write leaves a job that claims no more than the row it replaces,
because the row that it was made from is still the stored one.
-/

namespace DeferredWork

/-! ## Locks that count -/

/-- A lock that counts has counted before. -/
theorem Job.hasLiveLock_of_le {job : Job} {now later : Instant} (hle : now ≤ later)
    (h : job.hasLiveLock later = true) : job.hasLiveLock now = true := by
  rw [hasLiveLock, Bool.and_eq_true] at h ⊢
  obtain ⟨howner, hexpiry⟩ := h
  refine ⟨howner, ?_⟩
  cases hlocked : job.lockedUntil with
  | none =>
    rw [hlocked] at hexpiry
    cases hexpiry
  | some expiry =>
    rw [hlocked] at hexpiry
    have hlater : later ≤ expiry := of_decide_eq_true hexpiry
    exact decide_eq_true (Int.le_trans hle hlater)

/-- The time at which a lock is taken. -/
def Write.lockTime? : Write → Option Instant
  | .lock _ _ _ _ now => some now
  | _ => none

/-! ## Tables without rivals -/

namespace JobTable

/-- At most one job of each scope claims it. -/
def IsExclusive (t : JobTable) (now : Instant) : Prop :=
  ∀ scope, ∀ a ∈ t.rows, ∀ b ∈ t.rows, a.Claims scope now → b.Claims scope now → a = b

variable {t t' : JobTable} {now later : Instant}

theorem IsExclusive.erase (h : t.IsExclusive now) (id : JobId) : (t.erase id).IsExclusive now := by
  intro scope a ha b hb
  exact h scope a (mem_erase.1 ha).1 b (mem_erase.1 hb).1

/-- A row may be put if no job of another name claims a scope that it claims. -/
theorem IsExclusive.put {row : Job} (h : t.IsExclusive now)
    (halone : ∀ scope, row.Claims scope now → ∀ b ∈ t.rows, b.id ≠ row.id → ¬ b.Claims scope now) :
    (t.put row).IsExclusive now := by
  intro scope a ha b hb hclaimsA hclaimsB
  rcases mem_put.1 ha with rfl | ⟨hmemA, hneA⟩
  · rcases mem_put.1 hb with rfl | ⟨hmemB, hneB⟩
    · rfl
    · exact absurd hclaimsB (halone scope hclaimsA b hmemB hneB)
  · rcases mem_put.1 hb with rfl | ⟨hmemB, hneB⟩
    · exact absurd hclaimsA (halone scope hclaimsB a hmemA hneA)
    · exact h scope a hmemA b hmemB hclaimsA hclaimsB

/-- A job that claims no more than the row of its name may take the row's place. -/
theorem IsExclusive.replace {row before : Job} (h : t.IsExclusive now)
    (hbefore : t.find? row.id = some before) (hclaims : row.ClaimsNoMore before) :
    (t.put row).IsExclusive now := by
  refine h.put fun scope hrow b hb hne hother => ?_
  obtain ⟨hmem, hname⟩ := find?_eq_some_iff.1 hbefore
  have heq := h scope b hb before hmem hother (hclaims scope now hrow)
  exact hne (heq ▸ hname)

/-- If the scope of a job is free, no other job claims it from then on. -/
theorem not_claims_of_busyScope?_eq_none {job b : Job} {scope : ScopeId} (hle : now ≤ later)
    (halone : t.view.busyScope? job now = none) (hscope : job.exclusivityScope = some scope)
    (hb : b ∈ t.rows) (hne : b.id ≠ job.id) : ¬ b.Claims scope later := by
  rintro ⟨hscopeB, hliveB⟩
  have hbusy : t.view.isScopeBusy scope job.id now = true := by
    refine isScopeBusy_view_iff.2 ⟨b.id, b, find?_eq_some_of_mem hb, ?_⟩
    have hlive := Job.hasLiveLock_of_le hle hliveB
    simp [Job.occupies, hne, hscopeB, hlive]
  simp [View.busyScope?, hscope, hbusy] at halone

/-- A tame write leaves no rivals at any instant that is not before its lock. -/
theorem IsExclusive.write {known : List Job} {w : Write} {left : Option Job}
    (h : t.IsExclusive later) (hw : t.write w = .ok (t', left))
    (hreached : ∀ row ∈ known, t.HasReached row) (htame : w.IsTame known)
    (hlate : ∀ now ∈ w.lockTime?, now ≤ later) : t'.IsExclusive later := by
  obtain ⟨c, hc, rfl, -⟩ := write_eq_ok_iff.1 hw
  cases hc with
  | @insert job free =>
    have hunlocked : Job.isUnlocked { job with revision := 1 } = true := htame
    refine h.put fun scope hclaims => ?_
    exact absurd hclaims (Job.not_claims_of_isUnlocked hunlocked scope later)
  | @update job before expected found met =>
    obtain ⟨row, hmem, hname, rfl, hclaims⟩ := htame
    -- Table and writer agree on the revision, so the row that the writer knows is the stored one.
    have hrev : row.revision = before.revision := (Expected.matches_exactly _ _).1 met
    have hfound : t.find? row.id = some before := hname ▸ found
    obtain rfl := (hreached row hmem).eq_of_revision hfound hrev.symm
    exact h.replace found hclaims
  | @lock id before owner expiry now found unlocked alone =>
    -- The scope was free when the lock was taken, and a lock that counts later counted then.
    have hle : now ≤ later := hlate now rfl
    refine h.put fun scope hclaims b hb hne => ?_
    exact not_claims_of_busyScope?_eq_none hle alone hclaims.1 hb hne
  | delete found met => exact h.erase _
  | raise => exact h
  | resolve => exact h

end JobTable

/-! ## Exclusivity -/

namespace Traffic

variable {ε : Type → Type} {t : Traffic ε}

/-- At any instant that is not before a lock that was taken, at most one job of each exclusivity
scope has a lock that counts. -/
theorem one_live_lock_per_scope (h : Reachable Strand.OfCluster t)
    (honce : Store.empty.InsertsOnce t.log) {later : Instant}
    (hlate : ∀ now ∈ t.log.flatten.filterMap Write.lockTime?, now ≤ later) :
    ∀ scope, ∀ a ∈ t.store.jobs.rows, ∀ b ∈ t.store.jobs.rows,
      a.exclusivityScope = some scope → a.hasLiveLock later = true →
      b.exclusivityScope = some scope → b.hasLiveLock later = true → a = b := by
  have hexclusive : t.store.jobs.IsExclusive later := by
    refine h.induction_on_writes
      (I := fun jobs log =>
        (∀ now ∈ log.filterMap Write.lockTime?, now ≤ later) → jobs.IsExclusive later)
      (fun strand hstrand => hstrand.obeys) ?_ ?_ honce hlate
    · intro _ scope a ha
      cases ha
    · intro known jobs jobs' log w left hI hw hreached htame hlate
      rw [List.filterMap_append, List.forall_mem_append] at hlate
      refine (hI hlate.1).write hw hreached htame ?_
      intro now hnow
      exact hlate.2 now (List.mem_filterMap.2 ⟨w, List.mem_singleton_self w, hnow⟩)
  intro scope a ha b hb hscopeA hliveA hscopeB hliveB
  exact hexclusive scope a ha b hb ⟨hscopeA, hliveA⟩ ⟨hscopeB, hliveB⟩

/-! ## Two jobs of one scope -/

/-- A job of a tenant, who runs one job at a time. -/
def tenantJob (name : String) (revision : Nat) : Job :=
  { Job.new ⟨name⟩ "mail" .epoch with scope := some ⟨"tenant"⟩, revision := revision }

/-- An operator who makes jobs with three retries. -/
def tenantOperator : Operator := ⟨.ofMillis 1, 3⟩

/-- What happens when a new job is scheduled. -/
def scheduling (name : String) : List (Event fun _ => Empty) :=
  [.own ⟨.clock, .epoch⟩, .own ⟨.clock, .epoch⟩,
    .own ⟨.store (.apply [.insert (tenantJob name 0)]), .ok [tenantJob name 1]⟩, .own ⟨.wake, ()⟩]

theorem runs_scheduling {s s' : Store} {name : String}
    (h : s.apply [.insert (tenantJob name 0)] = .ok ([tenantJob name 1], s')) :
    Routine.Runs s (tenantOperator.schedule (tenantJob name 0)) (scheduling name) s'
      (.done (.ok ⟨name⟩)) := by
  refine .own rfl (.own rfl ?_)
  change Routine.Runs _ (Interaction.bind (Transaction.runFrom _
    (.ask (.stage (.insert (tenantJob name 0))) _) _) _) _ _ _
  rw [Transaction.runFrom]
  have hlimit : (Context.stage { now := .epoch } (.insert (tenantJob name 0))).exceeds
      tenantOperator.limit = false := rfl
  change Routine.Runs _ (Interaction.bind (Transaction.runFrom _ (.done (.ok ())) _) _) _ _ _
  rw [Transaction.runFrom, hlimit, if_neg Bool.false_ne_true]
  exact .own (Call.answered_apply h) (.own rfl (.stop _ _))

/-- Five milliseconds after the start of 1970. -/
def soon : Instant := Instant.epoch.afterOrLast (.ofMillis 5)

/-- The first of the tenant's jobs, locked by an engine. -/
def lockedJob : Job := (tenantJob "first" 2).lockedBy ⟨"engine"⟩ soon

/-- What happens when the engine locks the first of the tenant's jobs. -/
def locking : List (Event fun _ => Empty) :=
  [.own ⟨.clock, .epoch⟩,
    .own ⟨.store (.apply [.lock ⟨"first"⟩ 1 ⟨"engine"⟩ soon .epoch]), .ok [lockedJob]⟩]

theorem runs_locking {s s' : Store}
    (h : s.apply [.lock ⟨"first"⟩ 1 ⟨"engine"⟩ soon .epoch] = .ok ([lockedJob], s')) :
    Routine.Runs s
      (Transaction.run (.ofMillis 1) (.lockJob (tenantJob "first" 1) ⟨"engine"⟩ (.ofMillis 5)))
      locking s' (.done (.ok ())) := by
  refine .own rfl ?_
  change Routine.Runs _ (Transaction.runFrom _
    (.ask (.stage (.lock (tenantJob "first" 1) ⟨"engine"⟩ soon)) _) _) _ _ _
  rw [Transaction.runFrom]
  change Routine.Runs _ (Transaction.runFrom _ (.done (.ok ())) _) _ _ _
  rw [Transaction.runFrom, if_neg (by decide)]
  exact .own (Call.answered_apply h) (.stop _ _)

/-- A transaction that went well. -/
def succeeded {β : Type} (b : β) : Strand fun _ => Empty :=
  ⟨.done (.ok b : Except TransactionError β)⟩

/-- Two jobs of the tenant are scheduled, and the first is locked. -/
def tenantTraffic : Traffic fun _ => Empty where
  store := { Store.empty with jobs := (JobTable.empty.put lockedJob).put (tenantJob "second" 1) }
  log := [[.insert (tenantJob "first" 0)], [.insert (tenantJob "second" 0)],
    [.lock ⟨"first"⟩ 1 ⟨"engine"⟩ soon .epoch]]
  strands := [succeeded (), succeeded (JobId.mk "second"), succeeded (JobId.mk "first")]

theorem reachable_tenantTraffic : Reachable Strand.OfCluster tenantTraffic := by
  have hstart : Reachable (ε := fun _ => Empty) Strand.OfCluster ⟨.empty, [], []⟩ := .start
  have hfirst := (hstart.step (.enter (.schedule tenantOperator (tenantJob "first" 0) rfl))).run
    (runs_scheduling rfl) rfl
  have hsecond := (hfirst.step (.enter (.schedule tenantOperator (tenantJob "second" 0) rfl))).run
    (runs_scheduling rfl) rfl
  have hlock := Strand.OfCluster.lockJob (ε := fun _ => Empty) (.ofMillis 1) (tenantJob "first" 1)
    ⟨"engine"⟩ (.ofMillis 5)
  exact (hsecond.step (.enter hlock)).run (runs_locking rfl) rfl

theorem one_live_lock_of_tenant :
    Reachable Strand.OfCluster tenantTraffic ∧ Store.empty.InsertsOnce tenantTraffic.log ∧
      (∀ now ∈ tenantTraffic.log.flatten.filterMap Write.lockTime?, now ≤ soon) ∧
      (∃ a ∈ tenantTraffic.store.jobs.rows, a.Claims ⟨"tenant"⟩ soon) ∧
      ∀ scope, ∀ a ∈ tenantTraffic.store.jobs.rows, ∀ b ∈ tenantTraffic.store.jobs.rows,
        a.exclusivityScope = some scope → a.hasLiveLock soon = true →
        b.exclusivityScope = some scope → b.hasLiveLock soon = true → a = b := by
  have honce : Store.empty.InsertsOnce tenantTraffic.log := by
    unfold Store.InsertsOnce
    decide
  have hlate : ∀ now ∈ tenantTraffic.log.flatten.filterMap Write.lockTime?, now ≤ soon := by
    intro now hnow
    obtain rfl : now = .epoch := List.mem_singleton.1 hnow
    decide
  have hclaims : ∃ a ∈ tenantTraffic.store.jobs.rows, a.Claims ⟨"tenant"⟩ soon :=
    ⟨lockedJob, List.mem_cons_self, rfl, by decide⟩
  exact ⟨reachable_tenantTraffic, honce, hlate, hclaims,
    one_live_lock_per_scope reachable_tenantTraffic honce hlate⟩

end Traffic

end DeferredWork

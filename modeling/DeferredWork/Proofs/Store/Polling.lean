import DeferredWork.Proofs.Store.Batch

set_option autoImplicit false

/-!
# Polls and locks agree

The poll leaves out jobs by a list of the busy scopes that counts all rows, the lock write looks for
another row that occupies the scope.  The two agree: a row without a live lock is in no busy scope
exactly if no other row occupies its scope (`JobTable.isEligible_iff`).  Hence a poll for at least
as many jobs as there are offers a stored job that is due, active and has retries left exactly if a
lock on the job at its stored revision is accepted at that time; and the lock on a job that is not
offered is refused for the lock or the scope that stands against it
(`Store.offers_iff_lock_accepted`).
-/

namespace DeferredWork

variable {t : JobTable} {s : Store} {job : Job} {now : Instant}

/-! ## What a poll leaves out -/

namespace JobTable

theorem mem_poll {limit : Nat} (h : job ∈ t.poll now limit) :
    job ∈ t.rows ∧ t.isEligible now job = true :=
  List.mem_filter.1 (List.mem_mergeSort.1 (List.mem_of_mem_take h))

/-- A poll for at least as many jobs as there are leaves out none that is eligible. -/
theorem mem_poll_iff {limit : Nat} (hlimit : t.rows.length ≤ limit) :
    job ∈ t.poll now limit ↔ job ∈ t.rows ∧ t.isEligible now job = true := by
  have hcut : ((t.rows.filter (t.isEligible now)).mergeSort Job.isPolledBefore).length ≤ limit := by
    rw [List.length_mergeSort]
    exact Nat.le_trans (List.length_filter_le _ _) hlimit
  rw [poll_eq, List.take_of_length_le hcut, List.mem_mergeSort, List.mem_filter]

/-- In whatever order a walk visits the rows, it meets the same busy scopes. -/
theorem mem_busyScopesIn {order : Visiting} {scope : ScopeId} :
    scope ∈ t.busyScopesIn order now ↔
      ∃ row ∈ t.rows, row.hasLiveLock now = true ∧ row.exclusivityScope = some scope := by
  simp only [busyScopesIn, List.mem_filterMap, List.mem_filter, (order.rows_perm _).mem_iff, and_assoc]

theorem mem_busyScopes {scope : ScopeId} :
    scope ∈ t.busyScopes now ↔
      ∃ row ∈ t.rows, row.hasLiveLock now = true ∧ row.exclusivityScope = some scope :=
  mem_busyScopesIn

/-- A scope that is not held by the job itself is busy exactly if another row occupies it. -/
theorem mem_busyScopes_iff_isScopeBusy (hunlocked : job.hasLiveLock now = false)
    (hrow : t.find? job.id = some job) {scope : ScopeId} :
    scope ∈ t.busyScopes now ↔ t.view.isScopeBusy scope job.id now = true := by
  rw [mem_busyScopes, view, List.any_eq_true]
  refine exists_congr fun row => and_congr_right fun hmem => ?_
  simp only [Job.occupies, Bool.and_eq_true, bne_iff_ne, beq_iff_eq]
  constructor
  · rintro ⟨hlive, hscope⟩
    refine ⟨⟨?_, hscope⟩, hlive⟩
    -- The row of the job's own name is the job, and that has no live lock.
    intro heq
    rw [← heq, find?_eq_some_of_mem hmem] at hrow
    obtain rfl := Option.some.inj hrow
    rw [hunlocked] at hlive
    cases hlive
  · rintro ⟨⟨-, hscope⟩, hlive⟩
    exact ⟨hlive, hscope⟩

/-- The poll's look at the scopes is the lock's look at the other rows. -/
theorem isEligible_iff (hrow : t.find? job.id = some job) :
    t.isEligible now job = true ↔
      job.isAcquirable now = true ∧ t.view.busyScope? job now = none := by
  rw [isEligible, isEligibleAmong, Bool.and_eq_true]
  refine and_congr_right fun hacquirable => ?_
  have hunlocked : job.hasLiveLock now = false := by
    simpa using (Bool.and_eq_true_iff.1 hacquirable).2
  unfold View.busyScope?
  cases job.exclusivityScope with
  | none => simp
  | some scope => simp [mem_busyScopes_iff_isScopeBusy hunlocked hrow]

end JobTable

/-! ## What a lock write does -/

namespace Store

/-- A lock on a stored row at its revision is decided by the lock and the scope that stand against
it, and by nothing else. -/
theorem apply_lock_of_stored (havailable : s.available = true)
    (hrow : s.jobs.find? job.id = some job) (owner : Owner) (expiry : Instant) :
    s.apply [.lock job.id job.revision owner expiry now] =
      match s.jobs.view.locked job owner expiry now with
      | .error e => .error e
      | .ok row => .ok ([row], { s with jobs := s.jobs.put row }) := by
  have hcurrent : s.jobs.view.current job.id (.exactly job.revision) = .ok job :=
    View.current_eq_ok_iff.2 ⟨hrow, (Expected.matches_exactly _ _).2 rfl⟩
  rw [apply, applyIn_of_available havailable]
  simp only [JobTable.writeAll, JobTable.write, View.judge, hcurrent]
  cases s.jobs.view.locked job owner expiry now with
  | error e => rfl
  | ok row => rfl

/-! ## Polls and locks -/

/-- A poll at an instant, for a number of jobs, offers the job. -/
def Offers (s : Store) (now : Instant) (limit : Nat) (job : Job) : Prop :=
  ∃ rows, s.findDue now limit = .ok rows ∧ job ∈ rows

theorem offers_iff (havailable : s.available = true) {limit : Nat} :
    s.Offers now limit job ↔ job ∈ s.jobs.poll now limit := by
  rw [Offers, findDue_eq, answer, if_pos havailable]
  constructor
  · rintro ⟨_, ⟨⟩, hmem⟩
    exact hmem
  · intro hmem
    exact ⟨_, rfl, hmem⟩

/-- What a poll offers is stored and can be acquired. -/
theorem Offers.acquirable {limit : Nat} (h : s.Offers now limit job) :
    job ∈ s.jobs.rows ∧ job.isAcquirable now = true := by
  obtain ⟨rows, hrows, hmem⟩ := h
  rw [findDue_eq] at hrows
  unfold answer at hrows
  split at hrows
  · cases hrows
    obtain ⟨hstored, heligible⟩ := JobTable.mem_poll hmem
    exact ⟨hstored, (Bool.and_eq_true_iff.1 heligible).1⟩
  · cases hrows

/-- A stored job that is due, active and has retries left is offered by a poll that has room for all
jobs exactly if a lock on it is accepted.  If it is not offered, the lock is refused because the job
is locked, or else because its scope is busy. -/
theorem offers_iff_lock_accepted (havailable : s.available = true)
    (hrow : s.jobs.find? job.id = some job) (hdue : job.isDue now = true)
    (hactive : job.suspended = false) (hretries : 0 < job.retries) {limit : Nat}
    (hlimit : s.jobs.rows.length ≤ limit) (owner : Owner) (expiry : Instant) :
    (s.Offers now limit job ↔
      ∃ rows s', s.apply [.lock job.id job.revision owner expiry now] = .ok (rows, s')) ∧
    (¬ s.Offers now limit job →
      if job.hasLiveLock now = true then
        s.apply [.lock job.id job.revision owner expiry now] =
          .error (.alreadyLocked job.id (job.owner.getD ⟨"unknown"⟩))
      else ∃ scope, job.exclusivityScope = some scope ∧
        s.apply [.lock job.id job.revision owner expiry now] =
          .error (.scopeBusy job.id scope)) := by
  have hacquirable : job.isAcquirable now = true ↔ job.hasLiveLock now = false := by
    simp [Job.isAcquirable, hdue, hactive, hretries]
  rw [offers_iff havailable, JobTable.mem_poll_iff hlimit,
    and_iff_right (JobTable.mem_of_find? hrow), JobTable.isEligible_iff hrow, hacquirable,
    apply_lock_of_stored havailable hrow, View.locked]
  cases hlive : job.hasLiveLock now with
  | true => simp
  | false =>
    cases hbusy : s.jobs.view.busyScope? job now with
    | none => simp
    | some scope =>
      have hscope : job.exclusivityScope = some scope := by
        unfold View.busyScope? at hbusy
        split at hbusy
        · cases hbusy
        · rename_i found hfound
          split at hbusy
          · rw [hfound, hbusy]
          · cases hbusy
      simp [hscope]

end Store

/-! ## A shared scope -/

/-- A job of the scope of reports. -/
def Job.ofReports (name : String) : Job :=
  { Job.new ⟨name⟩ "mail" .epoch with scope := some ⟨"reports"⟩, revision := 1 }

namespace Store

/-- A store with two jobs of one scope, the first of which is locked until the start of 1970. -/
def ofShared : Store :=
  { empty with
    jobs := (JobTable.empty.put ((Job.ofReports "first").lockedBy ⟨"west"⟩ .epoch)).put
      (Job.ofReports "second") }

/-- The second job of a scope is offered and can be locked once the first one's lock has expired,
and until then is neither. -/
theorem shared_scope_offers_after_expiry :
    (¬ ofShared.Offers .epoch 2 (.ofReports "second") ∧
      ofShared.apply [.lock ⟨"second"⟩ 1 ⟨"east"⟩ .last .epoch] =
        .error (.scopeBusy ⟨"second"⟩ ⟨"reports"⟩)) ∧
    ofShared.Offers .last 2 (.ofReports "second") ∧
      ∃ rows s', ofShared.apply [.lock ⟨"second"⟩ 1 ⟨"east"⟩ .last .last] = .ok (rows, s') := by
  have hrow : ofShared.jobs.find? (Job.ofReports "second").id = some (.ofReports "second") := rfl
  have hlength : ofShared.jobs.rows.length ≤ 2 := Nat.le_refl 2
  have hretries : 0 < (Job.ofReports "second").retries := by decide
  have hdue : (Job.ofReports "second").isDue .epoch = true := rfl
  have hdueLate : (Job.ofReports "second").isDue .last = true := rfl
  have early := offers_iff_lock_accepted rfl hrow hdue rfl hretries hlength ⟨"east"⟩ .last
  have late := offers_iff_lock_accepted rfl hrow hdueLate rfl hretries hlength ⟨"east"⟩ .last
  have hrefused : ofShared.apply [.lock ⟨"second"⟩ 1 ⟨"east"⟩ .last .epoch] =
      .error (.scopeBusy ⟨"second"⟩ ⟨"reports"⟩) := rfl
  have haccepted : ∃ rows s', ofShared.apply [.lock ⟨"second"⟩ 1 ⟨"east"⟩ .last .last] =
      .ok (rows, s') := ⟨_, _, rfl⟩
  refine ⟨⟨fun hoffers => ?_, hrefused⟩, late.1.2 haccepted, haccepted⟩
  obtain ⟨rows, s', hlocked⟩ := early.1.1 hoffers
  rw [show (Job.ofReports "second").id = ⟨"second"⟩ from rfl,
    show (Job.ofReports "second").revision = 1 from rfl, hrefused] at hlocked
  cases hlocked

end Store

end DeferredWork

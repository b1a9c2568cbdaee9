import DeferredWork.Proofs.Cluster.Exclusivity
import DeferredWork.Proofs.Cluster.Fairness

set_option autoImplicit false

/-!
# How long a lock stands

A job that is locked to an owner up to an instant stays so through every fair batch of anybody but
the owner at work on that very job, unless the batch deletes the job without a guard
(`JobTable.IsLockedTo.writeAll`); and no lock is taken on it before that instant has passed
(`JobTable.IsLockedTo.lock`).
-/

namespace DeferredWork.JobTable

variable {t t' : JobTable} {id : JobId} {owner : Owner} {expiry now : Instant}

/-- The job of a name is locked in an owner's name up to an instant. -/
def IsLockedTo (t : JobTable) (id : JobId) (owner : Owner) (expiry : Instant) : Prop :=
  ∃ row, t.find? id = some row ∧ row.owner = some owner ∧ row.lockedUntil = some expiry

theorem IsLockedTo.owner_eq {other : Owner} {later : Instant} (h : t.IsLockedTo id owner expiry)
    (h' : t.IsLockedTo id other later) : owner = other := by
  obtain ⟨row, hrow, howner, -⟩ := h
  obtain ⟨row', hrow', howner', -⟩ := h'
  rw [hrow] at hrow'
  cases hrow'
  rw [howner] at howner'
  exact Option.some.inj howner'

theorem IsLockedTo.isLockedBy {row : Job} (h : t.IsLockedTo id owner expiry)
    (hrow : t.find? id = some row) : row.isLockedBy owner = true := by
  obtain ⟨found, hfound, howner, -⟩ := h
  rw [hrow] at hfound
  cases hfound
  rw [Job.isLockedBy, howner]
  exact beq_self_eq_true (some owner)

/-- Up to its last instant the lock counts. -/
theorem IsLockedTo.hasLiveLock {row : Job} (h : t.IsLockedTo id owner expiry) (hle : now ≤ expiry)
    (hrow : t.find? id = some row) : row.hasLiveLock now = true := by
  obtain ⟨found, hfound, howner, hexpiry⟩ := h
  rw [hrow] at hfound
  cases hfound
  rw [Job.hasLiveLock, howner, hexpiry]
  exact decide_eq_true hle

theorem isLockedTo_of_find?_eq {t t' : JobTable} (hsame : t'.find? id = t.find? id)
    (h : t.IsLockedTo id owner expiry) : t'.IsLockedTo id owner expiry := by
  obtain ⟨row, hrow, hlock⟩ := h
  exact ⟨row, hsame ▸ hrow, hlock⟩

/-! ## Taking locks -/

/-- A lock that is taken stands at first. -/
theorem isLockedTo_of_lock {revision : Nat} {left : Option Job}
    (h : t.write (.lock id revision owner expiry now) = .ok (t', left)) :
    t'.IsLockedTo id owner expiry := by
  obtain ⟨c, hc, rfl, -⟩ := write_eq_ok_iff.1 h
  cases hc with
  | @lock _ before _ _ _ found unlocked alone =>
    refine ⟨{ before.lockedBy owner expiry with revision := before.revision + 1 }, ?_, rfl, rfl⟩
    have hname : before.id = id := id_of_find? found
    rw [change, find?_put]
    exact if_pos hname

/-- Before a lock has expired no other one is taken on its job, and locks on other jobs leave it. -/
theorem IsLockedTo.lock {k : JobId} {revision : Nat} {other : Owner} {later : Instant}
    {left : Option Job} (h : t.IsLockedTo id owner expiry) (hle : now ≤ expiry)
    (hw : t.write (.lock k revision other later now) = .ok (t', left)) :
    k ≠ id ∧ t'.IsLockedTo id owner expiry := by
  have hne : k ≠ id := by
    rintro rfl
    obtain ⟨c, hc, -, -⟩ := write_eq_ok_iff.1 hw
    cases hc with
    | lock found unlocked alone =>
      rw [h.hasLiveLock hle found] at unlocked
      cases unlocked
  exact ⟨hne, isLockedTo_of_find?_eq (find?_of_not_touches hw (beq_eq_false_iff_ne.2 hne)) h⟩

/-- A lock is not taken on a job while another job of its scope has one. -/
theorem IsLockedTo.lt_of_lock {k : JobId} {revision : Nat} {other : Owner} {later : Instant}
    {left : Option Job} {scope : ScopeId} (h : t.IsLockedTo id owner expiry)
    (hscope : ∀ row, t.find? id = some row → row.exclusivityScope = some scope)
    (hscope' : ∀ row, t.find? k = some row → row.exclusivityScope = some scope)
    (hw : t.write (.lock k revision other later now) = .ok (t', left)) : expiry < now := by
  refine Instant.not_le.1 fun hle => ?_
  have hne := (h.lock hle hw).1
  have hlive := fun row (hrow : t.find? id = some row) => h.hasLiveLock hle hrow
  obtain ⟨row, hrow, -⟩ := h
  obtain ⟨hmem, hname⟩ := find?_eq_some_iff.1 hrow
  obtain ⟨c, hc, -, -⟩ := write_eq_ok_iff.1 hw
  cases hc with
  | @lock _ before _ _ _ found unlocked alone =>
    have hother : row.id ≠ before.id := by
      rw [hname, id_of_find? found]
      exact hne.symm
    exact not_claims_of_busyScope?_eq_none (Int.le_refl _) alone (hscope' before found) hmem hother
      ⟨hscope row hrow, hlive row hrow⟩

/-! ## Fair writes -/

variable {terms : Terms} {charge : Option Charge} {known : List Job}

/-- A fair write, but for one of the owner at work on the job, leaves the lock. -/
theorem IsLockedTo.write {w : Write} {left : Option Job} (h : t.IsLockedTo id owner expiry)
    (hw : t.write w = .ok (t', left)) (hreached : ∀ row ∈ known, t.HasReached row)
    (hfair : w.IsFair terms charge known) (hforced : w ≠ .delete id .any)
    (hcharge : charge ≠ some ⟨owner, id⟩) : t'.IsLockedTo id owner expiry := by
  -- The owner's own row is in no other hands.
  have hothers : ∀ row, t.find? id = some row → ¬ row.IsIn charge := by
    rintro row hrow ⟨other, rfl, hlocked⟩
    have hmine := h.isLockedBy hrow
    rw [Job.isLockedBy, beq_iff_eq] at hlocked hmine
    rw [hmine] at hlocked
    rw [id_of_find? hrow, Option.some.inj hlocked] at hcharge
    exact hcharge rfl
  obtain ⟨c, hc, rfl, -⟩ := write_eq_ok_iff.1 hw
  cases hc with
  | @insert job free =>
    refine isLockedTo_of_find?_eq ?_ h
    rw [find?_change, Change.on?, if_neg, Option.getD_none]
    rintro rfl
    obtain ⟨row, hrow, -⟩ := h
    have hnone : t.find? job.id = none := free
    rw [hrow] at hnone
    cases hnone
  | @update job before expected found met =>
    by_cases hid : job.id = id
    · subst hid
      obtain ⟨row, hmem, hname, rfl, hfair⟩ := hfair
      -- Table and writer agree on the revision, so the row that the writer knows is the stored one.
      have hrev : row.revision = before.revision := (Expected.matches_exactly _ _).1 met
      have hfound : t.find? row.id = some before := hname ▸ found
      obtain rfl := (hreached row hmem).eq_of_revision hfound hrev.symm
      have hstored : t.find? job.id = some before := found
      obtain ⟨current, hcurrent, howner, hexpiry⟩ := h
      rw [hstored] at hcurrent
      cases hcurrent
      rcases hfair.lock with ⟨hjobOwner, hjobExpiry⟩ | ⟨-, hin⟩
      · refine ⟨{ job with revision := before.revision + 1 }, ?_, hjobOwner.trans howner,
          hjobExpiry.trans hexpiry⟩
        rw [find?_change, Change.on?]
        exact congrArg (Option.getD · _) (if_pos rfl)
      · exact absurd hin (hothers before hstored)
    · exact isLockedTo_of_find?_eq (find?_of_not_touches hw (beq_eq_false_iff_ne.2 hid)) h
  | lock found unlocked alone => exact hfair.elim
  | @delete k before expected found met =>
    by_cases hid : k = id
    · subst hid
      rcases hfair with ⟨-, rfl⟩ | ⟨row, hmem, hname, rfl, hin⟩
      · exact absurd rfl hforced
      · have hrev : row.revision = before.revision := (Expected.matches_exactly _ _).1 met
        have hfound : t.find? row.id = some before := hname ▸ found
        obtain rfl := (hreached row hmem).eq_of_revision hfound hrev.symm
        exact absurd hin (hothers before found)
    · exact isLockedTo_of_find?_eq (find?_of_not_touches hw (beq_eq_false_iff_ne.2 hid)) h
  | raise => exact h
  | resolve => exact h

/-- A batch of fair writes, but for one of the owner at work on the job, leaves the lock. -/
theorem IsLockedTo.writeAll {ws : List Write} {rows : List Job} (h : t.IsLockedTo id owner expiry)
    (hws : t.writeAll ws = .ok (t', rows)) (hreached : ∀ row ∈ known, t.HasReached row)
    (hins : ∀ row ∈ known, ∀ w ∈ ws, row.id ∉ w.inserted)
    (hfair : ∀ w ∈ ws, w.IsFair terms charge known) (hforced : .delete id .any ∉ ws)
    (hcharge : charge ≠ some ⟨owner, id⟩) : t'.IsLockedTo id owner expiry := by
  refine (writeAll_preserves
    (P := fun t => t.IsLockedTo id owner expiry ∧ ∀ row ∈ known, t.HasReached row) ?_ hws
    ⟨h, hreached⟩).1
  rintro w hmem t t' left hw ⟨hlocked, hreached⟩
  have hnot : w ≠ .delete id .any := by
    rintro rfl
    exact hforced hmem
  exact ⟨hlocked.write hw hreached (hfair w hmem) hnot hcharge,
    fun row hrow => (hreached row hrow).write hw (hins row hrow w hmem)⟩

/-! ## Locks in an owner's name -/

/-- If the job of a name is locked in an owner's name, then up to an instant. -/
def LockedOnlyUntil (t : JobTable) (id : JobId) (owner : Owner) (expiry : Instant) : Prop :=
  ∀ row, t.find? id = some row → row.isLockedBy owner = true → row.lockedUntil = some expiry

theorem IsLockedTo.lockedOnlyUntil (h : t.IsLockedTo id owner expiry) :
    t.LockedOnlyUntil id owner expiry := by
  obtain ⟨found, hfound, -, hexpiry⟩ := h
  intro row hrow _
  rw [hfound] at hrow
  cases hrow
  exact hexpiry

theorem lockedOnlyUntil_of_find?_eq (hsame : t'.find? id = t.find? id)
    (h : t.LockedOnlyUntil id owner expiry) : t'.LockedOnlyUntil id owner expiry := by
  rwa [LockedOnlyUntil, hsame]

/-- A lock in another name leaves no lock in the owner's. -/
theorem LockedOnlyUntil.lock {k : JobId} {revision : Nat} {other : Owner} {later : Instant}
    {left : Option Job} (h : t.LockedOnlyUntil id owner expiry) (hne : other ≠ owner)
    (hw : t.write (.lock k revision other later now) = .ok (t', left)) :
    t'.LockedOnlyUntil id owner expiry := by
  by_cases hid : k = id
  · subst hid
    obtain ⟨row, hrow, howner, -⟩ := isLockedTo_of_lock hw
    intro found hfound hlocked
    rw [hrow] at hfound
    cases hfound
    rw [Job.isLockedBy, howner, beq_iff_eq] at hlocked
    exact absurd (Option.some.inj hlocked) hne
  · exact lockedOnlyUntil_of_find?_eq (find?_of_not_touches hw (beq_eq_false_iff_ne.2 hid)) h

/-- A fair write takes no lock. -/
theorem LockedOnlyUntil.write {w : Write} {left : Option Job}
    (h : t.LockedOnlyUntil id owner expiry) (hw : t.write w = .ok (t', left))
    (hreached : ∀ row ∈ known, t.HasReached row) (hfair : w.IsFair terms charge known)
    (hins : id ∉ w.inserted) : t'.LockedOnlyUntil id owner expiry := by
  cases htouch : w.touches id with
  | false => exact lockedOnlyUntil_of_find?_eq (find?_of_not_touches hw htouch) h
  | true =>
    obtain ⟨c, hc, rfl, -⟩ := write_eq_ok_iff.1 hw
    cases hc with
    | @insert job free =>
      obtain rfl : job.id = id := beq_iff_eq.1 htouch
      exact absurd (List.mem_singleton_self _) hins
    | @update job before expected found met =>
      obtain rfl : job.id = id := beq_iff_eq.1 htouch
      obtain ⟨row, hmem, hname, rfl, hfair⟩ := hfair
      -- Table and writer agree on the revision, so the row that the writer knows is the stored one.
      have hrev : row.revision = before.revision := (Expected.matches_exactly _ _).1 met
      have hfound : t.find? row.id = some before := hname ▸ found
      obtain rfl := (hreached row hmem).eq_of_revision hfound hrev.symm
      intro stored hstored hlocked
      rw [find?_change, Change.on?] at hstored
      obtain rfl : { job with revision := before.revision + 1 } = stored :=
        Option.some.inj ((congrArg (Option.getD · _) (if_pos rfl)).symm.trans hstored)
      have howner : job.isLockedBy owner = true := hlocked
      rcases hfair.lock with ⟨hsame, hexpiry⟩ | ⟨hnone, -⟩
      · rw [Job.isLockedBy, hsame] at howner
        exact hexpiry.trans (h before found howner)
      · rw [Job.isLockedBy, hnone] at howner
        cases howner
    | lock found unlocked alone => exact hfair.elim
    | @delete k before expected found met =>
      obtain rfl : k = id := beq_iff_eq.1 htouch
      intro stored hstored
      rw [find?_change, Change.on?] at hstored
      cases (congrArg (Option.getD · _) (if_pos rfl)).symm.trans hstored
    | raise => exact h
    | resolve => exact h

/-- A batch of fair writes takes no lock. -/
theorem LockedOnlyUntil.writeAll {ws : List Write} {rows : List Job}
    (h : t.LockedOnlyUntil id owner expiry) (hws : t.writeAll ws = .ok (t', rows))
    (hreached : ∀ row ∈ known, t.HasReached row)
    (hins : ∀ row ∈ known, ∀ w ∈ ws, row.id ∉ w.inserted)
    (hfair : ∀ w ∈ ws, w.IsFair terms charge known) (hnew : ∀ w ∈ ws, id ∉ w.inserted) :
    t'.LockedOnlyUntil id owner expiry := by
  refine (writeAll_preserves
    (P := fun t => t.LockedOnlyUntil id owner expiry ∧ ∀ row ∈ known, t.HasReached row) ?_ hws
    ⟨h, hreached⟩).1
  rintro w hmem t t' left hw ⟨hlocked, hreached⟩
  exact ⟨hlocked.write hw hreached (hfair w hmem) (hnew w hmem),
    fun row hrow => (hreached row hrow).write hw (hins row hrow w hmem)⟩

end DeferredWork.JobTable

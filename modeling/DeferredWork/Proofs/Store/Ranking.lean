import Mathlib.Data.Set.Card
import DeferredWork.Proofs.Store.Polling

set_option autoImplicit false

/-!
# What a poll returns

Jobs are ranked by priority, due date, creation and name, so that of two jobs with different names
one outranks the other (`Job.outranks_or_outranks`).  A poll returns the eligible jobs that outrank
all other eligible ones, as many as it is asked for, each once and in their order; and it returns the
same jobs in whatever order the walks through the table visit the rows (`Store.findDue_best`).
-/

namespace DeferredWork

/-! ## The rank of a job -/

namespace Job

variable {a b c : Job}

/-- The job has to be done earlier.  No due date counts as earlier than any. -/
def IsDueBefore (a b : Job) : Prop :=
  match a.due, b.due with
  | none, some _ => True
  | some x, some y => x < y
  | _, none => False

/-- The first job comes before the second: by a higher priority, and between equals by an earlier due
date, then by an earlier creation, and then by the order of the names. -/
def Outranks (a b : Job) : Prop :=
  b.priority < a.priority ∨ (a.priority = b.priority ∧ (a.IsDueBefore b ∨ (a.due = b.due ∧
    (a.created < b.created ∨ (a.created = b.created ∧ a.id < b.id)))))

theorem isDueBefore_iff : a.IsDueBefore b ↔ compareOn due a b = .lt := by
  unfold IsDueBefore compareOn
  cases a.due with
  | none => cases b.due <;> simp [compare]
  | some x =>
    cases b.due with
    | none => simp [compare]
    | some y => exact Int.compare_eq_lt.symm

/-- The rank is what the poll sorts by. -/
theorem outranks_iff : a.Outranks b ↔ a.pollOrder b = .lt := by
  have hpriority : compareOn (fun job : Job => -job.priority) a b = .lt ↔ b.priority < a.priority := by
    rw [compareOn, Int.compare_eq_lt]
    omega
  have hlevel : compareOn (fun job : Job => -job.priority) a b = .eq ↔ a.priority = b.priority := by
    rw [compareOn, Int.compare_eq_eq]
    omega
  have hdue : compareOn due a b = .eq ↔ a.due = b.due := by
    rw [compareOn, Std.compare_eq_iff_eq]
  have hcreated : compareOn created a b = .lt ↔ a.created < b.created := Int.compare_eq_lt
  have hsame : compareOn created a b = .eq ↔ a.created = b.created := by
    rw [compareOn, Std.compare_eq_iff_eq]
  have hname : compareOn id a b = .lt ↔ a.id < b.id := compareOfLessAndEq_eq_lt
  simp only [pollOrder, compareLex, Ordering.then_eq_lt, hpriority, hlevel, ← isDueBefore_iff, hdue,
    hcreated, hsame, hname, Outranks]

theorem Outranks.trans (hab : a.Outranks b) (hbc : b.Outranks c) : a.Outranks c := by
  rw [outranks_iff] at hab hbc ⊢
  exact Std.TransCmp.lt_trans hab hbc

theorem Outranks.asymm (hab : a.Outranks b) : ¬ b.Outranks a := by
  rw [outranks_iff] at hab ⊢
  rw [Std.OrientedCmp.gt_of_lt hab]
  exact nofun

theorem Outranks.ne (hab : a.Outranks b) : a ≠ b := by
  rintro rfl
  exact hab.asymm hab

/-- Jobs that the poll sorts, and that have different names, are ranked. -/
theorem outranks_of_isPolledBefore (h : a.isPolledBefore b = true) (hne : a.id ≠ b.id) :
    a.Outranks b := by
  rw [outranks_iff]
  rcases Ordering.isLE_iff_eq_lt_or_eq_eq.1 h with hlt | hlevel
  · exact hlt
  · exact absurd (id_eq_of_level hlevel) hne

theorem outranks_or_outranks (hne : a.id ≠ b.id) : a.Outranks b ∨ b.Outranks a := by
  rcases Bool.or_eq_true_iff.1 (a.isPolledBefore_total b) with hab | hba
  · exact .inl (outranks_of_isPolledBefore hab hne)
  · exact .inr (outranks_of_isPolledBefore hba hne.symm)

/-- Jobs with different names, sorted for the poll, are strictly ranked. -/
theorem pairwise_outranks_mergeSort {jobs : List Job} (hnames : jobs.Pairwise fun a b => a.id ≠ b.id) :
    (jobs.mergeSort isPolledBefore).Pairwise Outranks := by
  have hsorted := List.pairwise_mergeSort isPolledBefore_trans isPolledBefore_total jobs
  have hdistinct : (jobs.mergeSort isPolledBefore).Pairwise fun a b => a.id ≠ b.id :=
    (List.mergeSort_perm jobs _).symm.pairwise hnames Ne.symm
  exact (hsorted.and hdistinct).imp fun ⟨h, hne⟩ => outranks_of_isPolledBefore h hne

end Job

/-! ## Eligible jobs -/

namespace JobTable

variable {t : JobTable} {now : Instant} {job : Job}

/-- The job is stored, and can be acquired at the time: it is due, active, with retries left and not
held by a live lock, and no job that runs exclusively in its scope holds a live lock. -/
structure Eligible (t : JobTable) (now : Instant) (job : Job) : Prop where
  stored : job ∈ t.rows
  due : job.isDue now = true
  active : job.suspended = false
  retries : 0 < job.retries
  unlocked : job.hasLiveLock now = false
  free : ∀ scope, job.exclusivityScope = some scope →
    ∀ row ∈ t.rows, row.exclusivityScope = some scope → row.hasLiveLock now = false

theorem isEligibleAmong_iff {busy : List ScopeId} :
    isEligibleAmong busy now job = true ↔
      job.isAcquirable now = true ∧ ∀ scope, job.exclusivityScope = some scope → scope ∉ busy := by
  unfold isEligibleAmong
  cases job.exclusivityScope <;> simp

/-- What the poll looks at is what makes a job eligible, in whatever order it looks for busy
scopes. -/
theorem eligible_iff (order : Visiting) :
    t.Eligible now job ↔
      job ∈ t.rows ∧ isEligibleAmong (t.busyScopesIn order now) now job = true := by
  have hfree : ∀ scope, scope ∉ t.busyScopesIn order now ↔
      ∀ row ∈ t.rows, row.exclusivityScope = some scope → row.hasLiveLock now = false := by
    intro scope
    rw [mem_busyScopesIn]
    constructor
    · intro hnone row hrow hscope
      exact Bool.eq_false_iff.2 fun hlive => hnone ⟨row, hrow, hlive, hscope⟩
    · rintro hall ⟨row, hrow, hlive, hscope⟩
      rw [hall row hrow hscope] at hlive
      cases hlive
  rw [isEligibleAmong_iff, Job.isAcquirable]
  simp only [Bool.and_eq_true, decide_eq_true_eq, Bool.not_eq_true', hfree]
  constructor
  · rintro ⟨stored, due, active, retries, unlocked, free⟩
    exact ⟨stored, ⟨⟨⟨due, active⟩, retries⟩, unlocked⟩, free⟩
  · rintro ⟨stored, ⟨⟨⟨due, active⟩, retries⟩, unlocked⟩, free⟩
    exact ⟨stored, due, active, retries, unlocked, free⟩

theorem mem_filter_isEligible : job ∈ t.rows.filter (t.isEligible now) ↔ t.Eligible now job :=
  List.mem_filter.trans (eligible_iff .asKept).symm

theorem pairwise_id_ne (t : JobTable) : t.rows.Pairwise fun a b => a.id ≠ b.id := by
  refine t.sorted.imp fun hlt heq => ?_
  rw [heq] at hlt
  exact JobId.lt_irrefl _ hlt

/-- In whatever orders the walks visit the rows, the same jobs are found to be eligible. -/
theorem filter_isEligible_perm (scopes jobs : Visiting) (t : JobTable) (now : Instant) :
    ((jobs.rows t.rows).filter (isEligibleAmong (t.busyScopesIn scopes now) now)).Perm
      (t.rows.filter (t.isEligible now)) := by
  refine ((jobs.rows_perm t.rows).filter _).trans (List.Perm.of_eq (List.filter_congr ?_))
  intro job hmem
  have hwalk : t.Eligible now job ↔ _ := eligible_iff scopes
  exact Bool.eq_iff_iff.2 (and_congr_right_iff.1 (hwalk.symm.trans (eligible_iff .asKept)) hmem)

/-- The eligible jobs in the order of their ranks. -/
def ranking (t : JobTable) (now : Instant) : List Job :=
  (t.rows.filter (t.isEligible now)).mergeSort Job.isPolledBefore

theorem pairwise_ranking (t : JobTable) (now : Instant) : (t.ranking now).Pairwise Job.Outranks :=
  Job.pairwise_outranks_mergeSort (t.pairwise_id_ne.filter _)

theorem mem_ranking : job ∈ t.ranking now ↔ t.Eligible now job :=
  List.mem_mergeSort.trans mem_filter_isEligible

theorem length_ranking (t : JobTable) (now : Instant) :
    (t.ranking now).length = {job | t.Eligible now job}.ncard := by
  have hset : {job | t.Eligible now job} = ((t.ranking now).toFinset : Set Job) := by
    ext job
    rw [List.coe_toFinset, Set.mem_ofPred_eq, Set.mem_ofPred_eq, mem_ranking]
  have hnodup : (t.ranking now).Nodup := (t.pairwise_ranking now).imp Job.Outranks.ne
  rw [hset, Set.ncard_coe_finset, List.toFinset_card_of_nodup hnodup]

/-- In whatever orders the walks visit the rows, a poll returns the first jobs of the ranking. -/
theorem pollIn_eq (scopes jobs : Visiting) (t : JobTable) (now : Instant) (limit : Nat) :
    t.pollIn scopes jobs now limit = (t.ranking now).take limit := by
  have hperm := t.filter_isEligible_perm scopes jobs now
  rw [pollIn]
  congr 1
  -- Both lists are strictly ranked, so there is no second order for the same jobs.
  refine List.Perm.eq_of_pairwise (fun a b _ _ hab hba => absurd hba hab.asymm) ?_
    (t.pairwise_ranking now) (((List.mergeSort_perm _ _).trans hperm).trans
      (List.mergeSort_perm _ _).symm)
  exact Job.pairwise_outranks_mergeSort
    (hperm.symm.pairwise (t.pairwise_id_ne.filter _) Ne.symm)

/-- A poll returns the first jobs of the ranking. -/
theorem poll_eq_take (t : JobTable) (now : Instant) (limit : Nat) :
    t.poll now limit = (t.ranking now).take limit := t.poll_eq now limit

/-- A poll returns each job once. -/
theorem nodup_poll (t : JobTable) (now : Instant) (limit : Nat) :
    ((t.poll now limit).map Job.id).Nodup := by
  have hnames : (t.ranking now).Pairwise fun a b => a.id ≠ b.id :=
    (List.mergeSort_perm _ _).symm.pairwise (t.pairwise_id_ne.filter _) Ne.symm
  rw [poll_eq_take, List.Nodup, List.pairwise_map]
  exact hnames.sublist (List.take_sublist limit _)

/-- A poll returns a job of some kind exactly if an eligible job of the kind is outranked by fewer
eligible jobs of another kind than the poll may return. -/
theorem exists_mem_poll_iff (t : JobTable) (now : Instant) (limit : Nat) (P : Job → Prop) :
    (∃ job ∈ t.poll now limit, P job) ↔ ∃ job, t.Eligible now job ∧ P job ∧
      {rival | t.Eligible now rival ∧ rival.Outranks job ∧ ¬ P rival}.ncard < limit := by
  have hranked := t.pairwise_ranking now
  rw [poll_eq_take]
  constructor
  · rintro ⟨job, hmem, hkind⟩
    obtain ⟨before, after, hsplit⟩ := List.append_of_mem hmem
    have hall : t.ranking now = before ++ job :: (after ++ (t.ranking now).drop limit) := by
      rw [← List.cons_append, ← List.append_assoc, ← hsplit, List.take_append_drop]
    -- Only what stands before the job outranks it.
    have hrivals : {rival | t.Eligible now rival ∧ rival.Outranks job ∧ ¬ P rival} ⊆
        (before.toFinset : Set Job) := by
      rintro rival ⟨heligible, houtranks, -⟩
      rw [hall] at hranked
      have hrival := mem_ranking.2 heligible
      rw [hall, List.mem_append, List.mem_cons] at hrival
      obtain ⟨-, hfrom, -⟩ := List.pairwise_append.1 hranked
      rcases hrival with hrival | rfl | hrival
      · exact List.mem_toFinset.2 hrival
      · exact absurd houtranks houtranks.asymm
      · exact absurd houtranks ((List.pairwise_cons.1 hfrom).1 rival hrival).asymm
    have hlength : before.length < limit := by
      have htaken := List.length_take_le limit (t.ranking now)
      rw [hsplit, List.length_append, List.length_cons] at htaken
      omega
    refine ⟨job, mem_ranking.1 (List.mem_of_mem_take hmem), hkind, lt_of_le_of_lt ?_ hlength⟩
    refine (Set.ncard_le_ncard hrivals (Finset.finite_toSet _)).trans ?_
    rw [Set.ncard_coe_finset]
    exact List.toFinset_card_le before
  · rintro ⟨job, heligible, hkind, hfew⟩
    by_contra hnone
    push Not at hnone
    have hmem := mem_ranking.2 heligible
    rw [← List.take_append_drop limit (t.ranking now), List.mem_append] at hmem
    have hleft := hmem.resolve_left fun htaken => hnone job htaken hkind
    rw [← List.take_append_drop limit (t.ranking now)] at hranked
    obtain ⟨hbest, -, hcross⟩ := List.pairwise_append.1 hranked
    -- The jobs that are returned instead all outrank it.
    have hrivals : (((t.ranking now).take limit).toFinset : Set Job) ⊆
        {rival | t.Eligible now rival ∧ rival.Outranks job ∧ ¬ P rival} := by
      intro rival hrival
      have htaken := List.mem_toFinset.1 hrival
      exact ⟨mem_ranking.1 (List.mem_of_mem_take htaken), hcross rival htaken job hleft,
        hnone rival htaken⟩
    have hfinite : {rival | t.Eligible now rival ∧ rival.Outranks job ∧ ¬ P rival}.Finite :=
      (Finset.finite_toSet (t.ranking now).toFinset).subset fun rival hrival =>
        List.mem_toFinset.2 (mem_ranking.2 hrival.1)
    have hcount := Set.ncard_le_ncard hrivals hfinite
    rw [Set.ncard_coe_finset, List.toFinset_card_of_nodup (hbest.imp Job.Outranks.ne),
      List.length_take] at hcount
    have hlong := List.length_pos_of_mem hleft
    rw [List.length_drop] at hlong
    omega

end JobTable

/-! ## Polls -/

/-- A poll of the store returns a list of best jobs, unless the store is out of reach.  The list holds
stored jobs that are eligible, each once; it holds as many of them as it may, and all if there are
fewer; each job in it outranks those behind it, and every eligible job that is left out.  Walks through
the rows may visit them in any order: the list is the same. -/
theorem Store.findDue_best (s : Store) (now : Instant) (limit : Nat) :
    ∃ best : List Job, s.findDue now limit = s.answer best ∧
      (∀ scopes jobs : Visiting, s.findDueIn scopes jobs now limit = s.answer best) ∧
      (∀ job ∈ best, s.jobs.Eligible now job) ∧ best.Nodup ∧
      best.length = min limit {job | s.jobs.Eligible now job}.ncard ∧
      best.Pairwise Job.Outranks ∧
      ∀ job, s.jobs.Eligible now job → job ∉ best → ∀ taken ∈ best, taken.Outranks job := by
  have hranked := s.jobs.pairwise_ranking now
  have hpoll : ∀ scopes jobs : Visiting, s.findDueIn scopes jobs now limit =
      s.answer ((s.jobs.ranking now).take limit) := fun scopes jobs => by
    rw [findDueIn, JobTable.pollIn_eq]
  have hbest := hranked.sublist (List.take_sublist limit _)
  refine ⟨(s.jobs.ranking now).take limit, hpoll _ _, hpoll, ?_, hbest.imp Job.Outranks.ne, ?_, hbest,
    ?_⟩
  · exact fun job hmem => JobTable.mem_ranking.1 (List.mem_of_mem_take hmem)
  · rw [List.length_take, JobTable.length_ranking]
  · intro job heligible hout taken htaken
    have hmem := JobTable.mem_ranking.2 heligible
    rw [← List.take_append_drop limit (s.jobs.ranking now)] at hmem hranked
    have hleft := (List.mem_append.1 hmem).resolve_left hout
    exact (List.pairwise_append.1 hranked).2.2 taken htaken job hleft

end DeferredWork

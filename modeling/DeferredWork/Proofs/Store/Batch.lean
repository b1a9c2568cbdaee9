import DeferredWork.Engine.Routine
import DeferredWork.Entries
import DeferredWork.Proofs.Store.Serial

set_option autoImplicit false

/-!
# Batches are single writes in order

A batch is checked against staged rows and its incident writes wait until the end.  This module
shows that neither can be seen from outside: the staged rows show at each write what the table would
hold had the writes before it been made (`Overlay.Shows`), whatever order walks through the rows
take.  So a batch leaves exactly what its writes leave that are made one at a time, each as a batch
of its own; and if one of those is refused, the batch is refused for the same reason and leaves
nothing.
-/

namespace DeferredWork

/-! ## Walks through the rows -/

namespace JobTable

theorem isScopeBusy_view_iff {t : JobTable} {scope : ScopeId} {except : JobId} {now : Instant} :
    t.view.isScopeBusy scope except now = true ↔
      ∃ id job, t.find? id = some job ∧ job.occupies scope except now = true := by
  rw [view, List.any_eq_true]
  constructor
  · rintro ⟨job, hmem, hjob⟩
    exact ⟨job.id, job, find?_eq_some_of_mem hmem, hjob⟩
  · rintro ⟨id, job, hfind, hjob⟩
    exact ⟨job, mem_of_find? hfind, hjob⟩

end JobTable

namespace Overlay

/-- What is staged does not depend on the order in which it is visited. -/
theorem lookup_visited (o : Overlay) (order : Visiting) (id : JobId) :
    (order.staged o.staged).lookup id = o.stagedFor? id :=
  (lookup_eq_of_perm o.nodup (order.staged_perm o.staged).symm id).symm

theorem find?_eq (o : Overlay) (id : JobId) :
    o.find? id = (o.stagedFor? id).getD (o.base.find? id) := by
  unfold find?
  cases o.stagedFor? id with
  | none => rfl
  | some row => rfl

theorem isScopeBusy_iff {o : Overlay} {order : Visiting} {scope : ScopeId} {except : JobId}
    {now : Instant} :
    o.isScopeBusy order scope except now = true ↔
      ∃ id job, o.find? id = some job ∧ job.occupies scope except now = true := by
  have hstaged (entry : JobId × Option Job) :
      entry ∈ order.staged o.staged ↔ o.stagedFor? entry.1 = some entry.2 := by
    rw [(order.staged_perm o.staged).mem_iff, stagedFor?, lookup_eq_some_iff_mem o.nodup]
  have hrows (job : Job) : job ∈ order.rows o.base.rows ↔ o.base.find? job.id = some job := by
    rw [(order.rows_perm o.base.rows).mem_iff, JobTable.find?_eq_some_iff, and_iff_left rfl]
  simp only [isScopeBusy, Bool.or_eq_true, List.any_eq_true, Option.any_eq_true, Bool.and_eq_true,
    Option.isNone_iff_eq_none, find?_eq]
  constructor
  · rintro (⟨⟨id, _⟩, hmem, job, rfl, hjob⟩ | ⟨job, hmem, hnone, hjob⟩)
    · exact ⟨id, job, by rw [(hstaged _).1 hmem]; rfl, hjob⟩
    · exact ⟨job.id, job, by rw [hnone]; exact (hrows job).1 hmem, hjob⟩
  · rintro ⟨id, job, hfind, hjob⟩
    cases hentry : o.stagedFor? id with
    | some row =>
      rw [hentry, Option.getD_some] at hfind
      exact .inl ⟨(id, row), (hstaged _).2 hentry, job, hfind, hjob⟩
    | none =>
      rw [hentry, Option.getD_none] at hfind
      obtain rfl := JobTable.id_of_find? hfind
      exact .inr ⟨job, (hrows job).2 hfind, hentry, hjob⟩

/-! ## What is staged shows what the table would hold -/

/-- The staged rows over their table answer for each name as another table does. -/
def Shows (o : Overlay) (t : JobTable) : Prop := ∀ id, o.find? id = t.find? id

theorem shows_unstaged (t : JobTable) : (unstaged t).Shows t := fun _ => rfl

theorem Shows.view_eq {o : Overlay} {t : JobTable} (h : o.Shows t) (order : Visiting) :
    o.view order = t.view := by
  have hfind : o.find? = t.find? := funext h
  have hbusy : o.isScopeBusy order = t.view.isScopeBusy := by
    funext scope except now
    rw [Bool.eq_iff_iff, isScopeBusy_iff, JobTable.isScopeBusy_view_iff]
    simp only [h _]
  rw [view, hfind, hbusy]
  rfl

theorem stagedFor?_stage (o : Overlay) (id k : JobId) (row : Option Job)
    (h : ∀ job, row = some job → job.id = id) :
    (o.stage id row h).stagedFor? k = if id = k then some row else o.stagedFor? k := by
  apply Option.ext
  intro found
  have hmem : (k, found) ∈ (o.stage id row h).staged ↔
      (k, found) = (id, row) ∨ (k, found) ∈ o.staged ∧ k ≠ id := by
    simp [stage]
  rw [stagedFor?, lookup_eq_some_iff_mem (o.stage id row h).nodup, hmem]
  split
  · rename_i heq
    subst heq
    simp [eq_comm]
  · rename_i hne
    rw [stagedFor?, lookup_eq_some_iff_mem o.nodup]
    simp [Ne.symm hne]

theorem find?_change (o : Overlay) (c : Change) (id : JobId) :
    (o.change c).find? id = (c.on? id).getD (o.find? id) := by
  cases c with
  | put row =>
    rw [find?_eq, change, stagedFor?_stage, Change.on?]
    split
    · rfl
    · rw [find?_eq]; rfl
  | erase k =>
    rw [find?_eq, change, stagedFor?_stage, Change.on?]
    split
    · rfl
    · rw [find?_eq]; rfl
  | keep => rfl

theorem Shows.change {o : Overlay} {t : JobTable} (h : o.Shows t) (c : Change) :
    (o.change c).Shows (t.change c) := by
  intro id
  rw [find?_change, JobTable.find?_change, h id]

/-- Entries for different names take effect on their names alone, so their order does not matter. -/
theorem find?_settled {entries : List (JobId × Option Job)} (t : JobTable)
    (hnodup : (entries.map Prod.fst).Nodup)
    (hnamed : ∀ entry ∈ entries, ∀ row, entry.2 = some row → row.id = entry.1) (id : JobId) :
    ((entries.map settle).foldl JobTable.change t).find? id =
      (entries.lookup id).getD (t.find? id) := by
  induction entries generalizing t with
  | nil => rfl
  | cons entry rest ih =>
    obtain ⟨k, row⟩ := entry
    obtain ⟨hk, hrest⟩ := List.nodup_cons.1 hnodup
    have hon : (settle (k, row)).on? id = if k = id then some row else none := by
      cases row with
      | none => rfl
      | some job => rw [settle, Change.on?, hnamed (k, some job) List.mem_cons_self job rfl]
    rw [List.map_cons, List.foldl_cons,
      ih _ hrest fun entry hmem => hnamed entry (List.mem_cons_of_mem _ hmem),
      JobTable.find?_change, hon, List.lookup_cons]
    by_cases h : k = id
    · subst h
      have hnone : rest.lookup k = none := by
        rw [List.lookup_eq_none_iff]
        intro entry hmem
        exact bne_iff_ne.2 fun heq => hk (List.mem_map.2 ⟨entry, hmem, heq.symm⟩)
      simp [hnone]
    · have hne : (id == k) = false := beq_eq_false_iff_ne.2 (Ne.symm h)
      simp [h, hne]

theorem Shows.commit_eq {o : Overlay} {t : JobTable} (h : o.Shows t) (order : Visiting) :
    o.commit order = t := by
  have hperm := order.staged_perm o.staged
  apply JobTable.ext_of_find?
  intro id
  rw [commit, find?_settled o.base ((hperm.map Prod.fst).nodup_iff.2 o.nodup)
    (fun entry hmem => o.named entry (hperm.mem_iff.1 hmem)), lookup_visited, ← find?_eq, h id]

/-- Staging a batch goes as making its writes on the table itself goes. -/
theorem Shows.writeAll {o : Overlay} {t : JobTable} (h : o.Shows t) (orders : Nat → Visiting)
    (ws : List Write) :
    match t.writeAll ws with
    | .error e => o.writeAll orders ws = .error e
    | .ok (t', rows) => ∃ o', o.writeAll orders ws = .ok (o', rows) ∧ o'.Shows t' := by
  induction ws generalizing o t with
  | nil => exact ⟨o, rfl, h⟩
  | cons w ws ih =>
    simp only [JobTable.writeAll, JobTable.write, Overlay.writeAll, h.view_eq]
    -- Both sides now ask the same view for the same verdict.
    cases t.view.judge w with
    | error e => rfl
    | ok c =>
      have hrest := ih (h.change c)
      simp only
      cases hws : (t.change c).writeAll ws with
      | error e =>
        rw [hws] at hrest
        simp only [hrest]
      | ok result =>
        obtain ⟨t', rows⟩ := result
        rw [hws] at hrest
        obtain ⟨o', ho', hshows⟩ := hrest
        exact ⟨o', by simp only [ho'], hshows⟩

end Overlay

/-! ## What a batch leaves -/

namespace Store

theorem applyIn_of_available {s : Store} (h : s.available = true) (orders : Nat → Visiting)
    (ws : List Write) :
    s.applyIn orders ws =
      match s.jobs.writeAll ws with
      | .error e => .error e
      | .ok (jobs, rows) =>
        .ok (rows,
          { s with jobs := jobs, incidents := ws.foldl Incident.writeAmong s.incidents }) := by
  cases ws with
  | nil => rfl
  | cons w ws =>
    have hstaged := (Overlay.shows_unstaged s.jobs).writeAll orders (w :: ws)
    simp only [applyIn, h, if_true]
    cases hws : s.jobs.writeAll (w :: ws) with
    | error e =>
      rw [hws] at hstaged
      simp only [hstaged]
    | ok result =>
      obtain ⟨t', rows⟩ := result
      rw [hws] at hstaged
      obtain ⟨o', ho', hshows⟩ := hstaged
      simp only [ho', hshows.commit_eq]

theorem applyIn_of_not_available {s : Store} (h : s.available = false) (orders : Nat → Visiting)
    (w : Write) (ws : List Write) : s.applyIn orders (w :: ws) = .error outOfReach := by
  simp [applyIn, h]

/-- Nothing shows in which order walks through the rows visit. -/
theorem applyIn_eq_apply (s : Store) (orders : Nat → Visiting) (ws : List Write) :
    s.applyIn orders ws = s.apply ws := by
  cases ws with
  | nil => rfl
  | cons w ws =>
    cases h : s.available with
    | false => rw [apply, applyIn_of_not_available h, applyIn_of_not_available h]
    | true => rw [apply, applyIn_of_available h, applyIn_of_available h]

/-- A batch that is accepted makes its writes on the table, and leaves the rows that they leave. -/
theorem writeAll_of_apply {s s' : Store} {ws : List Write} {rows : List Job}
    (h : s.apply ws = .ok (rows, s')) : s.jobs.writeAll ws = .ok (s'.jobs, rows) := by
  cases ws with
  | nil =>
    cases h
    rfl
  | cons w ws =>
    cases havailable : s.available with
    | false =>
      rw [apply, applyIn_of_not_available havailable] at h
      cases h
    | true =>
      rw [apply, applyIn_of_available havailable] at h
      cases hws : s.jobs.writeAll (w :: ws) with
      | error e =>
        rw [hws] at h
        cases h
      | ok result =>
        obtain ⟨t, left⟩ := result
        rw [hws] at h
        cases h
        rfl

/-! ## Batches of one -/

/-- The outcome of a step and the store after it. -/
abbrev Outcome : Type := Except StoreError (List Job) × Store

/-- A step and, unless it is refused, another one after it; the rows of both in order. -/
def Outcome.andThen (result : Outcome) (next : Store → Outcome) : Outcome :=
  match result with
  | (.error e, s) => (.error e, s)
  | (.ok rows, s) =>
    match next s with
    | (.error e, s) => (.error e, s)
    | (.ok more, s) => (.ok (rows ++ more), s)

/-- The outcome of steps from a store, with the store put back if one of them was refused. -/
def Outcome.orBack (s : Store) : Outcome → Outcome
  | (.error e, _) => (.error e, s)
  | (.ok rows, s') => (.ok rows, s')

/-- Writes made one at a time, each as a batch of its own, up to the first that is refused. -/
def applyEach (s : Store) : List Write → Outcome
  | [] => (.ok [], s)
  | w :: ws => Outcome.andThen (s.perform (.apply [w])) fun s => s.applyEach ws

theorem perform_apply_of_available {s : Store} (h : s.available = true) (ws : List Write) :
    s.perform (.apply ws) =
      match s.jobs.writeAll ws with
      | .error e => (.error e, s)
      | .ok (jobs, rows) =>
        (.ok rows,
          { s with jobs := jobs, incidents := ws.foldl Incident.writeAmong s.incidents }) := by
  simp only [perform, apply, applyIn_of_available h]
  cases s.jobs.writeAll ws with
  | error e => rfl
  | ok result => rfl

theorem perform_apply_of_not_available {s : Store} (h : s.available = false) (w : Write)
    (ws : List Write) : s.perform (.apply (w :: ws)) = (.error outOfReach, s) := by
  simp only [perform, apply, applyIn_of_not_available h]

/-- Writes made one at a time fail as the list of them fails on the table, and otherwise leave what
that leaves. -/
theorem applyEach_of_available {s : Store} (h : s.available = true) (ws : List Write) :
    match s.jobs.writeAll ws with
    | .error e => ∃ s', s.applyEach ws = (.error e, s')
    | .ok (jobs, rows) =>
      s.applyEach ws =
        (.ok rows,
          { s with jobs := jobs, incidents := ws.foldl Incident.writeAmong s.incidents }) := by
  induction ws generalizing s with
  | nil => rfl
  | cons w ws ih =>
    have happend := JobTable.writeAll_append s.jobs [w] ws
    rw [List.singleton_append] at happend
    rw [happend, applyEach, perform_apply_of_available h]
    cases s.jobs.writeAll [w] with
    | error e =>
      dsimp only
      exact ⟨s, rfl⟩
    | ok result =>
      obtain ⟨t, rows⟩ := result
      have hrest := ih (s := { s with jobs := t, incidents := Incident.writeAmong s.incidents w }) h
      dsimp only at hrest ⊢
      cases hws : t.writeAll ws with
      | error e =>
        rw [hws] at hrest
        obtain ⟨s', hs'⟩ := hrest
        exact ⟨s', by simp only [Outcome.andThen, List.foldl_cons, List.foldl_nil, hs']⟩
      | ok result =>
        obtain ⟨t', rest⟩ := result
        rw [hws] at hrest
        simp only [Outcome.andThen, List.foldl_cons, List.foldl_nil, hrest]

theorem perform_apply_eq_applyEach (s : Store) (ws : List Write) :
    s.perform (.apply ws) = Outcome.orBack s (s.applyEach ws) := by
  cases h : s.available with
  | true =>
    have heach := applyEach_of_available h ws
    rw [perform_apply_of_available h]
    cases hws : s.jobs.writeAll ws with
    | error e =>
      rw [hws] at heach
      obtain ⟨s', hs'⟩ := heach
      rw [hs', Outcome.orBack]
    | ok result =>
      obtain ⟨t, rows⟩ := result
      rw [hws] at heach
      rw [heach, Outcome.orBack]
  | false =>
    cases ws with
    | nil => rfl
    | cons w ws =>
      rw [perform_apply_of_not_available h, applyEach, perform_apply_of_not_available h]
      rfl

theorem perform_apply_append (s : Store) (ws₁ ws₂ : List Write) :
    s.perform (.apply (ws₁ ++ ws₂)) =
      Outcome.orBack s
        (Outcome.andThen (s.perform (.apply ws₁)) fun s => s.perform (.apply ws₂)) := by
  cases h : s.available with
  | true =>
    rw [perform_apply_of_available h, perform_apply_of_available h, JobTable.writeAll_append]
    cases hws : s.jobs.writeAll ws₁ with
    | error e => rfl
    | ok result =>
      obtain ⟨t, rows⟩ := result
      simp only [Outcome.andThen]
      rw [perform_apply_of_available (s := { s with jobs := t, incidents := _ }) h]
      cases hws₂ : t.writeAll ws₂ with
      | error e => rfl
      | ok result => simp [Outcome.orBack, List.foldl_append]
  | false =>
    cases ws₁ with
    | nil =>
      cases ws₂ with
      | nil => rfl
      | cons w ws =>
        have hnil : s.perform (.apply []) = (.ok [], s) := rfl
        rw [List.nil_append, hnil, Outcome.andThen, perform_apply_of_not_available h]
        rfl
    | cons w ws =>
      rw [List.cons_append, perform_apply_of_not_available h, perform_apply_of_not_available h]
      rfl

/-- **Batches refine single writes.**  Whatever the orders in which walks through the rows visit, a
batch does what its writes do one at a time: it is accepted exactly if each of them is, and then
leaves the same jobs, incidents and rows; otherwise it is refused for the reason of the first of
them that is refused, and leaves the store as it was.  Two batches in one do what the second does
after the first, taken back if either is refused. -/
theorem batch_refines_single_writes (s : Store) :
    (∀ orders writes, s.applyIn orders writes = s.apply writes) ∧
      (∀ writes, s.perform (.apply writes) = Outcome.orBack s (s.applyEach writes)) ∧
      ∀ first second,
        s.perform (.apply (first ++ second)) =
          Outcome.orBack s
            (Outcome.andThen (s.perform (.apply first)) fun s => s.perform (.apply second)) :=
  ⟨s.applyIn_eq_apply, s.perform_apply_eq_applyEach, s.perform_apply_append⟩

end Store

end DeferredWork

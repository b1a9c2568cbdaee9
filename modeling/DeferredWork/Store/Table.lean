import DeferredWork.Job.Basic
set_option autoImplicit false

/-!
# The table of jobs

The stored jobs, one row per name, in the order of the names.  A table is determined by what it
answers for each name (`ext_of_find?`), and every operation is described by that answer
(`find?_put`, `find?_erase`).
-/

namespace DeferredWork

/-- The rows of a table with strictly increasing names. -/
structure JobTable where
  rows : List Job
  sorted : rows.Pairwise fun a b => a.id < b.id
  deriving DecidableEq

namespace JobTable

/-- A table without rows. -/
def empty : JobTable := ⟨[], .nil⟩

instance : Inhabited JobTable := ⟨empty⟩

/-- The row with the given name. -/
def find? (t : JobTable) (id : JobId) : Option Job := t.rows.find? fun job => job.id == id

/-- A list of rows with one more at its place, or in place of the row with its name. -/
def putRow (job : Job) : List Job → List Job
  | [] => [job]
  | row :: rows =>
    if job.id < row.id then job :: row :: rows
    else if row.id < job.id then row :: putRow job rows
    else job :: rows

theorem mem_putRow {job row : Job} {rows : List Job} (h : row ∈ putRow job rows) :
    row = job ∨ row ∈ rows := by
  induction rows with
  | nil => simpa [putRow] using h
  | cons r rs ih =>
    simp only [putRow] at h
    split at h
    · simpa using h
    · split at h
      · rcases List.mem_cons.1 h with rfl | h
        · simp
        · rcases ih h with rfl | h <;> simp_all
      · rcases List.mem_cons.1 h with rfl | h <;> simp_all

theorem sorted_putRow (job : Job) {rows : List Job}
    (h : rows.Pairwise fun a b => a.id < b.id) :
    (putRow job rows).Pairwise fun a b => a.id < b.id := by
  induction rows with
  | nil => simp [putRow]
  | cons r rs ih =>
    obtain ⟨hr, hrs⟩ := List.pairwise_cons.1 h
    simp only [putRow]
    split
    · rename_i hlt
      refine List.pairwise_cons.2 ⟨fun b hb => ?_, h⟩
      rcases List.mem_cons.1 hb with rfl | hb
      · exact hlt
      · exact JobId.lt_trans hlt (hr b hb)
    · split
      · rename_i hgt
        refine List.pairwise_cons.2 ⟨fun b hb => ?_, ih hrs⟩
        rcases mem_putRow hb with rfl | hb
        · exact hgt
        · exact hr b hb
      · rename_i h₁ h₂
        have heq : job.id = r.id := JobId.eq_of_not_lt h₁ h₂
        exact List.pairwise_cons.2 ⟨fun b hb => heq ▸ hr b hb, hrs⟩

/-- The table with a row added, or put in place of the row with its name. -/
def put (t : JobTable) (job : Job) : JobTable := ⟨putRow job t.rows, sorted_putRow job t.sorted⟩

/-- The table without the row of the given name. -/
def erase (t : JobTable) (id : JobId) : JobTable :=
  ⟨t.rows.filter fun job => job.id != id, t.sorted.filter _⟩

/-! ## What a table answers -/

theorem id_of_find? {t : JobTable} {id : JobId} {job : Job} (h : t.find? id = some job) :
    job.id = id := by
  simpa using List.find?_some h

theorem mem_of_find? {t : JobTable} {id : JobId} {job : Job} (h : t.find? id = some job) :
    job ∈ t.rows :=
  List.mem_of_find?_eq_some h

theorem find?_eq_some_of_mem {t : JobTable} {job : Job} (h : job ∈ t.rows) :
    t.find? job.id = some job := by
  obtain ⟨rows, sorted⟩ := t
  simp only [find?] at *
  induction rows with
  | nil => simp at h
  | cons r rs ih =>
    obtain ⟨hr, hrs⟩ := List.pairwise_cons.1 sorted
    rcases List.mem_cons.1 h with rfl | h
    · simp
    · have hne : r.id ≠ job.id := fun e => JobId.lt_irrefl r.id (e ▸ hr job h)
      simp [hne, ih hrs h]

theorem find?_eq_some_iff {t : JobTable} {id : JobId} {job : Job} :
    t.find? id = some job ↔ job ∈ t.rows ∧ job.id = id :=
  ⟨fun h => ⟨mem_of_find? h, id_of_find? h⟩, fun ⟨h, e⟩ => e ▸ find?_eq_some_of_mem h⟩

theorem mem_put {t : JobTable} {job row : Job} :
    row ∈ (t.put job).rows ↔ row = job ∨ (row ∈ t.rows ∧ row.id ≠ job.id) := by
  obtain ⟨rows, sorted⟩ := t
  simp only [put]
  induction rows with
  | nil => simp [putRow]
  | cons r rs ih =>
    obtain ⟨hr, hrs⟩ := List.pairwise_cons.1 sorted
    simp only [putRow]
    split
    · rename_i hlt
      have hne : ∀ b ∈ r :: rs, b.id ≠ job.id := by
        intro b hb e
        rcases List.mem_cons.1 hb with rfl | hb
        · exact JobId.lt_irrefl _ (e ▸ hlt)
        · exact JobId.lt_irrefl _ (e ▸ JobId.lt_trans hlt (hr b hb))
      constructor
      · intro h
        rcases List.mem_cons.1 h with rfl | h
        · exact .inl rfl
        · exact .inr ⟨h, hne _ h⟩
      · rintro (rfl | ⟨h, -⟩) <;> simp_all
    · split
      · rename_i hgt
        have hne : r.id ≠ job.id := fun e => JobId.lt_irrefl _ (e ▸ hgt)
        rw [List.mem_cons, ih hrs, List.mem_cons]
        constructor
        · rintro (rfl | rfl | ⟨h, h'⟩)
          · exact .inr ⟨.inl rfl, hne⟩
          · exact .inl rfl
          · exact .inr ⟨.inr h, h'⟩
        · rintro (rfl | ⟨rfl | h, h'⟩)
          · exact .inr (.inl rfl)
          · exact .inl rfl
          · exact .inr (.inr ⟨h, h'⟩)
      · rename_i h₁ h₂
        have heq : job.id = r.id := JobId.eq_of_not_lt h₁ h₂
        have hne : ∀ b ∈ rs, b.id ≠ job.id := fun b hb e =>
          JobId.lt_irrefl _ ((e.trans heq) ▸ hr b hb)
        constructor
        · intro h
          rcases List.mem_cons.1 h with rfl | h
          · exact .inl rfl
          · exact .inr ⟨List.mem_cons_of_mem _ h, hne _ h⟩
        · rintro (rfl | ⟨h, h'⟩)
          · simp
          · rcases List.mem_cons.1 h with rfl | h
            · exact absurd heq.symm h'
            · exact List.mem_cons_of_mem _ h

theorem mem_erase {t : JobTable} {id : JobId} {row : Job} :
    row ∈ (t.erase id).rows ↔ row ∈ t.rows ∧ row.id ≠ id := by
  simp [erase]

theorem find?_put (t : JobTable) (job : Job) (id : JobId) :
    (t.put job).find? id = if job.id = id then some job else t.find? id := by
  apply Option.ext
  intro row
  rw [find?_eq_some_iff, mem_put]
  split
  · rename_i h
    subst h
    constructor
    · rintro ⟨rfl | ⟨-, h⟩, h'⟩
      · rfl
      · exact absurd h' h
    · rintro ⟨⟩
      exact ⟨.inl rfl, rfl⟩
  · rename_i h
    rw [find?_eq_some_iff]
    constructor
    · rintro ⟨rfl | ⟨h', -⟩, rfl⟩
      · exact absurd rfl h
      · exact ⟨h', rfl⟩
    · rintro ⟨h', rfl⟩
      exact ⟨.inr ⟨h', fun e => h e.symm⟩, rfl⟩

theorem find?_erase (t : JobTable) (k id : JobId) :
    (t.erase k).find? id = if k = id then none else t.find? id := by
  apply Option.ext
  intro row
  rw [find?_eq_some_iff, mem_erase]
  split
  · rename_i h
    subst h
    constructor
    · rintro ⟨⟨-, h⟩, h'⟩
      exact absurd h' h
    · rintro ⟨⟩
  · rename_i h
    rw [find?_eq_some_iff]
    constructor
    · rintro ⟨⟨h', -⟩, rfl⟩
      exact ⟨h', rfl⟩
    · rintro ⟨h', rfl⟩
      exact ⟨⟨h', fun e => h e.symm⟩, rfl⟩

/-- Two sorted lists with the same members are the same list. -/
theorem rows_eq_of_mem_iff {xs ys : List Job} (hx : xs.Pairwise fun a b => a.id < b.id)
    (hy : ys.Pairwise fun a b => a.id < b.id) (h : ∀ row, row ∈ xs ↔ row ∈ ys) : xs = ys := by
  induction xs generalizing ys with
  | nil =>
    cases ys with
    | nil => rfl
    | cons y ys => exact absurd ((h y).2 List.mem_cons_self) (by simp)
  | cons x xs ih =>
    cases ys with
    | nil => exact absurd ((h x).1 List.mem_cons_self) (by simp)
    | cons y ys =>
      obtain ⟨hx', hxs⟩ := List.pairwise_cons.1 hx
      obtain ⟨hy', hys⟩ := List.pairwise_cons.1 hy
      have hxy : x = y := by
        rcases List.mem_cons.1 ((h x).1 List.mem_cons_self) with e | hm
        · exact e
        · rcases List.mem_cons.1 ((h y).2 List.mem_cons_self) with e | hm'
          · exact e.symm
          · exact absurd (JobId.lt_trans (hy' x hm) (hx' y hm')) (JobId.lt_irrefl _)
      subst hxy
      rw [ih hxs hys]
      intro row
      constructor
      · intro hm
        rcases List.mem_cons.1 ((h row).1 (List.mem_cons_of_mem _ hm)) with rfl | hm'
        · exact absurd (hx' _ hm) (JobId.lt_irrefl _)
        · exact hm'
      · intro hm
        rcases List.mem_cons.1 ((h row).2 (List.mem_cons_of_mem _ hm)) with rfl | hm'
        · exact absurd (hy' _ hm) (JobId.lt_irrefl _)
        · exact hm'

theorem ext_of_find? {s t : JobTable} (h : ∀ id, s.find? id = t.find? id) : s = t := by
  have hrows : s.rows = t.rows := by
    refine rows_eq_of_mem_iff s.sorted t.sorted fun row => ?_
    constructor
    · intro hm
      exact mem_of_find? (h row.id ▸ find?_eq_some_of_mem hm)
    · intro hm
      exact mem_of_find? ((h row.id).symm ▸ find?_eq_some_of_mem hm)
  cases s; cases t
  simpa using hrows

end JobTable

end DeferredWork

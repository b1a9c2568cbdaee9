import DeferredWork.Store.Basic

set_option autoImplicit false

/-!
# One write at a time

What a single write does to the table of jobs, and what a list of writes does that are taken one
after the other.  `View.Allows` says for each kind of write when it is let through and what it then
does to the rows (`judge_eq_ok_iff`); the effect of a change on the row of a name is `Change.on?`.
A list of writes is accepted exactly if each of its parts is, the second after the first
(`writeAll_append`).
-/

namespace DeferredWork

/-! ## What a write touches -/

namespace Write

/-- The write is about the row of a name: it inserts, updates, locks or deletes it. -/
def touches (id : JobId) : Write → Bool
  | .insert job => job.id == id
  | .update job _ => job.id == id
  | .lock k _ _ _ _ => k == id
  | .delete k _ => k == id
  | .raise _ => false
  | .resolve _ _ => false

/-- The names of the rows that a write inserts: one or none. -/
def inserted : Write → List JobId
  | .insert job => [job.id]
  | _ => []

end Write

/-! ## What a change does to the row of a name -/

/-- What a change makes of the row of a name: nothing, its end, or a new row. -/
def Change.on? (id : JobId) : Change → Option (Option Job)
  | .put row => if row.id = id then some (some row) else none
  | .erase k => if k = id then some none else none
  | .keep => none

namespace JobTable

theorem find?_change (t : JobTable) (c : Change) (id : JobId) :
    (t.change c).find? id = (c.on? id).getD (t.find? id) := by
  cases c with
  | put row =>
    rw [change, find?_put, Change.on?]
    split <;> rfl
  | erase k =>
    rw [change, find?_erase, Change.on?]
    split <;> rfl
  | keep => rfl

end JobTable

/-! ## When a write is let through -/

namespace View

/-- The write is let through, and does this to the rows. -/
inductive Allows (v : View) : Write → Change → Prop
  | insert {job : Job} (free : v.find? job.id = none) :
      Allows v (.insert job) (.put { job with revision := 1 })
  | update {job before : Job} {expected : Expected} (found : v.find? job.id = some before)
      (met : expected.matches before.revision = true) :
      Allows v (.update job expected) (.put { job with revision := before.revision + 1 })
  | lock {id : JobId} {before : Job} {owner : Owner} {expiry now : Instant}
      (found : v.find? id = some before) (unlocked : before.hasLiveLock now = false)
      (alone : v.busyScope? before now = none) :
      Allows v (.lock id before.revision owner expiry now)
        (.put { before.lockedBy owner expiry with revision := before.revision + 1 })
  | delete {id : JobId} {before : Job} {expected : Expected} (found : v.find? id = some before)
      (met : expected.matches before.revision = true) : Allows v (.delete id expected) (.erase id)
  | raise {incident : Incident} : Allows v (.raise incident) .keep
  | resolve {id : JobId} {now : Instant} : Allows v (.resolve id now) .keep

theorem current_eq_ok_iff {v : View} {id : JobId} {expected : Expected} {job : Job} :
    v.current id expected = .ok job ↔
      v.find? id = some job ∧ expected.matches job.revision = true := by
  unfold current
  cases v.find? id with
  | none => simp
  | some found =>
    by_cases h : expected.matches found.revision = true
    · simp only [h, if_true, Except.ok.injEq, Option.some.injEq]
      constructor
      · rintro rfl
        exact ⟨rfl, h⟩
      · exact And.left
    · simp only [h, if_false, Option.some.injEq, reduceCtorEq, false_iff, not_and]
      rintro rfl
      exact h

theorem locked_eq_ok_iff {v : View} {job row : Job} {owner : Owner} {expiry now : Instant} :
    v.locked job owner expiry now = .ok row ↔
      job.hasLiveLock now = false ∧ v.busyScope? job now = none ∧
        row = { job.lockedBy owner expiry with revision := job.revision + 1 } := by
  unfold locked
  cases job.hasLiveLock now with
  | true => simp
  | false =>
    cases v.busyScope? job now with
    | some scope => simp
    | none => simp [eq_comm]

theorem allows_of_judge {v : View} {w : Write} {c : Change} (h : v.judge w = .ok c) :
    v.Allows w c := by
  cases w with
  | insert job =>
    simp only [judge] at h
    split at h
    · simp at h
    · rename_i free
      cases h
      exact .insert free
  | update job expected =>
    simp only [judge] at h
    split at h
    · simp at h
    · rename_i before hcurrent
      obtain ⟨found, met⟩ := current_eq_ok_iff.1 hcurrent
      cases h
      exact .update found met
  | lock id revision owner expiry now =>
    simp only [judge] at h
    split at h
    · simp at h
    · rename_i before hcurrent
      obtain ⟨found, met⟩ := current_eq_ok_iff.1 hcurrent
      obtain rfl : revision = before.revision := by simpa using met
      split at h
      · simp at h
      · rename_i row hlocked
        obtain ⟨unlocked, alone, rfl⟩ := locked_eq_ok_iff.1 hlocked
        cases h
        exact .lock found unlocked alone
  | delete id expected =>
    simp only [judge] at h
    split at h
    · simp at h
    · rename_i before hcurrent
      obtain ⟨found, met⟩ := current_eq_ok_iff.1 hcurrent
      cases h
      exact .delete found met
  | raise incident =>
    cases h
    exact .raise
  | resolve id now =>
    cases h
    exact .resolve

theorem judge_of_allows {v : View} {w : Write} {c : Change} (h : v.Allows w c) :
    v.judge w = .ok c := by
  cases h with
  | insert free => simp [judge, free]
  | update found met => simp [judge, current_eq_ok_iff.2 ⟨found, met⟩]
  | lock found unlocked alone =>
    have hcurrent := current_eq_ok_iff.2 ⟨found, (Expected.matches_exactly _ _).2 rfl⟩
    simp [judge, hcurrent, locked_eq_ok_iff.2 ⟨unlocked, alone, rfl⟩]
  | delete found met => simp [judge, current_eq_ok_iff.2 ⟨found, met⟩]
  | raise => rfl
  | resolve => rfl

theorem judge_eq_ok_iff {v : View} {w : Write} {c : Change} : v.judge w = .ok c ↔ v.Allows w c :=
  ⟨allows_of_judge, judge_of_allows⟩

end View

/-! ## Writes on the table itself -/

namespace JobTable

/-- The table as a write sees it. -/
def view (t : JobTable) : View where
  find? := t.find?
  isScopeBusy scope except now := t.rows.any fun job => job.occupies scope except now

/-- The table after one write, and the row that the write leaves, if it leaves one. -/
def write (t : JobTable) (w : Write) : Except StoreError (JobTable × Option Job) :=
  match t.view.judge w with
  | .error e => .error e
  | .ok c => .ok (t.change c, c.row?)

/-- The table after all writes, each made on what those before it left, and the rows that they
leave, in order. -/
def writeAll (t : JobTable) : List Write → Except StoreError (JobTable × List Job)
  | [] => .ok (t, [])
  | w :: ws =>
    match t.write w with
    | .error e => .error e
    | .ok (t, row) =>
      match t.writeAll ws with
      | .error e => .error e
      | .ok (t, rows) => .ok (t, row.toList ++ rows)

theorem write_eq_ok_iff {t t' : JobTable} {w : Write} {row : Option Job} :
    t.write w = .ok (t', row) ↔ ∃ c, t.view.Allows w c ∧ t' = t.change c ∧ row = c.row? := by
  simp only [write, ← View.judge_eq_ok_iff]
  cases t.view.judge w with
  | error e => simp
  | ok c => simp [eq_comm]

/-- A write that is let through changes the rows of the names that it touches, and no others. -/
theorem on?_eq_none_iff {t : JobTable} {w : Write} {c : Change} (h : t.view.Allows w c)
    (id : JobId) : c.on? id = none ↔ w.touches id = false := by
  cases h with
  | lock found _ _ =>
    have hname := id_of_find? found
    simp [Change.on?, Write.touches, Job.lockedBy, hname]
  | _ => simp [Change.on?, Write.touches]

theorem find?_of_not_touches {t t' : JobTable} {w : Write} {row : Option Job} {id : JobId}
    (h : t.write w = .ok (t', row)) (hid : w.touches id = false) : t'.find? id = t.find? id := by
  obtain ⟨c, hc, rfl, -⟩ := write_eq_ok_iff.1 h
  rw [find?_change, (on?_eq_none_iff hc id).2 hid, Option.getD_none]

theorem writeAll_append (t : JobTable) (ws₁ ws₂ : List Write) :
    t.writeAll (ws₁ ++ ws₂) =
      match t.writeAll ws₁ with
      | .error e => .error e
      | .ok (t₁, rows₁) =>
        match t₁.writeAll ws₂ with
        | .error e => .error e
        | .ok (t₂, rows₂) => .ok (t₂, rows₁ ++ rows₂) := by
  induction ws₁ generalizing t with
  | nil =>
    simp only [List.nil_append, writeAll]
    cases t.writeAll ws₂ with
    | error e => rfl
    | ok result => rfl
  | cons w ws ih =>
    simp only [List.cons_append, writeAll]
    cases t.write w with
    | error e => rfl
    | ok result =>
      obtain ⟨t₁, row⟩ := result
      simp only [ih]
      cases t₁.writeAll ws with
      | error e => rfl
      | ok result =>
        obtain ⟨t₂, rows⟩ := result
        cases hws₂ : t₂.writeAll ws₂ with
        | error e => simp [hws₂]
        | ok result => simp [hws₂, List.append_assoc]

/-- A list of writes is accepted exactly if its first part is and then its second. -/
theorem writeAll_append_eq_ok_iff {t t' : JobTable} {ws₁ ws₂ : List Write} {rows : List Job} :
    t.writeAll (ws₁ ++ ws₂) = .ok (t', rows) ↔
      ∃ t₁ rows₁ rows₂, t.writeAll ws₁ = .ok (t₁, rows₁) ∧ t₁.writeAll ws₂ = .ok (t', rows₂) ∧
        rows = rows₁ ++ rows₂ := by
  rw [writeAll_append]
  cases t.writeAll ws₁ with
  | error e => simp
  | ok result =>
    obtain ⟨t₁, rows₁⟩ := result
    cases hws₂ : t₁.writeAll ws₂ with
    | error e => simp [hws₂]
    | ok result =>
      obtain ⟨t₂, rows₂⟩ := result
      simp only [hws₂, Except.ok.injEq, Prod.mk.injEq]
      constructor
      · rintro ⟨rfl, rfl⟩
        exact ⟨t₁, rows₁, rows₂, ⟨rfl, rfl⟩, hws₂, rfl⟩
      · rintro ⟨_, _, _, ⟨rfl, rfl⟩, h₂, rfl⟩
        rw [hws₂] at h₂
        cases h₂
        exact ⟨rfl, rfl⟩

theorem writeAll_singleton_eq_ok_iff {t t' : JobTable} {w : Write} {rows : List Job} :
    t.writeAll [w] = .ok (t', rows) ↔ ∃ row, t.write w = .ok (t', row) ∧ rows = row.toList := by
  simp only [writeAll]
  cases t.write w with
  | error e => simp
  | ok result =>
    obtain ⟨t₁, row⟩ := result
    simp only [Except.ok.injEq, Prod.mk.injEq, List.append_nil]
    constructor
    · rintro ⟨rfl, rfl⟩
      exact ⟨row, ⟨rfl, rfl⟩, rfl⟩
    · rintro ⟨_, ⟨rfl, rfl⟩, rfl⟩
      exact ⟨rfl, rfl⟩

theorem writeAll_cons_eq_ok_iff {t t' : JobTable} {w : Write} {ws : List Write}
    {rows : List Job} :
    t.writeAll (w :: ws) = .ok (t', rows) ↔
      ∃ t₁ row rest, t.write w = .ok (t₁, row) ∧ t₁.writeAll ws = .ok (t', rest) ∧
        rows = row.toList ++ rest := by
  rw [← List.singleton_append, writeAll_append_eq_ok_iff]
  constructor
  · rintro ⟨t₁, _, rest, h₁, h₂, rfl⟩
    obtain ⟨row, hw, rfl⟩ := writeAll_singleton_eq_ok_iff.1 h₁
    exact ⟨t₁, row, rest, hw, h₂, rfl⟩
  · rintro ⟨t₁, row, rest, hw, h₂, rfl⟩
    exact ⟨t₁, row.toList, rest, writeAll_singleton_eq_ok_iff.2 ⟨row, hw, rfl⟩, h₂, rfl⟩

/-- What each write of a list preserves, the list preserves. -/
theorem writeAll_preserves {P : JobTable → Prop} {ws : List Write}
    (hstep : ∀ w ∈ ws, ∀ t t' left, t.write w = .ok (t', left) → P t → P t') {t t' : JobTable}
    {rows : List Job} (h : t.writeAll ws = .ok (t', rows)) (ht : P t) : P t' := by
  induction ws generalizing t rows with
  | nil =>
    cases h
    exact ht
  | cons w ws ih =>
    obtain ⟨t₁, left, rest, hw, hws, -⟩ := writeAll_cons_eq_ok_iff.1 h
    have hhead := hstep w List.mem_cons_self t t₁ left hw ht
    exact ih (fun v hv => hstep v (List.mem_cons_of_mem _ hv)) hws hhead

theorem find?_writeAll_of_not_touches {t t' : JobTable} {ws : List Write} {rows : List Job}
    {id : JobId} (hws : t.writeAll ws = .ok (t', rows)) (hnot : ∀ w ∈ ws, w.touches id = false) :
    t'.find? id = t.find? id := by
  refine writeAll_preserves (P := fun t₂ => t₂.find? id = t.find? id) ?_ hws rfl
  intro w hmem t₁ t₂ left hw hsame
  rw [find?_of_not_touches hw (hnot w hmem), hsame]

end JobTable

/-! ## A store for sample runs -/

/-- A store in reach that holds a single row. -/
def Store.ofRow (row : Job) : Store := { empty with jobs := JobTable.empty.put row }

/-- A job that mails a report, at a revision. -/
def Job.report (revision : Nat) : Job :=
  { Job.new ⟨"report"⟩ "mail" .epoch with revision := revision }

end DeferredWork

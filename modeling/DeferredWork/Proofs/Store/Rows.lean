import DeferredWork.Proofs.Store.Revision

set_option autoImplicit false

/-!
# What writes make of a row

Of the row of a name, a write that is let through makes the job that it stores, the same row with a
lock, nothing at all, or it leaves the row alone (`Write.remake`); accepted writes do so one after the
other (`JobTable.find?_writeAll`).  Writes that rely on the revision of a row which the table has held
are accepted only if the table still holds that very row (`JobTable.HasReached.find?_of_reliesOn`).
-/

namespace DeferredWork

namespace Write

/-- What becomes of the row of a name, if there is one, by a write that is let through. -/
def remake (id : JobId) (row : Option Job) : Write → Option Job
  | .insert job => if job.id = id then some { job with revision := 1 } else row
  | .update job _ =>
    if job.id = id then row.map fun before => { job with revision := before.revision + 1 } else row
  | .lock k _ owner expiry _ =>
    if k = id then
      row.map fun before => { before.lockedBy owner expiry with revision := before.revision + 1 }
    else row
  | .delete k _ => if k = id then none else row
  | .raise _ => row
  | .resolve _ _ => row

theorem remake_update (row job : Job) (expected : Expected) (hname : job.id = row.id) :
    remake row.id (some row) (.update job expected) =
      some { job with revision := row.revision + 1 } := by
  rw [remake, if_pos hname]
  rfl

theorem remake_lock {row : Job} {revision : Nat} {owner : Owner} {expiry now : Instant} :
    remake row.id (some row) (.lock row.id revision owner expiry now) =
      some { row.lockedBy owner expiry with revision := row.revision + 1 } := by
  rw [remake, if_pos rfl]
  rfl

end Write

namespace JobTable

theorem find?_write {t t' : JobTable} {w : Write} {left : Option Job} (h : t.write w = .ok (t', left))
    (id : JobId) : t'.find? id = w.remake id (t.find? id) := by
  obtain ⟨c, hc, rfl, -⟩ := write_eq_ok_iff.1 h
  rw [find?_change]
  cases hc with
  | @insert job free =>
    rw [Change.on?, Write.remake]
    split <;> rfl
  | @update job before expected found met =>
    rw [Change.on?, Write.remake]
    split
    · rename_i hid
      rw [← hid, show t.find? job.id = some before from found]
      rfl
    · rfl
  | @lock k before owner expiry now found unlocked alone =>
    have hfound : t.find? k = some before := found
    obtain rfl : before.id = k := id_of_find? hfound
    by_cases hid : before.id = id
    · subst hid
      simp [Change.on?, Write.remake, Job.lockedBy, hfound]
    · simp [Change.on?, Write.remake, Job.lockedBy, hid]
  | @delete k before expected found met =>
    rw [Change.on?, Write.remake]
    split <;> rfl
  | raise => rfl
  | resolve => rfl

theorem find?_writeAll {t t' : JobTable} {ws : List Write} {rows : List Job}
    (h : t.writeAll ws = .ok (t', rows)) (id : JobId) :
    t'.find? id = ws.foldl (Write.remake id) (t.find? id) := by
  induction ws generalizing t rows with
  | nil =>
    cases h
    rfl
  | cons w ws ih =>
    obtain ⟨t₁, left, rest, hw, hws, -⟩ := writeAll_cons_eq_ok_iff.1 h
    rw [List.foldl_cons, ← find?_write hw id]
    exact ih hws

/-- Writes that insert no name that is taken insert names that are free. -/
theorem find?_eq_none_of_inserted {t : JobTable} {ws : List Write} {id : JobId}
    (hfresh : ∀ row, t.find? row.id = some row → ∀ w ∈ ws, row.id ∉ w.inserted)
    (hins : ∃ w ∈ ws, id ∈ w.inserted) : t.find? id = none := by
  refine Option.eq_none_iff_forall_not_mem.2 fun row hrow => ?_
  obtain ⟨w, hw, hmem⟩ := hins
  obtain rfl := id_of_find? hrow
  exact hfresh row hrow w hw hmem

/-- A name is deleted only if it is stored. -/
theorem exists_of_delete {t t' : JobTable} {id : JobId} {expected : Expected} {rows : List Job}
    (h : t.writeAll [.delete id expected] = .ok (t', rows)) : ∃ row, t.find? id = some row := by
  obtain ⟨t₁, left, rest, hw, -⟩ := writeAll_cons_eq_ok_iff.1 h
  obtain ⟨c, hc, -⟩ := write_eq_ok_iff.1 hw
  cases hc with
  | delete found met => exact ⟨_, found⟩

/-- Writes one of which relies on the revision of a row that the table has held go through only if
the table holds that row. -/
theorem HasReached.find?_of_reliesOn {t t' : JobTable} {ws : List Write} {rows : List Job} {row : Job}
    (h : t.HasReached row) (hws : t.writeAll ws = .ok (t', rows))
    (hins : ∀ w ∈ ws, row.id ∉ w.inserted)
    (hrelies : ∃ w ∈ ws, w.ReliesOn row.id row.revision) : t.find? row.id = some row :=
  h.resolve_right fun hpast => hpast.not_writeAll hins hrelies hws

end JobTable

end DeferredWork

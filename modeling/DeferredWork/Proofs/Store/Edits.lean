import Mathlib.Data.List.Induction
import Mathlib.Data.List.Nodup
import DeferredWork.Proofs.Store.Revision

set_option autoImplicit false

/-!
# Batches of edits

A batch edits a table if its updates and deletions rely on the rows that the table holds, and its
insertions are of free names, no two of one name.  Each guarded write of a row takes the table past
the row, so that a second one finds its guard stale: a batch of edits is accepted exactly if it has
no two guarded writes of one name, and is refused as contended otherwise
(`JobTable.EditedBy.writeAll`).
-/

namespace DeferredWork

/-- The name of the row that a write updates or deletes on condition of its revision. -/
def Write.guarded? : Write → Option JobId
  | .update job (.exactly _) => some job.id
  | .delete id (.exactly _) => some id
  | _ => none

/-- The write edits what a table holds: it relies on a row of the table, or adds one under a name
that is free. -/
inductive Write.Edits (t : JobTable) : Write → Prop
  | insert {job : Job} (free : t.find? job.id = none) : Edits t (.insert job)
  | update {job row : Job} (stored : t.find? job.id = some row) :
      Edits t (.update job (.exactly row.revision))
  | delete {id : JobId} {row : Job} (stored : t.find? id = some row) :
      Edits t (.delete id (.exactly row.revision))
  | raise {incident : Incident} : Edits t (.raise incident)
  | resolve {id : JobId} {now : Instant} : Edits t (.resolve id now)

/-- All writes of a batch edit what a table holds, and no two of them insert one name. -/
structure JobTable.EditedBy (t : JobTable) (ws : List Write) : Prop where
  edits : ∀ w ∈ ws, w.Edits t
  once : (ws.flatMap Write.inserted).Nodup

variable {t t' : JobTable} {ws : List Write} {w : Write} {rows : List Job}

namespace Write

theorem Edits.touches_iff (h : w.Edits t) (id : JobId) :
    w.touches id = true ↔ id ∈ w.inserted ∨ w.guarded? = some id := by
  cases h with
  | insert free =>
    simp only [touches, inserted, guarded?, beq_iff_eq, List.mem_singleton, reduceCtorEq, or_false]
    exact eq_comm
  | _ => simp [touches, inserted, guarded?]

/-- What is inserted by an edit was free. -/
theorem Edits.find?_of_inserted (h : w.Edits t) {id : JobId} (hid : id ∈ w.inserted) :
    t.find? id = none := by
  cases h with
  | insert free =>
    obtain rfl := List.mem_singleton.1 hid
    exact free
  | _ => cases hid

theorem Edits.find?_of_guarded (h : w.Edits t) {id : JobId} (hid : w.guarded? = some id) :
    ∃ row, t.find? id = some row := by
  cases h with
  | update stored | delete stored =>
    cases hid
    exact ⟨_, stored⟩
  | _ => cases hid

/-- A write more guards no row twice if it guards none that a write before it has guarded. -/
theorem nodup_guarded_concat :
    ((ws ++ [w]).filterMap guarded?).Nodup ↔
      (ws.filterMap guarded?).Nodup ∧ ∀ id, w.guarded? = some id → id ∉ ws.filterMap guarded? := by
  rw [List.filterMap_append, List.filterMap_cons, List.filterMap_nil]
  cases w.guarded? with
  | none => simp
  | some id =>
    simp only [Option.some.injEq, forall_eq']
    rw [← List.concat_eq_append, List.nodup_concat, and_comm]

end Write

namespace JobTable

theorem EditedBy.of_append {more : List Write} (h : t.EditedBy (ws ++ more)) : t.EditedBy ws where
  edits w hw := h.edits w (List.mem_append_left _ hw)
  once := (List.nodup_append.1 (List.flatMap_append ▸ h.once)).1

/-- A row of the table whose name no write so far has guarded is there still. -/
theorem EditedBy.find?_of_not_guarded (h : t.EditedBy ws) (hws : t.writeAll ws = .ok (t', rows))
    {id : JobId} {row : Job} (hrow : t.find? id = some row)
    (hnot : id ∉ ws.filterMap Write.guarded?) : t'.find? id = some row := by
  rw [find?_writeAll_of_not_touches hws, hrow]
  intro w hw
  rw [← Bool.not_eq_true, (h.edits w hw).touches_iff]
  rintro (hins | hguards)
  · rw [(h.edits w hw).find?_of_inserted hins] at hrow
    cases hrow
  · exact hnot (List.mem_filterMap.2 ⟨w, hw, hguards⟩)

/-- A free name that no write so far has inserted is free still. -/
theorem EditedBy.find?_of_not_inserted (h : t.EditedBy ws) (hws : t.writeAll ws = .ok (t', rows))
    {id : JobId} (hfree : t.find? id = none) (hnot : id ∉ ws.flatMap Write.inserted) :
    t'.find? id = none := by
  rw [find?_writeAll_of_not_touches hws, hfree]
  intro w hw
  rw [← Bool.not_eq_true, (h.edits w hw).touches_iff]
  rintro (hins | hguards)
  · exact hnot (List.mem_flatMap.2 ⟨w, hw, hins⟩)
  · obtain ⟨row, hrow⟩ := (h.edits w hw).find?_of_guarded hguards
    rw [hfree] at hrow
    cases hrow

/-- Once a write has guarded a row, the table is past it. -/
theorem EditedBy.isPast_of_guarded (h : t.EditedBy ws) (hws : t.writeAll ws = .ok (t', rows))
    {row : Job} (hrow : t.find? row.id = some row)
    (hguarded : row.id ∈ ws.filterMap Write.guarded?) : t'.IsPast row := by
  obtain ⟨w, hw, hguards⟩ := List.mem_filterMap.1 hguarded
  refine (hasReached_of_find? hrow).isPast_of_writeAll hws (fun v hv hins => ?_)
    ⟨w, hw, ((h.edits w hw).touches_iff _).2 (.inr hguards)⟩
  rw [(h.edits v hv).find?_of_inserted hins] at hrow
  cases hrow

/-- After other edits, the row of the table is still at its revision exactly if none of them has
guarded it. -/
theorem EditedBy.current (h : t.EditedBy ws) (hws : t.writeAll ws = .ok (t', rows)) {id : JobId}
    {row : Job} (hrow : t.find? id = some row) :
    if id ∈ ws.filterMap Write.guarded? then
      ∃ e, t'.view.current id (.exactly row.revision) = .error e ∧ e.isContention = true
    else t'.view.current id (.exactly row.revision) = .ok row := by
  obtain rfl := id_of_find? hrow
  split
  · rename_i hguarded
    have hpast := h.isPast_of_guarded hws hrow hguarded
    unfold View.current
    cases hfind : t'.view.find? row.id with
    | none => exact ⟨_, rfl, rfl⟩
    | some current =>
      have hlt := hpast current hfind
      have hstale : Expected.matches (.exactly row.revision) current.revision = false := by
        rw [← Bool.not_eq_true, Expected.matches_exactly]
        omega
      simp only [hstale, if_neg Bool.false_ne_true]
      exact ⟨_, rfl, rfl⟩
  · rename_i hfresh
    exact View.current_eq_ok_iff.2
      ⟨h.find?_of_not_guarded hws hrow hfresh, (Expected.matches_exactly _ _).2 rfl⟩

/-- An edit goes through after others none of which has guarded its row. -/
theorem EditedBy.write_of_fresh (h : t.EditedBy (ws ++ [w])) (hws : t.writeAll ws = .ok (t', rows))
    (hfresh : ∀ id, w.guarded? = some id → id ∉ ws.filterMap Write.guarded?) :
    ∃ t'' row, t'.write w = .ok (t'', row) := by
  have hw := h.edits w (List.mem_append_right _ List.mem_cons_self)
  suffices hallows : ∃ change, t'.view.Allows w change by
    obtain ⟨change, hallows⟩ := hallows
    exact ⟨_, _, write_eq_ok_iff.2 ⟨change, hallows, rfl, rfl⟩⟩
  cases hw with
  | @insert job free =>
    have hnot : job.id ∉ ws.flatMap Write.inserted := by
      intro hins
      have honce := h.once
      rw [List.flatMap_append, List.nodup_append] at honce
      exact honce.2.2 _ hins _ (List.mem_flatMap.2 ⟨_, List.mem_cons_self, List.mem_cons_self⟩) rfl
    exact ⟨_, .insert (h.of_append.find?_of_not_inserted hws free hnot)⟩
  | @update job row stored =>
    have hcurrent := h.of_append.current hws stored
    rw [if_neg (hfresh _ rfl)] at hcurrent
    obtain ⟨found, met⟩ := View.current_eq_ok_iff.1 hcurrent
    exact ⟨_, .update found met⟩
  | @delete id row stored =>
    have hcurrent := h.of_append.current hws stored
    rw [if_neg (hfresh _ rfl)] at hcurrent
    obtain ⟨found, met⟩ := View.current_eq_ok_iff.1 hcurrent
    exact ⟨_, .delete found met⟩
  | raise => exact ⟨_, .raise⟩
  | resolve => exact ⟨_, .resolve⟩

/-- An edit is refused as contended after one that has guarded its row. -/
theorem EditedBy.write_of_guarded (h : t.EditedBy (ws ++ [w]))
    (hws : t.writeAll ws = .ok (t', rows)) {id : JobId} (hid : w.guarded? = some id)
    (hguarded : id ∈ ws.filterMap Write.guarded?) :
    ∃ e, t'.write w = .error e ∧ e.isContention = true := by
  have hw := h.edits w (List.mem_append_right _ List.mem_cons_self)
  cases hw with
  | update stored | delete stored =>
    cases hid
    have hcurrent := h.of_append.current hws stored
    rw [if_pos hguarded] at hcurrent
    obtain ⟨e, hcurrent, he⟩ := hcurrent
    exact ⟨e, by simp only [write, View.judge, hcurrent], he⟩
  | _ => cases hid

/-- A batch of edits is accepted exactly if no two of its writes guard one row; otherwise it is
refused as contended. -/
theorem EditedBy.writeAll (h : t.EditedBy ws) :
    if (ws.filterMap Write.guarded?).Nodup then ∃ t' rows, t.writeAll ws = .ok (t', rows)
    else ∃ e, t.writeAll ws = .error e ∧ e.isContention = true := by
  -- The last write decides, after those before it.
  induction ws using List.reverseRecOn with
  | nil => exact ⟨t, [], rfl⟩
  | append_singleton ws w ih =>
    have hbefore := ih h.of_append
    simp only [Write.nodup_guarded_concat, writeAll_append]
    split at hbefore
    · rename_i hnodup
      obtain ⟨t₁, rows, hws⟩ := hbefore
      split
      · rename_i hall
        obtain ⟨t₂, row, hw⟩ := h.write_of_fresh hws hall.2
        exact ⟨t₂, rows ++ (row.toList ++ []), by simp only [hws, JobTable.writeAll, hw]⟩
      · rename_i hagain
        have hguarded : ∃ id, w.guarded? = some id ∧ id ∈ ws.filterMap Write.guarded? := by
          simpa [hnodup] using hagain
        obtain ⟨id, hid, hmem⟩ := hguarded
        obtain ⟨e, hw, he⟩ := h.write_of_guarded hws hid hmem
        exact ⟨e, by simp only [hws, JobTable.writeAll, hw], he⟩
    · rename_i hdup
      obtain ⟨e, hws, he⟩ := hbefore
      rw [if_neg fun hall => hdup hall.1, hws]
      exact ⟨e, rfl, he⟩

end JobTable

end DeferredWork

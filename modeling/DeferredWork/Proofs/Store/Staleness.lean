import DeferredWork.Engine.Routine
import DeferredWork.Proofs.Store.Revision

set_option autoImplicit false

/-!
# Stale writes

A write that relies on the revision at which a row was read, and that comes after another write of
the name, is to be refused.  It is, unless the name was inserted anew in between and the new row has
by then been written just as often as the old one had: the new row counts its revisions from one
again (`Write.Reborn`).  The first section says which revision a history leaves in terms of the
writes since the last insertion, the second what a refusal of a stale write looks like, and the
third puts them together.
-/

namespace DeferredWork

/-! ## The writes since the last insertion -/

namespace Write

/-- The writes after the last one that inserts a name, if there is one. -/
def sinceInsert (id : JobId) : List Write → Option (List Write)
  | [] => none
  | w :: ws =>
    match sinceInsert id ws with
    | some later => some later
    | none => if id ∈ w.inserted then some ws else none

/-- The writes insert a name anew and then bring it to a revision: none of those after the last
insertion deletes the row, and so many of them raise its revision. -/
def Reborn (id : JobId) (revision : Nat) (ws : List Write) : Prop :=
  ∃ later, sinceInsert id ws = some later ∧ (∀ w ∈ later, w.deletes id = false) ∧
    revision = 1 + later.countP (raises id)

theorem sinceInsert_cons_eq_some_iff {id : JobId} {w : Write} {ws later : List Write} :
    sinceInsert id (w :: ws) = some later ↔
      sinceInsert id ws = some later ∨
        (∀ rest, sinceInsert id ws ≠ some rest) ∧ id ∈ w.inserted ∧ later = ws := by
  rw [sinceInsert]
  cases sinceInsert id ws with
  | some found => simp
  | none => simp [eq_comm]

theorem sinceInsert_eq_none_iff {id : JobId} {ws : List Write} :
    sinceInsert id ws = none ↔ ∀ w ∈ ws, id ∉ w.inserted := by
  induction ws with
  | nil => simp [sinceInsert]
  | cons w ws ih =>
    rw [List.forall_mem_cons, ← ih, sinceInsert]
    cases sinceInsert id ws with
    | some later => simp
    | none => simp

theorem not_inserted_of_sinceInsert {id : JobId} {ws later : List Write}
    (h : sinceInsert id ws = some later) : ∀ w ∈ later, id ∉ w.inserted := by
  induction ws with
  | nil => cases h
  | cons w ws ih =>
    rcases sinceInsert_cons_eq_some_iff.1 h with hrest | ⟨hnone, -, rfl⟩
    · exact ih hrest
    · exact sinceInsert_eq_none_iff.1 (Option.eq_none_iff_forall_ne_some.2 hnone)

theorem not_reborn_of_not_inserted {id : JobId} {revision : Nat} {ws : List Write}
    (h : ∀ w ∈ ws, id ∉ w.inserted) : ¬ Reborn id revision ws := by
  rintro ⟨later, hlater, -⟩
  rw [sinceInsert_eq_none_iff.2 h] at hlater
  cases hlater

/-- Without an insertion a row survives if no write deletes it, and its revision counts the writes
that raise it. -/
theorem foldl_recount_eq_some_iff {id : JobId} {ws : List Write} (h : ∀ w ∈ ws, id ∉ w.inserted)
    {start : Option Nat} {revision : Nat} :
    ws.foldl (recount id) start = some revision ↔
      (∀ w ∈ ws, w.deletes id = false) ∧
        ∃ first, start = some first ∧ revision = first + ws.countP (raises id) := by
  induction ws generalizing start with
  | nil => simp [eq_comm (a := revision)]
  | cons w ws ih =>
    obtain ⟨hw, hws⟩ := List.forall_mem_cons.1 h
    rw [List.foldl_cons, ih hws, List.forall_mem_cons, recount, if_neg hw, List.countP_cons]
    cases w.deletes id with
    | true => simp
    | false =>
      cases w.raises id with
      | true =>
        cases start with
        | none => simp
        | some first => simp [Nat.add_assoc, Nat.add_comm 1]
      | false => simp

/-- What comes before the last insertion leaves no trace in the revision. -/
theorem foldl_recount_of_sinceInsert {id : JobId} {ws later : List Write}
    (h : sinceInsert id ws = some later) (start : Option Nat) :
    ws.foldl (recount id) start = later.foldl (recount id) (some 1) := by
  induction ws generalizing start with
  | nil => cases h
  | cons w ws ih =>
    rw [List.foldl_cons]
    rcases sinceInsert_cons_eq_some_iff.1 h with hrest | ⟨-, hins, rfl⟩
    · exact ih hrest _
    · rw [recount, if_pos hins]

/-- Writes some of which touch the row of a name bring it back to the revision that it had exactly
if they insert it anew. -/
theorem foldl_recount_eq_iff_reborn {id : JobId} {ws : List Write}
    (h : ∃ w ∈ ws, w.touches id = true) {revision : Nat} :
    ws.foldl (recount id) (some revision) = some revision ↔ Reborn id revision ws := by
  cases hsince : sinceInsert id ws with
  | none =>
    have hins := sinceInsert_eq_none_iff.1 hsince
    refine iff_of_false ?_ (not_reborn_of_not_inserted hins)
    intro hfold
    obtain ⟨hdel, first, hfirst, hcount⟩ := (foldl_recount_eq_some_iff hins).1 hfold
    cases hfirst
    -- The revision is the old one, so no write raises it; none inserts or deletes the row either.
    have hzero : ws.countP (raises id) = 0 := by omega
    obtain ⟨w, hmem, htouch⟩ := h
    have hraise : w.raises id = false := by
      simpa using List.countP_eq_zero.1 hzero w hmem
    rw [touches_eq_false_iff.2 ⟨hins w hmem, hdel w hmem, hraise⟩] at htouch
    cases htouch
  | some later =>
    rw [foldl_recount_of_sinceInsert hsince,
      foldl_recount_eq_some_iff (not_inserted_of_sinceInsert hsince)]
    simp [Reborn, hsince]

end Write

/-! ## Refusals of stale writes -/

/-- The refusal of a write that relies on a revision which the row of the name does not have. -/
def StoreError.IsStale (e : StoreError) (id : JobId) (revision : Nat) : Prop :=
  e = .notFound id ∨ ∃ actual, actual ≠ revision ∧ e = .conflict id (.exactly revision) actual

namespace View

theorem isStale_of_current {v : View} {id : JobId} {revision : Nat}
    (h : (v.find? id).map Job.revision ≠ some revision) :
    ∃ e, e.IsStale id revision ∧ v.current id (.exactly revision) = .error e := by
  cases hfind : v.find? id with
  | none => exact ⟨.notFound id, .inl rfl, by rw [current, hfind]⟩
  | some job =>
    have hne : job.revision ≠ revision := by
      intro heq
      rw [hfind, Option.map_some, heq] at h
      exact h rfl
    have hmatch : (Expected.exactly revision).matches job.revision = false := by
      rw [← Bool.not_eq_true, Expected.matches_exactly]
      exact hne.symm
    refine ⟨.conflict id (.exactly revision) job.revision, .inr ⟨_, hne, rfl⟩, ?_⟩
    simp only [current, hfind, hmatch, if_neg Bool.false_ne_true]

theorem locked_eq_error {v : View} {job : Job} {owner : Owner} {expiry now : Instant}
    {e : StoreError} (h : v.locked job owner expiry now = .error e) :
    e = .alreadyLocked job.id (job.owner.getD ⟨"unknown"⟩) ∨
      ∃ scope, e = .scopeBusy job.id scope := by
  unfold locked at h
  split at h
  · cases h
    exact .inl rfl
  · cases h
    exact .inr ⟨_, rfl⟩
  · cases h

/-- A write that relies on a revision is refused as stale exactly if no row of the name has it. -/
theorem judge_isStale_iff {v : View} {id : JobId} {revision : Nat} {w : Write}
    (hw : w.ReliesOn id revision) :
    (∃ e, e.IsStale id revision ∧ v.judge w = .error e) ↔
      (v.find? id).map Job.revision ≠ some revision := by
  constructor
  · rintro ⟨e, he, hjudge⟩ hfresh
    obtain ⟨job, hfind, hrev⟩ := Option.map_eq_some_iff.1 hfresh
    have hcurrent : v.current id (.exactly revision) = .ok job :=
      current_eq_ok_iff.2 ⟨hfind, (Expected.matches_exactly _ _).2 hrev.symm⟩
    cases hw with
    | update named =>
      subst named
      simp [judge, hcurrent] at hjudge
    | delete => simp [judge, hcurrent] at hjudge
    | lock =>
      simp only [judge, hcurrent] at hjudge
      split at hjudge
      · rename_i hlocked
        cases hjudge
        rcases he with rfl | ⟨_, -, rfl⟩ <;> simpa using locked_eq_error hlocked
      · cases hjudge
  · intro h
    obtain ⟨e, he, hcurrent⟩ := isStale_of_current h
    refine ⟨e, he, ?_⟩
    cases hw with
    | update named =>
      subst named
      simp only [judge, hcurrent]
    | delete => simp only [judge, hcurrent]
    | lock => simp only [judge, hcurrent]

end View

/-! ## Stale writes along a history -/

namespace JobTable

/-- After writes some of which touch the row of a name, it has its old revision exactly if it was
born anew. -/
theorem revision_eq_iff_reborn {t t' : JobTable} {ws : List Write} {rows : List Job} {id : JobId}
    {row : Job} (h : t.writeAll ws = .ok (t', rows)) (hrow : t.find? id = some row)
    (hwritten : ∃ v ∈ ws, v.touches id = true) :
    (t'.find? id).map Job.revision = some row.revision ↔ Write.Reborn id row.revision ws := by
  rw [revision_writeAll h, hrow, Option.map_some, Write.foldl_recount_eq_iff_reborn hwritten]

/-- A write that relies on the revision of a row goes through after writes of the row only if it was
born anew. -/
theorem reborn_of_writeAll {t t' : JobTable} {ws after : List Write} {w : Write} {rows : List Job}
    {id : JobId} {row : Job} (h : t.writeAll (ws ++ w :: after) = .ok (t', rows))
    (hrow : t.find? id = some row) (hwritten : ∃ v ∈ ws, v.touches id = true)
    (hw : w.ReliesOn id row.revision) : Write.Reborn id row.revision ws := by
  obtain ⟨t₁, rows₁, rows₂, hws, hrest, -⟩ := writeAll_append_eq_ok_iff.1 h
  obtain ⟨t₂, left, rest, hone, -, -⟩ := writeAll_cons_eq_ok_iff.1 hrest
  obtain ⟨job, hfind, hrev⟩ := find?_of_reliesOn hone hw
  refine (revision_eq_iff_reborn hws hrow hwritten).1 ?_
  rw [hfind, Option.map_some, hrev]

end JobTable

namespace Store

/-- A batch that is not accepted is refused, and the store stays as it was. -/
theorem perform_apply_of_not_ok {s : Store} {ws : List Write}
    (h : ∀ rows s', s.apply ws ≠ .ok (rows, s')) :
    ∃ e, s.perform (.apply ws) = (.error e, s) := by
  rw [perform]
  cases happly : s.apply ws with
  | error e => exact ⟨e, rfl⟩
  | ok result => exact absurd happly (h result.1 result.2)

theorem perform_apply_singleton_eq_error_iff {s : Store} (h : s.available = true) {w : Write}
    {e : StoreError} :
    s.perform (.apply [w]) = (.error e, s) ↔ s.jobs.view.judge w = .error e := by
  rw [perform_apply_of_available h]
  simp only [JobTable.writeAll, JobTable.write]
  cases s.jobs.view.judge w with
  | error e => simp
  | ok c => simp

/-- After other writes of a row, a batch with a write that relies on the revision at which the row
was read is refused and changes nothing, unless the row was born anew at that very revision; and
being born anew is the only way for the write not to be stale. -/
theorem stale_write_refused_unless_reborn {s s' : Store} {batches : List (List Write)} {id : JobId}
    {row : Job} {w : Write} (hread : s.get id = .ok (some row)) (hcommits : s.Commits batches s')
    (hwritten : ∃ v ∈ batches.flatten, v.touches id = true) (hw : w.ReliesOn id row.revision) :
    (∀ before after, ¬ Write.Reborn id row.revision (batches.flatten ++ before) →
      ∃ e, s'.perform (.apply (before ++ w :: after)) = (.error e, s')) ∧
    (s'.available = true →
      ((∃ e, e.IsStale id row.revision ∧ s'.perform (.apply [w]) = (.error e, s')) ↔
        ¬ Write.Reborn id row.revision batches.flatten)) := by
  have hrow := find?_of_get hread
  obtain ⟨rows, hws⟩ := hcommits.writeAll
  constructor
  · intro before after hnot
    apply perform_apply_of_not_ok
    intro more s'' happly
    have hbatch := writeAll_of_apply happly
    have hall := JobTable.writeAll_append_eq_ok_iff.2 ⟨_, _, _, hws, hbatch, rfl⟩
    rw [← List.append_assoc] at hall
    refine hnot (JobTable.reborn_of_writeAll hall hrow ?_ hw)
    obtain ⟨v, hmem, hv⟩ := hwritten
    exact ⟨v, List.mem_append_left _ hmem, hv⟩
  · intro havailable
    simp only [perform_apply_singleton_eq_error_iff havailable]
    rw [View.judge_isStale_iff hw]
    exact not_congr (JobTable.revision_eq_iff_reborn hws hrow hwritten)

/-- An update that relies on the first revision is refused after another update. -/
theorem stale_update_refused :
    (ofRow (Job.report 1)).get (Job.report 1).id = .ok (some (Job.report 1)) ∧
      (ofRow (Job.report 1)).Commits [[.update (Job.report 1) .any]] (ofRow (Job.report 2)) ∧
      ∃ e, (ofRow (Job.report 2)).perform (.apply [.update (Job.report 1) (.exactly 1)]) =
        (.error e, ofRow (Job.report 2)) := by
  have hread : (ofRow (Job.report 1)).get (Job.report 1).id = .ok (some (Job.report 1)) := rfl
  have hcommits : (ofRow (Job.report 1)).Commits [[.update (Job.report 1) .any]]
      (ofRow (Job.report 2)) := .batch rfl (.none _)
  have hwritten : ∃ v ∈ [[Write.update (Job.report 1) .any]].flatten,
      v.touches (Job.report 1).id = true := ⟨_, List.mem_singleton.2 rfl, rfl⟩
  have hnot : ¬ Write.Reborn (Job.report 1).id 1
      ([[Write.update (Job.report 1) .any]].flatten ++ []) := by
    rintro ⟨later, hlater, -⟩
    cases hlater
  have hrelies : (Write.update (Job.report 1) (.exactly 1)).ReliesOn (Job.report 1).id 1 :=
    .update rfl
  have hrefused := stale_write_refused_unless_reborn hread hcommits hwritten hrelies
  exact ⟨hread, hcommits, hrefused.1 [] [] hnot⟩

/-- A job that is deleted and inserted anew is at its first revision again, so an update that relies
on the revision of the deleted row goes through. -/
theorem update_of_reborn_row_accepted :
    ¬ ∀ (s s' : Store) (batches : List (List Write)) (id : JobId) (row : Job) (w : Write),
      s.get id = .ok (some row) → s.Commits batches s' →
      (∃ v ∈ batches.flatten, v.touches id = true) → w.ReliesOn id row.revision →
      ∃ e, s'.perform (.apply [w]) = (.error e, s') := by
  intro h
  have hreborn : empty.Commits [[.insert (Job.report 0)]] (ofRow (Job.report 1)) :=
    .batch rfl (.none _)
  have hcommits : (ofRow (Job.report 1)).Commits
      [[.delete (Job.report 1).id .any], [.insert (Job.report 0)]] (ofRow (Job.report 1)) :=
    .batch rfl hreborn
  obtain ⟨e, he⟩ := h _ _ _ (Job.report 1).id (Job.report 1)
    (.update (Job.report 1) (.exactly 1)) rfl hcommits ⟨_, List.mem_cons_self, rfl⟩ (.update rfl)
  have haccepted : (ofRow (Job.report 1)).perform (.apply [.update (Job.report 1) (.exactly 1)]) =
      (.ok [Job.report 2], ofRow (Job.report 2)) := rfl
  rw [haccepted] at he
  cases he

end Store

end DeferredWork

import DeferredWork.Proofs.Store.Batch

set_option autoImplicit false

/-!
# Revisions along a history

A row's revision counts the writes that the row has seen since its name was inserted
(`Write.recount`, `revision_writeAll`).  So a row that was read once pins the name for as long as
the name is not inserted again: the table holds the very row, or has gone past it for good
(`JobTable.HasReached`, `JobTable.IsPast`), and a write that relies on a revision which the table
has gone past is refused.  Inserting a name again starts its count anew, and this is the only way
for a revision to come back.
-/

namespace DeferredWork

/-! ## Histories -/

/-- Batches that the store accepted one after the other; in between it may go out of reach and come
back. -/
inductive Store.Commits : Store → List (List Write) → Store → Prop
  | none (s : Store) : Commits s [] s
  | batch {s s₁ s₂ : Store} {batch : List Write} {rows : List Job} {batches : List (List Write)}
      (accepted : s.apply batch = .ok (rows, s₁)) (rest : Commits s₁ batches s₂) :
      Commits s (batch :: batches) s₂
  | reach {s s' : Store} {batches : List (List Write)} (value : Bool)
      (rest : Commits { s with available := value } batches s') : Commits s batches s'

/-- Accepted batches make their writes on the table in order. -/
theorem Store.Commits.writeAll {s s' : Store} {batches : List (List Write)}
    (h : s.Commits batches s') : ∃ rows, s.jobs.writeAll batches.flatten = .ok (s'.jobs, rows) := by
  induction h with
  | none s => exact ⟨[], rfl⟩
  | batch accepted rest ih =>
    obtain ⟨rows, hrest⟩ := ih
    have hbatch := Store.writeAll_of_apply accepted
    exact ⟨_, JobTable.writeAll_append_eq_ok_iff.2 ⟨_, _, _, hbatch, hrest, rfl⟩⟩
  | reach value rest ih => exact ih

theorem Store.Commits.append {s s₁ s' : Store} {batches₁ batches₂ : List (List Write)}
    (h₁ : s.Commits batches₁ s₁) (h₂ : s₁.Commits batches₂ s') :
    s.Commits (batches₁ ++ batches₂) s' := by
  induction h₁ with
  | none s => exact h₂
  | batch accepted rest ih => exact .batch accepted (ih h₂)
  | reach value rest ih => exact .reach value (ih h₂)

theorem Store.find?_of_get {s : Store} {id : JobId} {row : Option Job} (h : s.get id = .ok row) :
    s.jobs.find? id = row := by
  unfold get answer at h
  split at h
  · exact Except.ok.inj h
  · cases h

/-! ## Counting writes -/

namespace Write

/-- The write raises the revision of the row of a name: it updates or locks it. -/
def raises (id : JobId) : Write → Bool
  | .update job _ => job.id == id
  | .lock k _ _ _ _ => k == id
  | _ => false

/-- The write deletes the row of a name. -/
def deletes (id : JobId) : Write → Bool
  | .delete k _ => k == id
  | _ => false

/-- The revision of the row of a name, if it has one, after a write that was let through. -/
def recount (id : JobId) (revision : Option Nat) (w : Write) : Option Nat :=
  if id ∈ w.inserted then some 1
  else if w.deletes id then none
  else if w.raises id then revision.map (· + 1)
  else revision

theorem touches_eq_false_iff {id : JobId} {w : Write} :
    w.touches id = false ↔ id ∉ w.inserted ∧ w.deletes id = false ∧ w.raises id = false := by
  cases w with
  | insert job =>
    simp only [touches, inserted, deletes, raises, beq_eq_false_iff_ne, List.mem_singleton,
      and_true]
    exact ne_comm
  | _ => simp [touches, inserted, deletes, raises]

end Write

namespace JobTable

theorem revision_write {t t' : JobTable} {w : Write} {left : Option Job}
    (h : t.write w = .ok (t', left)) (id : JobId) :
    (t'.find? id).map Job.revision = w.recount id ((t.find? id).map Job.revision) := by
  obtain ⟨c, hc, rfl, -⟩ := write_eq_ok_iff.1 h
  rw [find?_change]
  cases hc with
  | @insert job free =>
    by_cases hid : job.id = id
    · subst hid
      simp [Change.on?, Write.recount, Write.inserted]
    · simp [Change.on?, Write.recount, Write.inserted, Write.deletes, Write.raises, hid,
        Ne.symm hid]
  | @update job before expected found met =>
    by_cases hid : job.id = id
    · subst hid
      have hfound : t.find? job.id = some before := found
      simp [Change.on?, Write.recount, Write.inserted, Write.deletes, Write.raises, hfound]
    · simp [Change.on?, Write.recount, Write.inserted, Write.deletes, Write.raises, hid]
  | @lock k before owner expiry now found unlocked alone =>
    have hfound : t.find? k = some before := found
    have hname := id_of_find? hfound
    by_cases hid : k = id
    · subst hid
      simp [Change.on?, Write.recount, Write.inserted, Write.deletes, Write.raises, Job.lockedBy,
        hfound, hname]
    · simp [Change.on?, Write.recount, Write.inserted, Write.deletes, Write.raises, Job.lockedBy,
        hname, hid]
  | @delete k before expected found met =>
    by_cases hid : k = id
    · subst hid
      simp [Change.on?, Write.recount, Write.inserted, Write.deletes]
    · simp [Change.on?, Write.recount, Write.inserted, Write.deletes, Write.raises, hid]
  | raise => rfl
  | resolve => rfl

theorem revision_writeAll {t t' : JobTable} {ws : List Write} {rows : List Job}
    (h : t.writeAll ws = .ok (t', rows)) (id : JobId) :
    (t'.find? id).map Job.revision =
      ws.foldl (Write.recount id) ((t.find? id).map Job.revision) := by
  induction ws generalizing t rows with
  | nil =>
    cases h
    rfl
  | cons w ws ih =>
    obtain ⟨t₁, left, rest, hw, hws, -⟩ := writeAll_cons_eq_ok_iff.1 h
    rw [List.foldl_cons, ← revision_write hw id]
    exact ih hws

end JobTable

/-! ## Rows that were read once -/

namespace JobTable

/-- The table has gone past a row: it has no row of the name any more, or one of a higher
revision. -/
def IsPast (t : JobTable) (row : Job) : Prop :=
  ∀ current, t.find? row.id = some current → row.revision < current.revision

/-- The table has held a row: it holds the row still, or has gone past it. -/
def HasReached (t : JobTable) (row : Job) : Prop := t.find? row.id = some row ∨ t.IsPast row

theorem hasReached_of_find? {t : JobTable} {id : JobId} {row : Job} (h : t.find? id = some row) :
    t.HasReached row := by
  obtain rfl := id_of_find? h
  exact .inl h

/-- A row at the revision of one that the table has held is that row. -/
theorem HasReached.eq_of_revision {t : JobTable} {row current : Job} (h : t.HasReached row)
    (hfind : t.find? row.id = some current) (hrev : current.revision = row.revision) :
    current = row := by
  rcases h with h | h
  · rw [hfind] at h
    exact Option.some.inj h
  · have hlt := h current hfind
    omega

/-- What a write that does not insert a name makes of the name's row: it leaves it, ends it or
raises its revision by one. -/
theorem find?_write_cases {t t' : JobTable} {w : Write} {left : Option Job} {id : JobId}
    (h : t.write w = .ok (t', left)) (hins : id ∉ w.inserted) :
    w.touches id = false ∧ t'.find? id = t.find? id ∨ t'.find? id = none ∨
      ∃ before after, t.find? id = some before ∧ t'.find? id = some after ∧
        after.revision = before.revision + 1 := by
  cases htouch : w.touches id with
  | false => exact .inl ⟨rfl, find?_of_not_touches h htouch⟩
  | true =>
    right
    have hrev := revision_write h id
    rw [Write.recount, if_neg hins] at hrev
    cases hdel : w.deletes id with
    | true =>
      rw [hdel, if_pos rfl] at hrev
      exact .inl (Option.map_eq_none_iff.1 hrev)
    | false =>
      have hraise : w.raises id = true := by
        rw [← Bool.not_eq_false]
        intro hraise
        rw [Write.touches_eq_false_iff.2 ⟨hins, hdel, hraise⟩] at htouch
        exact Bool.false_ne_true htouch
      rw [hdel, hraise, if_neg Bool.false_ne_true, if_pos rfl] at hrev
      cases hbefore : t.find? id with
      | none =>
        rw [hbefore] at hrev
        exact .inl (Option.map_eq_none_iff.1 hrev)
      | some before =>
        rw [hbefore] at hrev
        obtain ⟨after, hafter, heq⟩ := Option.map_eq_some_iff.1 hrev
        exact .inr ⟨before, after, rfl, hafter, heq⟩

theorem IsPast.write {t t' : JobTable} {w : Write} {left : Option Job} {row : Job}
    (h : t.IsPast row) (hw : t.write w = .ok (t', left)) (hins : row.id ∉ w.inserted) :
    t'.IsPast row := by
  intro current hcurrent
  rcases find?_write_cases hw hins with ⟨-, hsame⟩ | hnone | ⟨before, after, hbefore, hafter, hrev⟩
  · exact h current (hsame ▸ hcurrent)
  · rw [hnone] at hcurrent
    cases hcurrent
  · rw [hafter] at hcurrent
    cases hcurrent
    have hlt := h before hbefore
    omega

/-- A write of a row that the table has held takes the table past it. -/
theorem HasReached.isPast_of_touches {t t' : JobTable} {w : Write} {left : Option Job} {row : Job}
    (h : t.HasReached row) (hw : t.write w = .ok (t', left)) (hins : row.id ∉ w.inserted)
    (htouch : w.touches row.id = true) : t'.IsPast row := by
  rcases h with h | h
  · intro current hcurrent
    rcases find?_write_cases hw hins with ⟨hnot, -⟩ | hnone | ⟨before, after, hbefore, hafter, hrev⟩
    · rw [hnot] at htouch
      cases htouch
    · rw [hnone] at hcurrent
      cases hcurrent
    · rw [hafter] at hcurrent
      rw [h] at hbefore
      cases hcurrent
      cases hbefore
      omega
  · exact h.write hw hins

theorem HasReached.write {t t' : JobTable} {w : Write} {left : Option Job} {row : Job}
    (h : t.HasReached row) (hw : t.write w = .ok (t', left)) (hins : row.id ∉ w.inserted) :
    t'.HasReached row := by
  cases htouch : w.touches row.id with
  | true => exact .inr (h.isPast_of_touches hw hins htouch)
  | false =>
    have hsame := find?_of_not_touches hw htouch
    unfold HasReached IsPast
    rw [hsame]
    exact h

theorem IsPast.writeAll {t t' : JobTable} {ws : List Write} {rows : List Job} {row : Job}
    (h : t.IsPast row) (hws : t.writeAll ws = .ok (t', rows))
    (hins : ∀ w ∈ ws, row.id ∉ w.inserted) : t'.IsPast row := by
  refine writeAll_preserves (P := fun t => t.IsPast row) ?_ hws h
  intro w hw t₁ t₂ left hwrite ht
  exact ht.write hwrite (hins w hw)

theorem HasReached.writeAll {t t' : JobTable} {ws : List Write} {rows : List Job} {row : Job}
    (h : t.HasReached row) (hws : t.writeAll ws = .ok (t', rows))
    (hins : ∀ w ∈ ws, row.id ∉ w.inserted) : t'.HasReached row := by
  refine writeAll_preserves (P := fun t => t.HasReached row) ?_ hws h
  intro w hw t₁ t₂ left hwrite ht
  exact ht.write hwrite (hins w hw)

/-- Writes of a row that the table has held take the table past it, if none of them inserts the name
again. -/
theorem HasReached.isPast_of_writeAll {t t' : JobTable} {ws : List Write} {rows : List Job}
    {row : Job} (h : t.HasReached row) (hws : t.writeAll ws = .ok (t', rows))
    (hins : ∀ w ∈ ws, row.id ∉ w.inserted) (htouch : ∃ w ∈ ws, w.touches row.id = true) :
    t'.IsPast row := by
  obtain ⟨w, hmem, hw⟩ := htouch
  obtain ⟨before, after, rfl⟩ := List.append_of_mem hmem
  obtain ⟨t₁, rows₁, rows₂, hbefore, hrest, -⟩ := writeAll_append_eq_ok_iff.1 hws
  obtain ⟨t₂, left, rest, hone, hafter, -⟩ := writeAll_cons_eq_ok_iff.1 hrest
  have hheld := h.writeAll hbefore fun v hv => hins v (List.mem_append_left _ hv)
  have hpast := hheld.isPast_of_touches hone (hins w hmem) hw
  exact hpast.writeAll hafter fun v hv =>
    hins v (List.mem_append_right _ (List.mem_cons_of_mem _ hv))

end JobTable

/-! ## Writes that rely on a revision -/

/-- The write is an update, a deletion or a lock of a name that relies on a revision. -/
inductive Write.ReliesOn (id : JobId) (revision : Nat) : Write → Prop
  | update {job : Job} (named : job.id = id) :
      ReliesOn id revision (.update job (.exactly revision))
  | delete : ReliesOn id revision (.delete id (.exactly revision))
  | lock {owner : Owner} {expiry now : Instant} :
      ReliesOn id revision (.lock id revision owner expiry now)

namespace JobTable

/-- A write that relies on a revision goes through only if the row of the name has it. -/
theorem find?_of_reliesOn {t t' : JobTable} {w : Write} {left : Option Job} {id : JobId}
    {revision : Nat} (h : t.write w = .ok (t', left)) (hw : w.ReliesOn id revision) :
    ∃ job, t.find? id = some job ∧ job.revision = revision := by
  obtain ⟨c, hc, -, -⟩ := write_eq_ok_iff.1 h
  cases hw with
  | update named =>
    subst named
    cases hc with
    | update found met => exact ⟨_, found, ((Expected.matches_exactly _ _).1 met).symm⟩
  | delete =>
    cases hc with
    | delete found met => exact ⟨_, found, ((Expected.matches_exactly _ _).1 met).symm⟩
  | lock =>
    cases hc with
    | lock found unlocked alone => exact ⟨_, found, rfl⟩

/-- No list of writes goes through one of which relies on a row that the table has gone past. -/
theorem IsPast.not_writeAll {t t' : JobTable} {ws : List Write} {rows : List Job} {row : Job}
    (h : t.IsPast row) (hins : ∀ w ∈ ws, row.id ∉ w.inserted)
    (hrelies : ∃ w ∈ ws, w.ReliesOn row.id row.revision) : t.writeAll ws ≠ .ok (t', rows) := by
  intro hws
  obtain ⟨w, hmem, hw⟩ := hrelies
  obtain ⟨before, after, rfl⟩ := List.append_of_mem hmem
  obtain ⟨t₁, rows₁, rows₂, hbefore, hrest, -⟩ := writeAll_append_eq_ok_iff.1 hws
  obtain ⟨t₂, left, rest, hone, -, -⟩ := writeAll_cons_eq_ok_iff.1 hrest
  have hpast := h.writeAll hbefore fun v hv => hins v (List.mem_append_left _ hv)
  obtain ⟨job, hfind, hrev⟩ := find?_of_reliesOn hone hw
  have hlt := hpast job hfind
  omega

end JobTable

/-! ## Histories in which no name is inserted twice -/

namespace Store

/-- No name is inserted twice, and none that the store has from the beginning. -/
def InsertsOnce (s : Store) (batches : List (List Write)) : Prop :=
  (s.jobs.rows.map Job.id ++ batches.flatten.flatMap Write.inserted).Nodup

theorem InsertsOnce.of_append {s : Store} {batches₁ batches₂ : List (List Write)}
    (h : s.InsertsOnce (batches₁ ++ batches₂)) : s.InsertsOnce batches₁ := by
  refine h.sublist ?_
  rw [List.flatten_append, List.flatMap_append, ← List.append_assoc]
  exact List.sublist_append_left _ _

end Store

theorem JobTable.find?_or_inserted {t t' : JobTable} {w : Write} {left : Option Job} {id : JobId}
    {row : Job} (h : t.write w = .ok (t', left)) (hrow : t'.find? id = some row) :
    (∃ before, t.find? id = some before) ∨ id ∈ w.inserted := by
  by_cases hins : id ∈ w.inserted
  · exact .inr hins
  · left
    rcases find?_write_cases h hins with ⟨-, hsame⟩ | hnone | ⟨before, _, hbefore, -, -⟩
    · exact ⟨row, hsame ▸ hrow⟩
    · rw [hnone] at hrow
      cases hrow
    · exact ⟨before, hbefore⟩

namespace Store

/-- Every row has a name that was there from the beginning or was inserted since. -/
theorem named_of_writeAll {s : Store} {t : JobTable} {ws : List Write} {rows : List Job}
    (hws : s.jobs.writeAll ws = .ok (t, rows)) {id : JobId} {row : Job}
    (hrow : t.find? id = some row) : id ∈ s.jobs.rows.map Job.id ++ ws.flatMap Write.inserted := by
  refine JobTable.writeAll_preserves
    (P := fun t => ∀ id row, t.find? id = some row →
      id ∈ s.jobs.rows.map Job.id ++ ws.flatMap Write.inserted) ?_ hws ?_ id row hrow
  · intro w hw t t' left hwrite ht id row hrow
    rcases JobTable.find?_or_inserted hwrite hrow with ⟨before, hbefore⟩ | hins
    · exact ht id before hbefore
    · exact List.mem_append_right _ (List.mem_flatMap.2 ⟨w, hw, hins⟩)
  · intro id row hrow
    obtain ⟨hmem, rfl⟩ := JobTable.find?_eq_some_iff.1 hrow
    exact List.mem_append_left _ (List.mem_map_of_mem hmem)

/-- Every row has a name that the store had from the beginning or that was inserted since. -/
theorem Commits.named {s s' : Store} {batches : List (List Write)} (h : s.Commits batches s')
    {id : JobId} {row : Job} (hrow : s'.jobs.find? id = some row) :
    id ∈ s.jobs.rows.map Job.id ++ batches.flatten.flatMap Write.inserted := by
  obtain ⟨rows, hws⟩ := h.writeAll
  exact named_of_writeAll hws hrow

/-- A name that was there from the beginning or was inserted once is not inserted any more. -/
theorem InsertsOnce.not_inserted {s : Store} {batches later : List (List Write)}
    (honce : s.InsertsOnce (batches ++ later)) {id : JobId}
    (hnamed : id ∈ s.jobs.rows.map Job.id ++ batches.flatten.flatMap Write.inserted) :
    ∀ w ∈ later.flatten, id ∉ w.inserted := by
  intro w hw hins
  rw [InsertsOnce, List.flatten_append, List.flatMap_append, ← List.append_assoc,
    List.nodup_append] at honce
  exact honce.2.2 id hnamed id (List.mem_flatMap.2 ⟨w, hw, hins⟩) rfl

/-- A row that was read stands until a batch is accepted that relies on it, and nobody writes it in
between. -/
theorem Commits.row_stands {s s₁ s₂ s₃ : Store} {batches between : List (List Write)}
    {batch : List Write} {rows : List Job} {id : JobId} {row : Job} (h : s.Commits batches s₁)
    (hrow : s₁.jobs.find? id = some row) (hbetween : s₁.Commits between s₂)
    (haccepted : s₂.apply batch = .ok (rows, s₃))
    (honce : s.InsertsOnce (batches ++ (between ++ [batch])))
    (hrelies : ∃ w ∈ batch, w.ReliesOn id row.revision) :
    s₂.jobs.find? id = some row ∧ ∀ w ∈ between.flatten, w.touches id = false := by
  obtain rfl := JobTable.id_of_find? hrow
  have hins := honce.not_inserted (h.named hrow)
  rw [List.flatten_append, List.forall_mem_append] at hins
  obtain ⟨hbefore, hbatch⟩ := hins
  rw [List.flatten_singleton] at hbatch
  obtain ⟨left, hws⟩ := hbetween.writeAll
  have hreached := JobTable.hasReached_of_find? hrow
  -- A table that has gone past the row would have refused the batch.
  have hnotPast : ¬ s₂.jobs.IsPast row := by
    intro hpast
    exact hpast.not_writeAll hbatch hrelies (writeAll_of_apply haccepted)
  constructor
  · exact (hreached.writeAll hws hbefore).resolve_right hnotPast
  · intro w hw
    rw [← Bool.not_eq_true]
    intro htouch
    exact hnotPast (hreached.isPast_of_writeAll hws hbefore ⟨w, hw, htouch⟩)

end Store

/-! ## Deletions -/

/-- A job that is gone and is not inserted again is not deleted again. -/
theorem JobTable.deletes_eq_false_of_find?_eq_none {t t' : JobTable} {ws : List Write}
    {rows : List Job} {id : JobId} (hws : t.writeAll ws = .ok (t', rows))
    (hnone : t.find? id = none) (hins : ∀ w ∈ ws, id ∉ w.inserted) :
    ∀ w ∈ ws, w.deletes id = false := by
  induction ws generalizing t rows with
  | nil => exact List.forall_mem_nil _
  | cons w ws ih =>
    obtain ⟨t₁, left, rest, hw, hrest, -⟩ := writeAll_cons_eq_ok_iff.1 hws
    obtain ⟨hwins, hwsins⟩ := List.forall_mem_cons.1 hins
    refine List.forall_mem_cons.2 ⟨?_, ih hrest ?_ hwsins⟩
    · rw [← Bool.not_eq_true]
      intro hdeletes
      obtain ⟨c, hc, -, -⟩ := write_eq_ok_iff.1 hw
      cases hc with
      | delete found met =>
        obtain rfl := beq_iff_eq.1 hdeletes
        have hfound : t.find? _ = some _ := found
        rw [hnone] at hfound
        cases hfound
      | _ => cases hdeletes
    · rw [Option.eq_none_iff_forall_ne_some]
      intro row hrow
      rcases find?_or_inserted hw hrow with ⟨before, hbefore⟩ | hinserted
      · rw [hnone] at hbefore
        cases hbefore
      · exact hwins hinserted

/-- In a history in which no name is inserted twice, a job is deleted at most once. -/
theorem Store.Commits.deletes_once {s s' : Store} {batches : List (List Write)}
    (h : s.Commits batches s') (honce : s.InsertsOnce batches) {before after : List Write} {w : Write}
    {id : JobId} (hlog : batches.flatten = before ++ w :: after) (hw : w.deletes id = true) :
    ∀ w' ∈ after, w'.deletes id = false := by
  obtain ⟨rows, hws⟩ := h.writeAll
  rw [InsertsOnce] at honce
  rw [hlog] at hws honce
  obtain ⟨t₁, rows₁, rows₂, hbefore, hrest, -⟩ := JobTable.writeAll_append_eq_ok_iff.1 hws
  obtain ⟨t₂, left, rest, hone, hafter, -⟩ := JobTable.writeAll_cons_eq_ok_iff.1 hrest
  obtain ⟨c, hc, rfl, -⟩ := JobTable.write_eq_ok_iff.1 hone
  cases hc with
  | @delete k row expected found met =>
    obtain rfl := beq_iff_eq.1 hw
    refine JobTable.deletes_eq_false_of_find?_eq_none hafter ?_ ?_
    · rw [JobTable.change, JobTable.find?_erase]
      exact if_pos rfl
    · -- The name of the row that was found is known, and so not inserted after it.
      have hnamed := named_of_writeAll hbefore found
      intro w' hw' hins
      rw [List.flatMap_append, ← List.append_assoc, List.nodup_append] at honce
      refine honce.2.2 k hnamed k ?_ rfl
      exact List.mem_flatMap.2 ⟨w', List.mem_cons_of_mem _ hw', hins⟩
  | _ => cases hw

end DeferredWork

import DeferredWork.Proofs.Store.IncidentHistory
import DeferredWork.Proofs.Store.Rows

set_option autoImplicit false

/-!
# Independent batches

A batch looks at the rows of the names that it writes and, for its locks, at the rows of the scopes
of these.  Tables that hold the same of all these rows let the batch through alike, or refuse it for
the same reason (`JobTable.AgreeOn.writeAll`).  Two batches are independent if they name no job in
common and no version of a job that one of them writes is in a scope of one that the other writes
(`JobTable.Independent`); then neither changes what the other looks at, and it does not matter which
of them comes first (`Store.independent_batches_commute`).
-/

namespace DeferredWork

variable {t t' t₁ : JobTable} {w : Write} {ws vs : List Write} {id : JobId} {row : Job}

theorem Write.target_of_touches (h : w.touches id = true) : w.target = id := by
  cases w with
  | raise incident => cases h
  | resolve k now => cases h
  | _ => exact beq_iff_eq.1 h

/-! ## Versions -/

namespace JobTable

/-- The rows that the writes of a batch leave, up to the first that is refused. -/
def staged (t : JobTable) : List Write → List Job
  | [] => []
  | w :: ws =>
    match t.write w with
    | .error _ => []
    | .ok (t', row) => row.toList ++ t'.staged ws

/-- The versions of the jobs that a batch writes: those that the table holds, and those that the
batch stages. -/
def versions (t : JobTable) (ws : List Write) : List Job :=
  t.rows.filter (fun row => ws.any (Write.touches row.id)) ++ t.staged ws

/-- The scopes in which a version of a job that a batch writes claims to run alone. -/
def scopesOf (t : JobTable) (ws : List Write) : List ScopeId :=
  (t.versions ws).filterMap Job.exclusivityScope

theorem mem_versions :
    row ∈ t.versions ws ↔
      (row ∈ t.rows ∧ ∃ w ∈ ws, w.touches row.id = true) ∨ row ∈ t.staged ws := by
  rw [versions, List.mem_append, List.mem_filter, List.any_eq_true]

/-- What the table holds of a name that a write touches is what the write left. -/
theorem left_of_mem_rows {left : Option Job} (h : t.write w = .ok (t', left))
    (htouches : w.touches row.id = true) (hrow : row ∈ t'.rows) : left = some row := by
  obtain ⟨c, hc, rfl, rfl⟩ := write_eq_ok_iff.1 h
  have hon : c.on? row.id ≠ none := by
    rw [ne_eq, on?_eq_none_iff hc, htouches]
    exact Bool.noConfusion
  have hfound := find?_eq_some_of_mem hrow
  rw [find?_change] at hfound
  cases c with
  | put found =>
    rw [Change.on?] at hon hfound
    split at hon
    · rename_i hname
      rw [if_pos hname] at hfound
      exact hfound
    · exact absurd rfl hon
  | erase k =>
    rw [Change.on?] at hon hfound
    split at hon
    · rename_i hname
      rw [if_pos hname] at hfound
      cases hfound
    · exact absurd rfl hon
  | keep => exact absurd rfl hon

theorem mem_rows_congr (h : t'.find? row.id = t.find? row.id) : row ∈ t'.rows ↔ row ∈ t.rows := by
  have hmem (t : JobTable) : row ∈ t.rows ↔ t.find? row.id = some row := by
    rw [find?_eq_some_iff, and_iff_left rfl]
  rw [hmem, hmem, h]

/-- A version of a job that the rest of a batch writes is one that the batch writes. -/
theorem versions_of_write {left : Option Job} (h : t.write w = .ok (t', left))
    (hrow : row ∈ t'.versions ws) : row ∈ t.versions (w :: ws) := by
  have hstaged : t.staged (w :: ws) = left.toList ++ t'.staged ws := by rw [staged, h]
  rw [mem_versions, hstaged, List.mem_append, Option.mem_toList]
  rcases mem_versions.1 hrow with ⟨hstored, v, hv, htouches⟩ | hlater
  · cases hw : w.touches row.id with
    | true => exact .inr (.inl (left_of_mem_rows h hw hstored))
    | false =>
      have hbefore := (mem_rows_congr (find?_of_not_touches h hw)).1 hstored
      exact .inl ⟨hbefore, v, List.mem_cons_of_mem w hv, htouches⟩
  · exact .inr (.inr hlater)

/-- What the table holds after a batch of a name that the batch touches was staged by the batch. -/
theorem mem_staged {rows : List Job} (h : t.writeAll ws = .ok (t', rows))
    (htouches : ∃ w ∈ ws, w.touches row.id = true) (hrow : row ∈ t'.rows) : row ∈ t.staged ws := by
  induction ws generalizing t rows with
  | nil => simp at htouches
  | cons w ws ih =>
    obtain ⟨t₁, left, rest, hw, hws, -⟩ := writeAll_cons_eq_ok_iff.1 h
    rw [staged, hw, List.mem_append, Option.mem_toList]
    by_cases hlater : ∃ v ∈ ws, v.touches row.id = true
    · exact .inr (ih hws hlater)
    · -- The last write of the name is the first of the batch.
      have hnot : ∀ v ∈ ws, v.touches row.id = false := by simpa using hlater
      have hfirst : w.touches row.id = true := by simpa [hlater] using htouches
      have hthere := (mem_rows_congr (find?_writeAll_of_not_touches hws hnot)).1 hrow
      exact .inl (left_of_mem_rows hw hfirst hthere)

/-! ## What a batch looks at -/

/-- The tables hold the same of the rows in question. -/
def AgreeOn (t : JobTable) (matters : Job → Prop) (t' : JobTable) : Prop :=
  ∀ row, matters row → (row ∈ t.rows ↔ row ∈ t'.rows)

/-- All rows of a name matter. -/
def NameMatters (matters : Job → Prop) (id : JobId) : Prop := ∀ row, row.id = id → matters row

/-- All rows that claim to run alone in a scope matter. -/
def ScopeMatters (matters : Job → Prop) (scope : ScopeId) : Prop :=
  ∀ row, row.exclusivityScope = some scope → matters row

variable {matters : Job → Prop}

theorem AgreeOn.change (h : t.AgreeOn matters t') (c : Change) :
    (t.change c).AgreeOn matters (t'.change c) := by
  intro row hrow
  cases c with
  | put job => rw [JobTable.change, JobTable.change, mem_put, mem_put, h row hrow]
  | erase id => rw [JobTable.change, JobTable.change, mem_erase, mem_erase, h row hrow]
  | keep => exact h row hrow

theorem AgreeOn.find? (h : t.AgreeOn matters t') (hid : NameMatters matters id) :
    t.find? id = t'.find? id := by
  apply Option.ext
  intro row
  rw [find?_eq_some_iff, find?_eq_some_iff]
  exact and_congr_left fun hname => h row (hid row hname)

theorem AgreeOn.isScopeBusy (h : t.AgreeOn matters t') {scope : ScopeId}
    (hscope : ScopeMatters matters scope) (except : JobId) (now : Instant) :
    t.view.isScopeBusy scope except now = t'.view.isScopeBusy scope except now := by
  rw [Bool.eq_iff_iff, view, view, List.any_eq_true, List.any_eq_true]
  refine exists_congr fun row => and_congr_left fun hoccupies => h row (hscope row ?_)
  simp only [Job.occupies, Bool.and_eq_true, beq_iff_eq] at hoccupies
  exact hoccupies.1.2

theorem AgreeOn.locked (h : t.AgreeOn matters t') {job : Job}
    (hscope : ∀ scope, job.exclusivityScope = some scope → ScopeMatters matters scope)
    (owner : Owner) (expiry now : Instant) :
    t.view.locked job owner expiry now = t'.view.locked job owner expiry now := by
  have hbusy : t.view.busyScope? job now = t'.view.busyScope? job now := by
    unfold View.busyScope?
    split
    · rfl
    · rename_i scope hsome
      rw [h.isScopeBusy (hscope scope hsome)]
  rw [View.locked, View.locked, hbusy]

/-- A write is judged by the rows of its name and of the scope of the row that it finds. -/
theorem AgreeOn.judge (h : t.AgreeOn matters t')
    (hnames : ∀ id, w.touches id = true → NameMatters matters id)
    (hscopes : ∀ row ∈ t.rows, w.touches row.id = true → ∀ scope,
      row.exclusivityScope = some scope → ScopeMatters matters scope) :
    t.view.judge w = t'.view.judge w := by
  have hfind : ∀ id, w.touches id = true → t.view.find? id = t'.view.find? id :=
    fun id hid => h.find? (hnames id hid)
  have hcurrent : ∀ id expected, w.touches id = true →
      t.view.current id expected = t'.view.current id expected := by
    intro id expected hid
    rw [View.current, View.current, hfind id hid]
  cases w with
  | insert job => rw [View.judge, View.judge, hfind job.id (beq_self_eq_true _)]
  | update job expected => rw [View.judge, View.judge, hcurrent job.id _ (beq_self_eq_true _)]
  | lock id revision owner expiry now =>
    have htouches := beq_self_eq_true id
    rw [View.judge, View.judge, ← hcurrent id _ htouches]
    cases hfound : t.view.current id (.exactly revision) with
    | error e => rfl
    | ok before =>
      have hbefore : t.find? id = some before := (View.current_eq_ok_iff.1 hfound).1
      obtain rfl := id_of_find? hbefore
      have hlocked := h.locked (hscopes before (mem_of_find? hbefore) htouches) owner expiry now
      dsimp only
      rw [hlocked]
  | delete id expected => rw [View.judge, View.judge, hcurrent id _ (beq_self_eq_true _)]
  | raise incident => rfl
  | resolve id now => rfl

/-- A batch goes the same way on tables that hold the same of the rows that it looks at: those of the
names that it writes, and those of the scopes of what it writes. -/
theorem AgreeOn.writeAll (h : t.AgreeOn matters t')
    (hnames : ∀ w ∈ ws, ∀ id, w.touches id = true → NameMatters matters id)
    (hscopes : ∀ scope ∈ t.scopesOf ws, ScopeMatters matters scope) :
    match t.writeAll ws with
    | .error e => t'.writeAll ws = .error e
    | .ok (_, rows) => ∃ t₁', t'.writeAll ws = .ok (t₁', rows) := by
  induction ws generalizing t t' with
  | nil => exact ⟨t', rfl⟩
  | cons w ws ih =>
    obtain ⟨hfirst, hrest⟩ := List.forall_mem_cons.1 hnames
    have hjudge : t.view.judge w = t'.view.judge w := by
      refine h.judge hfirst fun row hrow htouches scope hscope => hscopes scope ?_
      refine List.mem_filterMap.2 ⟨row, mem_versions.2 (.inl ⟨hrow, w, ?_, htouches⟩), hscope⟩
      exact List.mem_cons_self
    cases hc : t.view.judge w with
    | error e =>
      rw [hc] at hjudge
      simp only [JobTable.writeAll, write, hc, ← hjudge]
    | ok c =>
      have hw : t.write w = .ok (t.change c, c.row?) := by rw [write, hc]
      have hlater : ∀ scope ∈ (t.change c).scopesOf ws, ScopeMatters matters scope := by
        intro scope hscope
        obtain ⟨row, hrow, hsome⟩ := List.mem_filterMap.1 hscope
        exact hscopes scope (List.mem_filterMap.2 ⟨row, versions_of_write hw hrow, hsome⟩)
      have hws := ih (h.change c) hrest hlater
      rw [hc] at hjudge
      simp only [JobTable.writeAll, write, hc, ← hjudge]
      cases happly : (t.change c).writeAll ws with
      | error e =>
        rw [happly] at hws
        simp only [hws]
      | ok result =>
        obtain ⟨t₂, rows⟩ := result
        rw [happly] at hws
        obtain ⟨t₂', ht₂'⟩ := hws
        exact ⟨t₂', by simp only [ht₂']⟩

/-! ## Independence -/

/-- Two batches on a table have nothing to do with each other: they name no job in common, and no
version of a job that one of them writes claims to run alone in a scope in which one claims to that
the other writes. -/
structure Independent (t : JobTable) (ws vs : List Write) : Prop where
  names : ∀ w ∈ ws, ∀ v ∈ vs, w.target ≠ v.target
  scopes : ∀ scope ∈ t.scopesOf ws, scope ∉ t.scopesOf vs

theorem Independent.symm (h : t.Independent ws vs) : t.Independent vs ws where
  names v hv w hw heq := h.names w hw v hv heq.symm
  scopes scope hv hw := h.scopes scope hw hv

/-- The row is of a name that the batch writes, or of a scope of what it writes. -/
def Matters (t : JobTable) (ws : List Write) (row : Job) : Prop :=
  (∃ w ∈ ws, w.touches row.id = true) ∨
    ∃ scope ∈ t.scopesOf ws, row.exclusivityScope = some scope

/-- No version of a job that a batch writes matters to an independent one. -/
theorem Independent.not_matters (h : t.Independent ws vs) (hrow : row ∈ t.versions vs)
    (htouches : ∃ v ∈ vs, v.touches row.id = true) : ¬ t.Matters ws row := by
  rintro (⟨w, hw, htouches'⟩ | ⟨scope, hscope, hsome⟩)
  · obtain ⟨v, hv, htouches⟩ := htouches
    refine h.names w hw v hv ?_
    rw [Write.target_of_touches htouches', Write.target_of_touches htouches]
  · exact h.scopes scope hscope (List.mem_filterMap.2 ⟨row, hrow, hsome⟩)

/-- A batch leaves all that an independent one looks at as it is. -/
theorem Independent.agreeOn (h : t.Independent ws vs) {rows : List Job}
    (hvs : t.writeAll vs = .ok (t', rows)) : t.AgreeOn (t.Matters ws) t' := by
  intro row hmatters
  by_cases htouches : ∃ v ∈ vs, v.touches row.id = true
  · have hbefore : row ∉ t.rows := fun hrow =>
      h.not_matters (mem_versions.2 (.inl ⟨hrow, htouches⟩)) htouches hmatters
    have hafter : row ∉ t'.rows := fun hrow =>
      h.not_matters (mem_versions.2 (.inr (mem_staged hvs htouches hrow))) htouches hmatters
    exact iff_of_false hbefore hafter
  · have hnot : ∀ v ∈ vs, v.touches row.id = false := by simpa using htouches
    exact (mem_rows_congr (find?_writeAll_of_not_touches hvs hnot)).symm

/-- A batch goes the same way before and after an independent one. -/
theorem Independent.writeAll_after (h : t.Independent ws vs) {rows : List Job}
    (hvs : t.writeAll vs = .ok (t', rows)) :
    match t.writeAll ws with
    | .error e => t'.writeAll ws = .error e
    | .ok (_, rows) => ∃ t₁, t'.writeAll ws = .ok (t₁, rows) := by
  refine (h.agreeOn hvs).writeAll (fun w hw id hid row hname => ?_) fun scope hscope row hrow => ?_
  · exact .inl ⟨w, hw, hname ▸ hid⟩
  · exact .inr ⟨scope, hscope, hrow⟩

theorem foldl_remake_of_not_touches (hnot : ∀ w ∈ ws, w.touches id = false) (row : Option Job) :
    ws.foldl (Write.remake id) row = row := by
  induction ws with
  | nil => rfl
  | cons w ws ih =>
    obtain ⟨hw, hws⟩ := List.forall_mem_cons.1 hnot
    have hsame : w.remake id row = row := by
      cases w with
      | raise incident => rfl
      | resolve k now => rfl
      | _ => exact if_neg (beq_eq_false_iff_ne.1 hw)
    rw [List.foldl_cons, hsame, ih hws]

/-- Two batches that go through in either order leave the same table. -/
theorem Independent.writeAll_comm (h : t.Independent ws vs) {tw twv tv tvw : JobTable}
    {rows₁ rows₂ rows₃ rows₄ : List Job} (hw : t.writeAll ws = .ok (tw, rows₁))
    (hwv : tw.writeAll vs = .ok (twv, rows₂)) (hv : t.writeAll vs = .ok (tv, rows₃))
    (hvw : tv.writeAll ws = .ok (tvw, rows₄)) : twv = tvw := by
  refine ext_of_find? fun id => ?_
  rw [find?_writeAll hwv, find?_writeAll hw, find?_writeAll hvw, find?_writeAll hv]
  by_cases htouches : ∃ w ∈ ws, w.touches id = true
  · obtain ⟨w, hmem, hid⟩ := htouches
    have hnot : ∀ v ∈ vs, v.touches id = false := by
      intro v hv
      rw [← Bool.not_eq_true]
      intro hid'
      exact h.names w hmem v hv
        ((Write.target_of_touches hid).trans (Write.target_of_touches hid').symm)
    rw [foldl_remake_of_not_touches hnot, foldl_remake_of_not_touches hnot]
  · have hnot : ∀ w ∈ ws, w.touches id = false := by simpa using htouches
    rw [foldl_remake_of_not_touches hnot, foldl_remake_of_not_touches hnot]

end JobTable

/-! ## Incidents of one job -/

namespace Incident

variable {incidents : List Incident}

/-- To raise an incident of a job looks at the incidents of that job alone, and changes no others. -/
theorem ofJob_raiseAmong (incident : Incident) :
    ofJob id (incident.raiseAmong incidents) =
      if incident.jobId = id then incident.raiseAmong (ofJob id incidents)
      else ofJob id incidents := by
  induction incidents with
  | nil =>
    rw [raiseAmong, ofJob_cons]
    rfl
  | cons i incidents ih =>
    rw [raiseAmong]
    by_cases hbumps : (i.jobId == incident.jobId && i.isOpen) = true
    · have hname : i.jobId = incident.jobId := by simpa using (Bool.and_eq_true_iff.1 hbumps).1
      have hbumped : (i.bumped incident).jobId = incident.jobId := hname
      rw [if_pos hbumps, ofJob_cons, ofJob_cons, hbumped, hname]
      split
      · rw [raiseAmong, if_pos hbumps]
      · rfl
    · rw [if_neg hbumps, ofJob_cons, ofJob_cons, ih]
      by_cases hi : i.jobId = id
      · rw [if_pos hi, if_pos hi]
        split
        · rw [raiseAmong, if_neg hbumps]
        · rfl
      · rw [if_neg hi, if_neg hi]

theorem ofJob_resolveAmong (k : JobId) (now : Instant) :
    ofJob id (resolveAmong k now incidents) =
      if k = id then resolveAmong k now (ofJob id incidents) else ofJob id incidents := by
  induction incidents with
  | nil => simp [resolveAmong, ofJob]
  | cons i incidents ih =>
    rw [resolveAmong, List.map_cons, ← resolveAmong, ofJob_cons, ofJob_cons, ih]
    by_cases hresolves : (i.jobId == k && i.isOpen) = true
    · have hname : i.jobId = k := by simpa using (Bool.and_eq_true_iff.1 hresolves).1
      have hresolved : (i.resolvedAt now).jobId = k := hname
      rw [if_pos hresolves, hresolved, hname]
      split
      · rw [resolveAmong, resolveAmong, List.map_cons, if_pos hresolves]
      · rfl
    · rw [if_neg hresolves]
      by_cases hi : i.jobId = id
      · rw [if_pos hi, if_pos hi]
        split
        · rw [resolveAmong, resolveAmong, List.map_cons, if_neg hresolves]
        · rfl
      · rw [if_neg hi, if_neg hi]

/-- A write makes of the incidents of a job what it would make of them alone, and leaves them as they
are if it is about another job. -/
theorem ofJob_writeAmong (w : Write) :
    ofJob id (writeAmong incidents w) =
      if w.target = id then writeAmong (ofJob id incidents) w else ofJob id incidents := by
  cases w with
  | raise incident => exact ofJob_raiseAmong incident
  | resolve k now => exact ofJob_resolveAmong k now
  | _ => exact (ite_self _).symm

/-- The incidents of a job after some writes are what the writes about that job make of them. -/
theorem ofJob_writesAmong (ws : List Write) :
    ofJob id (ws.foldl writeAmong incidents) =
      (ws.filter fun w => w.target = id).foldl writeAmong (ofJob id incidents) := by
  induction ws generalizing incidents with
  | nil => rfl
  | cons w ws ih =>
    rw [List.foldl_cons, ih, ofJob_writeAmong, List.filter_cons]
    by_cases hid : w.target = id
    · rw [if_pos hid, if_pos (decide_eq_true hid), List.foldl_cons]
    · rw [if_neg hid, if_neg (by simpa using hid)]

/-- Writes about different jobs change the incidents of each job alike in either order. -/
theorem ofJob_writesAmong_comm (h : ∀ w ∈ ws, ∀ v ∈ vs, w.target ≠ v.target) :
    ofJob id (vs.foldl writeAmong (ws.foldl writeAmong incidents)) =
      ofJob id (ws.foldl writeAmong (vs.foldl writeAmong incidents)) := by
  simp only [ofJob_writesAmong]
  have hnone : (ws.filter fun w => w.target = id) = [] ∨
      (vs.filter fun v => v.target = id) = [] := by
    by_contra hboth
    obtain ⟨hws, hvs⟩ := not_or.1 hboth
    obtain ⟨w, hw⟩ := List.exists_mem_of_ne_nil _ hws
    obtain ⟨v, hv⟩ := List.exists_mem_of_ne_nil _ hvs
    obtain ⟨hw, hwid⟩ := List.mem_filter.1 hw
    obtain ⟨hv, hvid⟩ := List.mem_filter.1 hv
    exact h w hw v hv ((of_decide_eq_true hwid).trans (of_decide_eq_true hvid).symm)
  rcases hnone with hnone | hnone <;> rw [hnone] <;> rfl

end Incident

/-! ## Batches in either order -/

namespace Store

/-- What comes of two batches one after the other: the answers to both, and the store after them. -/
def applyBoth (s : Store) (ws vs : List Write) :
    Except StoreError (List Job) × Except StoreError (List Job) × Store :=
  let (first, s₁) := s.perform (.apply ws)
  let (second, s₂) := s₁.perform (.apply vs)
  (first, second, s₂)

/-- The stores hold the same jobs, and of each job the same incidents in the same order. -/
structure Alike (s s' : Store) : Prop where
  jobs : s.jobs = s'.jobs
  incidents : ∀ id, Incident.ofJob id s.incidents = Incident.ofJob id s'.incidents
  available : s.available = s'.available

theorem Alike.refl (s : Store) : s.Alike s := ⟨rfl, fun _ => rfl, rfl⟩

/-- A store out of reach is left as it is by every batch. -/
theorem perform_apply_of_out_of_reach {s : Store} (h : s.available = false) (ws : List Write) :
    (s.perform (.apply ws)).2 = s := by
  cases ws with
  | nil => rfl
  | cons w ws => rw [perform_apply_of_not_available h]

/-- A store in reach refuses a batch and stays as it is, or accepts it. -/
theorem perform_apply_cases {s : Store} (h : s.available = true) (ws : List Write) :
    (∃ e, s.jobs.writeAll ws = .error e ∧ s.perform (.apply ws) = (.error e, s)) ∨
      ∃ jobs rows, s.jobs.writeAll ws = .ok (jobs, rows) ∧
        s.perform (.apply ws) = (.ok rows,
          { s with jobs := jobs, incidents := ws.foldl Incident.writeAmong s.incidents }) := by
  rw [perform_apply_of_available h]
  cases s.jobs.writeAll ws with
  | error e => exact .inl ⟨e, rfl, rfl⟩
  | ok result => exact .inr ⟨result.1, result.2, rfl, rfl⟩

/-- **Independent batches commute.**  If two batches name no job in common, and no version of a job
that one of them writes is in a scope of one that the other writes, then each of them is answered
alike whichever comes first, with the same rows or the same refusal, and the store after both holds
the same jobs and the same incidents of each job. -/
theorem independent_batches_commute (s : Store) {ws vs : List Write}
    (h : s.jobs.Independent ws vs) :
    (s.applyBoth ws vs).1 = (s.applyBoth vs ws).2.1 ∧
      (s.applyBoth ws vs).2.1 = (s.applyBoth vs ws).1 ∧
      (s.applyBoth ws vs).2.2.Alike (s.applyBoth vs ws).2.2 := by
  simp only [applyBoth]
  cases havailable : s.available with
  | false =>
    simp only [perform_apply_of_out_of_reach havailable]
    exact ⟨trivial, trivial, .refl s⟩
  | true =>
    obtain ⟨e, hw, hfirst⟩ | ⟨tw, rows, hw, hfirst⟩ := perform_apply_cases havailable ws
    · -- The first batch is refused, so that it is refused after the second one too.
      obtain ⟨e', hv, hsecond⟩ | ⟨tv, rows', hv, hsecond⟩ := perform_apply_cases havailable vs
      · simp only [hfirst, hsecond]
        exact ⟨trivial, trivial, .refl s⟩
      · have hafter := h.writeAll_after hv
        rw [hw] at hafter
        simp only [hfirst, hsecond]
        rw [perform_apply_of_available (s := { s with jobs := tv, incidents := _ }) havailable]
        simp only [hafter]
        exact ⟨trivial, trivial, .refl _⟩
    · have hafter := h.symm.writeAll_after hw
      obtain ⟨e', hv, hsecond⟩ | ⟨tv, rows', hv, hsecond⟩ := perform_apply_cases havailable vs
      · rw [hv] at hafter
        simp only [hfirst, hsecond]
        rw [perform_apply_of_available (s := { s with jobs := tw, incidents := _ }) havailable]
        simp only [hafter]
        exact ⟨trivial, trivial, .refl _⟩
      · have hbefore := h.writeAll_after hv
        rw [hw] at hbefore
        rw [hv] at hafter
        obtain ⟨tvw, hvw⟩ := hbefore
        obtain ⟨twv, hwv⟩ := hafter
        simp only [hfirst, hsecond]
        rw [perform_apply_of_available (s := { s with jobs := tv, incidents := _ }) havailable,
          perform_apply_of_available (s := { s with jobs := tw, incidents := _ }) havailable]
        simp only [hvw, hwv]
        refine ⟨trivial, trivial, ⟨h.writeAll_comm hw hwv hv hvw, fun id => ?_, rfl⟩⟩
        exact Incident.ofJob_writesAmong_comm h.names

/-! ## Two tenants -/

end Store

/-- The only job of a tenant, in the tenant's scope. -/
def Job.ofTenant (tenant : String) : Job :=
  { Job.new ⟨tenant⟩ "mail" .epoch with scope := some ⟨tenant⟩, revision := 1 }

namespace Store

/-- A store with the jobs of an eastern and of a western tenant. -/
def ofTenants : Store :=
  { empty with jobs := (JobTable.empty.put (.ofTenant "east")).put (.ofTenant "west") }

/-- Locks the job of the eastern tenant, and raises an incident of it. -/
def lockEast : List Write :=
  [.lock ⟨"east"⟩ 1 ⟨"engine"⟩ .last .epoch,
    .raise (.forJob .nil (.ofTenant "east") "late" none .epoch)]

/-- Moves the job of the western tenant to a northern scope, locks it there, and raises an incident
of it. -/
def moveWest : List Write :=
  [.update { Job.ofTenant "west" with scope := some ⟨"north"⟩ } (.exactly 1),
    .lock ⟨"west"⟩ 2 ⟨"engine"⟩ .last .epoch,
    .raise (.forJob .nil (.ofTenant "west") "moved" none .epoch)]

/-- The batches for the two tenants commute, although the list of incidents shows which of them came
first. -/
theorem batches_of_tenants_commute :
    (ofTenants.applyBoth lockEast moveWest).1 = (ofTenants.applyBoth moveWest lockEast).2.1 ∧
      (ofTenants.applyBoth lockEast moveWest).2.1 = (ofTenants.applyBoth moveWest lockEast).1 ∧
      (ofTenants.applyBoth lockEast moveWest).2.2.Alike
        (ofTenants.applyBoth moveWest lockEast).2.2 ∧
      (ofTenants.applyBoth lockEast moveWest).2.2 ≠
        (ofTenants.applyBoth moveWest lockEast).2.2 := by
  have hindependent : ofTenants.jobs.Independent lockEast moveWest := by
    constructor <;> decide +kernel
  obtain ⟨heast, hwest, halike⟩ := independent_batches_commute ofTenants hindependent
  exact ⟨heast, hwest, halike, by decide +kernel⟩

/-- Two locks in one scope do not commute: the first of them is accepted. -/
example :
    let moved := { Job.ofTenant "west" with scope := some ⟨"east"⟩ }
    let s : Store := { ofTenants with jobs := ofTenants.jobs.put moved }
    let lockWest : List Write := [.lock ⟨"west"⟩ 1 ⟨"engine"⟩ .last .epoch]
    (s.applyBoth lockEast lockWest).2.1 ≠ (s.applyBoth lockWest lockEast).1 := by
  decide +kernel

end Store

end DeferredWork

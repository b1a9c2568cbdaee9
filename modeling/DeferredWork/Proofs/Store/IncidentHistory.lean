import Mathlib.Algebra.GroupWithZero.Nat
import DeferredWork.Proofs.Store.Incidents
import DeferredWork.Proofs.Store.Revision

set_option autoImplicit false

/-!
# The history of incidents

The list of incidents is a history: each write leaves every incident at its place, changes none that
was resolved, and at most adds one at the end (`Incident.extends_writeAmong`).  A raise is counted
once, by the open incident of its job or by the one that it adds.  So for each job the occurrences
add up to the raises, and there are as many incidents as raises that found none open, of which at
most one is open (`Store.Commits.incident_history_exact`).
-/

namespace DeferredWork

/-! ## What writes ask of the incidents -/

namespace Write

/-- The write raises an incident of a job. -/
def escalates (id : JobId) : Write → Bool
  | .raise incident => incident.jobId == id
  | _ => false

/-- An incident that the write raises is a first incident of some job. -/
def RaisesFirst : Write → Prop
  | .raise incident =>
    ∃ uuid job message details now, incident = .forJob uuid job message details now
  | _ => True

end Write

namespace Incident

variable {incident : Incident} {incidents before after : List Incident} {w : Write} {id : JobId}

/-- How many writes raise an incident of a job and find none of it open, if they are made one after
the other. -/
def openings (id : JobId) : List Incident → List Write → Nat
  | _, [] => 0
  | incidents, w :: ws =>
    (if w.escalates id = true ∧ id ∉ openJobs incidents then 1 else 0) +
      openings id (writeAmong incidents w) ws

/-! ## What becomes of an incident -/

/-- What an incident may have become: an open one may have counted more, or be resolved; one that is
not open is the same. -/
structure Continues (before after : Incident) : Prop where
  id : after.id = before.id
  jobId : after.jobId = before.jobId
  kind : after.kind = before.kind
  scope : after.scope = before.scope
  created : after.created = before.created
  occurrences : before.occurrences ≤ after.occurrences
  settled : before.isOpen = false → after = before

theorem Continues.refl (incident : Incident) : incident.Continues incident :=
  ⟨rfl, rfl, rfl, rfl, rfl, Nat.le_refl _, fun _ => rfl⟩

theorem Continues.trans {i j k : Incident} (h₁ : i.Continues j) (h₂ : j.Continues k) :
    i.Continues k where
  id := h₂.id.trans h₁.id
  jobId := h₂.jobId.trans h₁.jobId
  kind := h₂.kind.trans h₁.kind
  scope := h₂.scope.trans h₁.scope
  created := h₂.created.trans h₁.created
  occurrences := Nat.le_trans h₁.occurrences h₂.occurrences
  settled hclosed := by
    obtain rfl := h₁.settled hclosed
    exact h₂.settled hclosed

theorem continues_bumped (hopen : incident.isOpen = true) (again : Incident) :
    incident.Continues (incident.bumped again) where
  id := rfl
  jobId := rfl
  kind := rfl
  scope := rfl
  created := rfl
  occurrences := Nat.le_succ _
  settled hclosed := absurd hopen (Bool.not_eq_true _ ▸ hclosed)

theorem continues_resolvedAt (hopen : incident.isOpen = true) (now : Instant) :
    incident.Continues (incident.resolvedAt now) where
  id := rfl
  jobId := rfl
  kind := rfl
  scope := rfl
  created := rfl
  occurrences := Nat.le_refl _
  settled hclosed := absurd hopen (Bool.not_eq_true _ ▸ hclosed)

/-- The incidents and what may have become of them: each is at its place still, and others may stand
after them. -/
def Extends (before after : List Incident) : Prop :=
  ∀ (place : Nat) (i : Incident), before[place]? = some i →
    ∃ j, after[place]? = some j ∧ i.Continues j

theorem Extends.refl (incidents : List Incident) : Extends incidents incidents :=
  fun _ i hi => ⟨i, hi, .refl i⟩

theorem Extends.trans {xs ys zs : List Incident} (h₁ : Extends xs ys) (h₂ : Extends ys zs) :
    Extends xs zs := by
  intro place i hi
  obtain ⟨j, hj, hij⟩ := h₁ place i hi
  obtain ⟨k, hk, hjk⟩ := h₂ place j hj
  exact ⟨k, hk, hij.trans hjk⟩

theorem extends_cons {i j : Incident} (h : i.Continues j) (hrest : Extends before after) :
    Extends (i :: before) (j :: after) := by
  rintro (_ | place) k hk
  · obtain rfl := Option.some.inj hk
    exact ⟨j, rfl, h⟩
  · exact hrest place k hk

theorem extends_nil (incidents : List Incident) : Extends [] incidents := fun _ _ hi => nomatch hi

theorem extends_raiseAmong (incident : Incident) (incidents : List Incident) :
    Extends incidents (incident.raiseAmong incidents) := by
  induction incidents with
  | nil => exact extends_nil _
  | cons i incidents ih =>
    rw [raiseAmong]
    split
    · rename_i hbumps
      exact extends_cons (continues_bumped (Bool.and_eq_true_iff.1 hbumps).2 _) (.refl _)
    · exact extends_cons (.refl i) ih

theorem extends_resolveAmong (id : JobId) (now : Instant) (incidents : List Incident) :
    Extends incidents (resolveAmong id now incidents) := by
  intro place i hi
  refine ⟨_, by rw [resolveAmong, List.getElem?_map, hi, Option.map_some], ?_⟩
  split
  · rename_i hresolves
    exact continues_resolvedAt (Bool.and_eq_true_iff.1 hresolves).2 now
  · exact .refl i

theorem extends_writeAmong (incidents : List Incident) (w : Write) :
    Extends incidents (writeAmong incidents w) := by
  cases w with
  | raise incident => exact extends_raiseAmong incident incidents
  | resolve id now => exact extends_resolveAmong id now incidents
  | _ => exact .refl incidents

/-- Writes leave each incident at its place and change none that was resolved. -/
theorem extends_writesAmong (incidents : List Incident) (ws : List Write) :
    Extends incidents (ws.foldl writeAmong incidents) := by
  induction ws generalizing incidents with
  | nil => exact .refl incidents
  | cons w ws ih => exact (extends_writeAmong incidents w).trans (ih _)

/-! ## The incidents of a job -/

/-- The incidents of a job, in the order in which they were first raised. -/
def ofJob (id : JobId) (incidents : List Incident) : List Incident :=
  incidents.filter fun i => i.jobId == id

/-- How often a job was raised, as its incidents count it. -/
def occurrencesOf (id : JobId) (incidents : List Incident) : Nat :=
  ((ofJob id incidents).map occurrences).sum

theorem ofJob_cons (i : Incident) :
    ofJob id (i :: incidents) =
      if i.jobId = id then i :: ofJob id incidents else ofJob id incidents := by
  rw [ofJob, List.filter_cons]
  simp only [beq_iff_eq]
  rfl

theorem occurrencesOf_cons (i : Incident) :
    occurrencesOf id (i :: incidents) =
      (if i.jobId = id then i.occurrences else 0) + occurrencesOf id incidents := by
  rw [occurrencesOf, ofJob_cons]
  split
  · rfl
  · rw [Nat.zero_add]
    rfl

theorem count_openJobs (id : JobId) (incidents : List Incident) :
    (openJobs incidents).count id = (ofJob id incidents).countP isOpen := by
  rw [openJobs, List.count, List.countP_map, ofJob, List.countP_filter, List.countP_filter]
  refine List.countP_congr fun i _ => ?_
  simp [and_comm]

theorem count_jobIds (id : JobId) (incidents : List Incident) :
    (incidents.map jobId).count id = (ofJob id incidents).length := by
  rw [List.count, List.countP_map, List.countP_eq_length_filter]
  rfl

/-! ## What a raise counts -/

/-- A raise adds an incident unless its job has an open one. -/
theorem jobIds_raiseAmong (incident : Incident) (incidents : List Incident) :
    (incident.raiseAmong incidents).map jobId =
      if incident.jobId ∈ openJobs incidents then incidents.map jobId
      else incidents.map jobId ++ [incident.jobId] := by
  induction incidents with
  | nil => rfl
  | cons i incidents ih =>
    rw [raiseAmong, openJobs_cons]
    by_cases hbumps : i.jobId = incident.jobId ∧ i.isOpen = true
    · simp [hbumps.1, hbumps.2, bumped]
    · have hmem : incident.jobId ∈ (if i.isOpen then i.jobId :: openJobs incidents
          else openJobs incidents) ↔ incident.jobId ∈ openJobs incidents := by
        split
        · rename_i hopen
          have hne : incident.jobId ≠ i.jobId := fun h => hbumps ⟨h.symm, hopen⟩
          rw [List.mem_cons, or_iff_right hne]
        · exact Iff.rfl
      rw [if_neg (by simpa using hbumps), List.map_cons, ih]
      simp only [hmem]
      split <;> rfl

/-- A raise of a first incident is counted once, by an incident of its job. -/
theorem occurrencesOf_raiseAmong (hfirst : incident.occurrences = 1) (incidents : List Incident) :
    occurrencesOf id (incident.raiseAmong incidents) =
      occurrencesOf id incidents + if incident.jobId = id then 1 else 0 := by
  induction incidents with
  | nil => rw [raiseAmong, occurrencesOf_cons, hfirst, Nat.add_comm]
  | cons i incidents ih =>
    rw [raiseAmong]
    split
    · rename_i hbumps
      have hsame : i.jobId = incident.jobId := by simpa using (Bool.and_eq_true_iff.1 hbumps).1
      rw [occurrencesOf_cons, occurrencesOf_cons, ← hsame, bumped]
      by_cases hid : i.jobId = id
      · simp only [hid, if_true]
        omega
      · simp only [hid, if_false, Nat.add_zero]
    · rw [occurrencesOf_cons, occurrencesOf_cons, ih, Nat.add_assoc]

theorem jobIds_resolveAmong (id : JobId) (now : Instant) (incidents : List Incident) :
    (resolveAmong id now incidents).map jobId = incidents.map jobId := by
  rw [resolveAmong, List.map_map]
  refine List.map_congr_left fun i _ => ?_
  rw [Function.comp_apply]
  split <;> rfl

theorem occurrencesOf_resolveAmong (k : JobId) (now : Instant) (incidents : List Incident) :
    occurrencesOf id (resolveAmong k now incidents) = occurrencesOf id incidents := by
  induction incidents with
  | nil => rfl
  | cons i incidents ih =>
    rw [resolveAmong, List.map_cons, ← resolveAmong, occurrencesOf_cons, occurrencesOf_cons, ih]
    split <;> rfl

/-! ## What writes count -/

theorem length_ofJob_writeAmong (id : JobId) (incidents : List Incident) (w : Write) :
    (ofJob id (writeAmong incidents w)).length =
      (ofJob id incidents).length +
        if w.escalates id = true ∧ id ∉ openJobs incidents then 1 else 0 := by
  rw [← count_jobIds, ← count_jobIds]
  cases w with
  | raise incident =>
    simp only [writeAmong, jobIds_raiseAmong, Write.escalates, beq_iff_eq]
    split
    · rename_i hmem
      rw [if_neg (by rintro ⟨rfl, hnot⟩; exact hnot hmem), Nat.add_zero]
    · rename_i hnot
      rw [List.count_append, List.count_singleton]
      simp only [beq_iff_eq]
      congr 2
      exact propext ⟨fun h => ⟨h, h ▸ hnot⟩, And.left⟩
  | resolve k now => simp [writeAmong, jobIds_resolveAmong, Write.escalates]
  | _ => simp [writeAmong, Write.escalates]

theorem occurrencesOf_writeAmong (hfirst : w.RaisesFirst) (id : JobId)
    (incidents : List Incident) :
    occurrencesOf id (writeAmong incidents w) =
      occurrencesOf id incidents + if w.escalates id = true then 1 else 0 := by
  cases w with
  | raise incident =>
    obtain ⟨uuid, job, message, details, now, rfl⟩ := hfirst
    simp only [writeAmong, Write.escalates, beq_iff_eq]
    exact occurrencesOf_raiseAmong rfl incidents
  | resolve k now => exact occurrencesOf_resolveAmong k now incidents
  | _ => rfl

theorem nodup_openJobs_writeAmong (hfirst : w.RaisesFirst) (h : (openJobs incidents).Nodup) :
    (openJobs (writeAmong incidents w)).Nodup := by
  cases w with
  | raise incident =>
    obtain ⟨uuid, job, message, details, now, rfl⟩ := hfirst
    exact nodup_openJobs_raiseAmong rfl h
  | resolve k now =>
    rw [writeAmong, openJobs_resolveAmong]
    exact h.filter _
  | _ => exact h

theorem length_ofJob_writesAmong (id : JobId) (incidents : List Incident) (ws : List Write) :
    (ofJob id (ws.foldl writeAmong incidents)).length =
      (ofJob id incidents).length + openings id incidents ws := by
  induction ws generalizing incidents with
  | nil => rfl
  | cons w ws ih => rw [List.foldl_cons, ih, length_ofJob_writeAmong, openings, Nat.add_assoc]

theorem occurrencesOf_writesAmong {ws : List Write} (hfirst : ∀ w ∈ ws, w.RaisesFirst) (id : JobId)
    (incidents : List Incident) :
    occurrencesOf id (ws.foldl writeAmong incidents) =
      occurrencesOf id incidents + ws.countP (Write.escalates id) := by
  induction ws generalizing incidents with
  | nil => rfl
  | cons w ws ih =>
    obtain ⟨hw, hws⟩ := List.forall_mem_cons.1 hfirst
    rw [List.foldl_cons, ih hws, occurrencesOf_writeAmong hw, List.countP_cons]
    omega

theorem nodup_openJobs_writesAmong {ws : List Write} (hfirst : ∀ w ∈ ws, w.RaisesFirst)
    (h : (openJobs incidents).Nodup) : (openJobs (ws.foldl writeAmong incidents)).Nodup := by
  induction ws generalizing incidents with
  | nil => exact h
  | cons w ws ih =>
    obtain ⟨hw, hws⟩ := List.forall_mem_cons.1 hfirst
    exact ih hws (nodup_openJobs_writeAmong hw h)

end Incident

/-! ## Runs of accepted batches -/

namespace Store

theorem incidents_of_apply {s s' : Store} {ws : List Write} {rows : List Job}
    (h : s.apply ws = .ok (rows, s')) :
    s'.incidents = ws.foldl Incident.writeAmong s.incidents := by
  cases ws with
  | nil =>
    cases h
    rfl
  | cons w ws =>
    cases havailable : s.available with
    | false =>
      rw [apply, applyIn_of_not_available havailable] at h
      cases h
    | true =>
      rw [apply, applyIn_of_available havailable] at h
      split at h
      · cases h
      · cases h
        rfl

/-- Accepted batches make their writes among the incidents in order. -/
theorem Commits.incidents_eq {s s' : Store} {batches : List (List Write)}
    (h : s.Commits batches s') :
    s'.incidents = batches.flatten.foldl Incident.writeAmong s.incidents := by
  induction h with
  | none s => rfl
  | batch accepted rest ih =>
    rw [ih, List.flatten_cons, List.foldl_append, incidents_of_apply accepted]
  | reach value rest ih => exact ih

/-- After batches whose raised incidents are first ones, a job has at most one open incident, its
incidents count as many occurrences as it was raised, and there are as many as raises that found
none open.  Since any of the writes, in the last batch or in one before, and through all batches to
come, each incident stays at its place, and does not change once it is resolved. -/
theorem Commits.incident_history_exact {s : Store} {batches : List (List Write)}
    (h : empty.Commits batches s) (hfirst : ∀ w ∈ batches.flatten, w.RaisesFirst) (id : JobId) :
    (Incident.ofJob id s.incidents).countP Incident.isOpen ≤ 1 ∧
    Incident.occurrencesOf id s.incidents = batches.flatten.countP (Write.escalates id) ∧
    (Incident.ofJob id s.incidents).length = Incident.openings id [] batches.flatten ∧
    (∀ before after, batches.flatten = before ++ after →
      Incident.Extends (before.foldl Incident.writeAmong []) s.incidents) ∧
    ∀ more s', s.Commits more s' → Incident.Extends s.incidents s'.incidents := by
  have hincidents : s.incidents = batches.flatten.foldl Incident.writeAmong [] := h.incidents_eq
  refine ⟨?_, ?_, ?_, ?_, ?_⟩
  · have hnodup : (Incident.openJobs []).Nodup := List.nodup_nil
    rw [← Incident.count_openJobs, hincidents]
    exact List.nodup_iff_count_le_one.1 (Incident.nodup_openJobs_writesAmong hfirst hnodup) id
  · rw [hincidents, Incident.occurrencesOf_writesAmong hfirst]
    exact Nat.zero_add _
  · rw [hincidents, Incident.length_ofJob_writesAmong]
    exact Nat.zero_add _
  · intro before after hsplit
    rw [hincidents, hsplit, List.foldl_append]
    exact Incident.extends_writesAmong _ after
  · intro more s' hmore
    rw [hmore.incidents_eq]
    exact Incident.extends_writesAmong _ _

/-- A report is raised with its job's insertion and once more, its incident is resolved, and it is
raised again in the same batch. -/
def reportRaised : List (List Write) :=
  let incident : Incident := .forJob .nil (Job.report 0) "not sent" none .epoch
  [[.insert (Job.report 0), .raise incident], [.raise incident],
    [.resolve (Job.report 0).id .last, .raise incident]]

/-- Three raises of which two found no open incident are three occurrences in two incidents. -/
theorem three_raises_in_two_incidents :
    ∃ s, empty.Commits reportRaised s ∧ Incident.occurrencesOf (Job.report 0).id s.incidents = 3 ∧
      (Incident.ofJob (Job.report 0).id s.incidents).length = 2 ∧
      (Incident.ofJob (Job.report 0).id s.incidents).countP Incident.isOpen ≤ 1 := by
  obtain ⟨s, hcommits⟩ : ∃ s, empty.Commits reportRaised s :=
    ⟨_, .batch rfl (.batch rfl (.batch rfl (.none _)))⟩
  have hfirst : ∀ w ∈ reportRaised.flatten, w.RaisesFirst := by
    have hraised : ∃ uuid job message details now,
        Incident.forJob .nil (Job.report 0) "not sent" none .epoch =
          .forJob uuid job message details now := ⟨_, _, _, _, _, rfl⟩
    simpa [reportRaised, Write.RaisesFirst] using hraised
  obtain ⟨hopen, hoccurrences, hlength, -, -⟩ :=
    hcommits.incident_history_exact hfirst (Job.report 0).id
  exact ⟨s, hcommits, hoccurrences, hlength, hopen⟩

end Store

end DeferredWork

import Mathlib.Data.List.Nodup
import DeferredWork.Store.Query

set_option autoImplicit false

/-!
# Open incidents

The jobs whose incidents are open, each as often as it has open ones, are all that raising and
resolving incidents look at: to raise an incident adds its job unless the job is there already
(`Incident.openJobs_raiseAmong`), to resolve those of a job takes the job out
(`Incident.openJobs_resolveAmong`).
-/

namespace DeferredWork.Incident

/-- The jobs whose incidents are open, the oldest incident first. -/
def openJobs (incidents : List Incident) : List JobId :=
  (incidents.filter isOpen).map jobId

theorem mem_openJobs {incidents : List Incident} {id : JobId} :
    id ∈ openJobs incidents ↔ ∃ i ∈ incidents, i.isOpen = true ∧ i.jobId = id := by
  simp only [openJobs, List.mem_map, List.mem_filter, and_assoc]

theorem length_openJobs (incidents : List Incident) :
    (openJobs incidents).length = incidents.countP isOpen := by
  rw [openJobs, List.length_map, List.countP_eq_length_filter]

theorem openJobs_cons (i : Incident) (incidents : List Incident) :
    openJobs (i :: incidents) =
      if i.isOpen then i.jobId :: openJobs incidents else openJobs incidents := by
  rw [openJobs, List.filter_cons]
  split <;> rfl

theorem openJobs_raiseAmong {incident : Incident} (hopen : incident.isOpen = true)
    (incidents : List Incident) :
    openJobs (incident.raiseAmong incidents) =
      if incident.jobId ∈ openJobs incidents then openJobs incidents
      else openJobs incidents ++ [incident.jobId] := by
  induction incidents with
  | nil =>
    rw [raiseAmong, openJobs_cons, if_pos hopen]
    rfl
  | cons i incidents ih =>
    rw [raiseAmong]
    by_cases hi : i.isOpen = true
    · by_cases hsame : i.jobId = incident.jobId
      · -- The open incident of the job counts the new one.
        have hbumps : (i.jobId == incident.jobId && i.isOpen) = true := by simp [hsame, hi]
        have hbumped : (i.bumped incident).isOpen = true := hi
        rw [if_pos hbumps, openJobs_cons, openJobs_cons, if_pos hbumped, if_pos hi,
          if_pos (hsame ▸ List.mem_cons_self)]
        rfl
      · have hpasses : ¬ (i.jobId == incident.jobId && i.isOpen) = true := by simp [hsame]
        rw [if_neg hpasses, openJobs_cons, openJobs_cons, if_pos hi, if_pos hi, ih]
        simp only [List.mem_cons, Ne.symm hsame, false_or]
        split <;> rfl
    · have hpasses : ¬ (i.jobId == incident.jobId && i.isOpen) = true := by simp [hi]
      rw [if_neg hpasses, openJobs_cons, openJobs_cons, if_neg hi, if_neg hi, ih]

theorem mem_openJobs_raiseAmong {incident : Incident} (hopen : incident.isOpen = true)
    {incidents : List Incident} {id : JobId} :
    id ∈ openJobs (incident.raiseAmong incidents) ↔
      id ∈ openJobs incidents ∨ id = incident.jobId := by
  rw [openJobs_raiseAmong hopen]
  split
  · rename_i hmem
    exact ⟨.inl, fun h => h.elim (fun h => h) fun heq => heq ▸ hmem⟩
  · rw [List.mem_append, List.mem_singleton]

theorem nodup_openJobs_raiseAmong {incident : Incident} (hopen : incident.isOpen = true)
    {incidents : List Incident} (h : (openJobs incidents).Nodup) :
    (openJobs (incident.raiseAmong incidents)).Nodup := by
  rw [openJobs_raiseAmong hopen]
  split
  · exact h
  · rename_i hnew
    exact List.nodup_append.2 ⟨h, List.nodup_singleton _, fun a ha b hb =>
      List.mem_singleton.1 hb ▸ fun heq => hnew (heq ▸ ha)⟩

theorem openJobs_resolveAmong (id : JobId) (now : Instant) (incidents : List Incident) :
    openJobs (resolveAmong id now incidents) = (openJobs incidents).filter (· != id) := by
  induction incidents with
  | nil => rfl
  | cons i incidents ih =>
    rw [resolveAmong, List.map_cons, openJobs_cons, openJobs_cons, ← resolveAmong, ih]
    by_cases hi : i.isOpen = true
    · by_cases hsame : i.jobId = id
      · have hresolved : (i.resolvedAt now).isOpen = false := rfl
        simp [hi, hsame, hresolved]
      · simp [hi, hsame]
    · simp [hi]

end DeferredWork.Incident

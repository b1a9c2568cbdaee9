import DeferredWork.Proofs.Pool.Soundness
import Mathlib.Data.List.Basic

set_option autoImplicit false

/-!
# Workers at rest

Nothing in a pool moves for ever by itself: whatever is asked of it, the pool comes to rest
(`Workers.exists_settles`), and workers that receive no more leave once the jobs have ended
(`Workers.exists_drains`).  At rest the counters say how many jobs run and wait, and a job waits only
while all workers are busy (`Workers.Rests`).
-/

namespace DeferredWork

variable {α : Type}

namespace Workers

variable {m m₁ m' : Workers α} {parcel : Parcel α}

/-! ## Coming to rest -/

/-- How many steps a worker can take before it has to wait. -/
def effort : Worker α → Nat
  | .received _ => 6
  | .counted _ => 5
  | .running _ => 4
  | .ended => 3
  | .free => 2
  | .receiving => 1
  | .gone => 0

/-- How many steps all workers can take, each before it has to wait. -/
def workersEffort : List (Worker α) → Nat
  | [] => 0
  | w :: workers => effort w + workersEffort workers

/-- How many steps a submission can take, and what it can cause. -/
def submissionEffort : Submission α → Nat
  | .offered _ => 8
  | .refused _ => 1
  | _ => 0

/-- A bound for the steps that can be taken, and for the jobs that can end, before another call. -/
def totalEffort (m : Workers α) : Nat :=
  workersEffort m.workers + 6 * m.channel.length + submissionEffort m.submission

theorem workersEffort_move (front back : List (Worker α)) (w : Worker α) :
    workersEffort (front ++ w :: back) = workersEffort (front ++ back) + effort w := by
  induction front with
  | nil => exact Nat.add_comm _ _
  | cons v front ih =>
    rw [List.cons_append, List.cons_append, workersEffort, workersEffort, ih, Nat.add_assoc]

theorem Sends.totalEffort_lt (h : m.Sends m') : m'.totalEffort < m.totalEffort := by
  cases h with
  | send offered room =>
    simp only [totalEffort, offered, submissionEffort, List.length_append, List.length_singleton]
    omega
  | handOver offered rendezvous worker =>
    simp only [totalEffort, offered, worker, submissionEffort, workersEffort_move, effort]
    omega
  | refuse offered full unattended =>
    simp only [totalEffort, offered, submissionEffort]
    omega
  | handBack refused =>
    simp only [totalEffort, refused, submissionEffort]
    omega

theorem Works.totalEffort_lt (h : m.Works m') : m'.totalEffort < m.totalEffort := by
  cases h with
  | receive worker first =>
    simp only [totalEffort, worker, first, workersEffort_move, effort, List.length_cons]
    omega
  | turn worker | count worker | run worker | rest worker | leave worker =>
    simp only [totalEffort, worker, workersEffort_move, effort]
    omega

theorem Step.totalEffort_lt : m.Step m' → m'.totalEffort < m.totalEffort
  | .sends hsends => hsends.totalEffort_lt
  | .works hworks => hworks.totalEffort_lt

theorem Ends.totalEffort_lt (h : m.Ends parcel m') : m'.totalEffort < m.totalEffort := by
  cases h with
  | mk worker =>
    simp only [totalEffort, worker, workersEffort_move, effort]
    omega

/-- Everything comes to rest. -/
theorem exists_settles (m : Workers α) : ∃ m', m.Settles m' := by
  induction heffort : m.totalEffort using Nat.strongRecOn generalizing m with
  | ind n ih =>
    by_cases hsettled : m.IsSettled
    · exact ⟨m, .settled hsettled⟩
    · obtain ⟨m₁, hstep⟩ : ∃ m₁, m.Step m₁ := by
        simpa [IsSettled] using hsettled
      obtain ⟨m', hsettles⟩ := ih _ (heffort ▸ hstep.totalEffort_lt) m₁ rfl
      exact ⟨m', .step hstep hsettles⟩

theorem Settles.isSettled (h : m.Settles m') : m'.IsSettled := by
  induction h with
  | settled hsettled => exact hsettled
  | step _ _ ih => exact ih

theorem Settles.isSound (h : m.Settles m') (hsound : m.IsSound) : m'.IsSound := by
  induction h with
  | settled _ => exact hsound
  | step hstep _ ih => exact ih (hsound.step hstep)

theorem Drains.isSound (h : m.Drains m') (hsound : m.IsSound) : m'.IsSound := by
  induction h with
  | drained _ => exact hsound
  | step hstep _ ih => exact ih (hsound.step hstep)
  | ends hends _ ih => exact ih (hsound.ends hends)

/-! ## At rest -/

/-- What nothing moves looks like. -/
structure AtRest (m : Workers α) : Prop where
  submission : m.submission.parcel? = none
  /-- Each worker waits, runs a job or has left. -/
  worker : ∀ w ∈ m.workers, w = .free ∨ w = .receiving ∨ (∃ parcel, w = .running parcel) ∨ w = .gone
  /-- A worker waits for the receiver only if another one has it. -/
  free : Worker.free ∈ m.workers → Worker.receiving ∈ m.workers
  /-- A worker waits for a job only if there is none but there may be one. -/
  receiving : Worker.receiving ∈ m.workers → m.channel = [] ∧ m.isOpen = true

theorem IsSettled.atRest (h : m.IsSettled) : m.AtRest where
  submission := by
    cases hsub : m.submission with
    | offered parcel =>
      by_cases hroom : m.channel.length < m.capacity
      · exact absurd (.sends (.send hsub hroom)) (h _)
      · by_cases hattended : m.capacity = 0 ∧ Worker.receiving ∈ m.workers
        · obtain ⟨front, back, hworker⟩ := List.append_of_mem hattended.2
          exact absurd (.sends (.handOver hsub hattended.1 hworker)) (h _)
        · exact absurd (.sends (.refuse hsub hroom (not_and.1 hattended))) (h _)
    | refused parcel => exact absurd (.sends (.handBack hsub)) (h _)
    | _ => rfl
  worker w hw := by
    obtain ⟨front, back, hworker⟩ := List.append_of_mem hw
    cases w with
    | free => exact .inl rfl
    | receiving => exact .inr (.inl rfl)
    | received parcel => exact absurd (.works (.count hworker)) (h _)
    | counted parcel => exact absurd (.works (.run hworker)) (h _)
    | running parcel => exact .inr (.inr (.inl ⟨parcel, rfl⟩))
    | ended => exact absurd (.works (.rest hworker)) (h _)
    | gone => exact .inr (.inr (.inr rfl))
  free hfree := by
    obtain ⟨front, back, hworker⟩ := List.append_of_mem hfree
    exact Classical.byContradiction fun hnobody => h _ (.works (.turn hworker hnobody))
  receiving hreceiving := by
    obtain ⟨front, back, hworker⟩ := List.append_of_mem hreceiving
    cases hchannel : m.channel with
    | cons parcel rest => exact absurd (.works (.receive hworker hchannel)) (h _)
    | nil =>
      cases hopen : m.isOpen with
      | true => exact ⟨rfl, rfl⟩
      | false => exact absurd (.works (.leave hworker hchannel hopen)) (h _)

/-- What looks like this does not move. -/
theorem AtRest.isSettled (h : m.AtRest) : m.IsSettled := by
  intro m' hstep
  have hmem : ∀ {front back : List (Worker α)} {w : Worker α}, m.workers = front ++ w :: back →
      w ∈ m.workers := by
    intro front back w hworker
    rw [hworker]
    exact List.mem_append_right _ List.mem_cons_self
  cases hstep with
  | sends hsends =>
    have hsub := h.submission
    cases hsends with
    | send offered | handOver offered | refuse offered =>
      rw [offered] at hsub
      cases hsub
    | handBack refused =>
      rw [refused] at hsub
      cases hsub
  | works hworks =>
    cases hworks with
    | turn worker nobody => exact nobody (h.free (hmem worker))
    | receive worker first =>
      have hempty := (h.receiving (hmem worker)).1
      rw [first] at hempty
      cases hempty
    | count worker => simpa using h.worker _ (hmem worker)
    | run worker => simpa using h.worker _ (hmem worker)
    | rest worker => simpa using h.worker _ (hmem worker)
    | leave worker empty closed =>
      have hopen := (h.receiving (hmem worker)).2
      rw [closed] at hopen
      cases hopen

/-! ## What can be read off at rest -/

/-- A worker at rest that has a job runs it. -/
theorem AtRest.parcels_eq (h : m.AtRest) :
    m.workers.filterMap Worker.parcel? = m.running := by
  refine List.filterMap_congr fun w hw => ?_
  obtain rfl | rfl | ⟨parcel, rfl⟩ | rfl := h.worker w hw <;> rfl

/-- The number of running jobs, as a number of workers. -/
theorem length_running (m : Workers α) :
    m.running.length = m.workers.countP fun w => w.running?.isSome :=
  List.length_filterMap_eq_countP ..

theorem IsSound.running_le (h : m.IsSound) : m.running.length ≤ m.size := by
  rw [length_running, ← h.size_eq]
  exact List.countP_le_length

/-- Workers that neither wait nor have left are busy. -/
theorem AtRest.all_run (h : m.AtRest) (hsound : m.IsSound) (hreceiving : Worker.receiving ∉ m.workers)
    (hgone : Worker.gone ∉ m.workers) : m.running.length = m.size := by
  rw [length_running, ← hsound.size_eq, List.countP_eq_length]
  intro w hw
  obtain rfl | rfl | ⟨parcel, rfl⟩ | rfl := h.worker w hw
  · exact absurd (h.free hw) hreceiving
  · exact absurd hw hreceiving
  · rfl
  · exact absurd hw hgone

/-- A job waits only while all workers are busy. -/
theorem AtRest.busy (h : m.AtRest) (hsound : m.IsSound) (hwaits : m.channel ≠ []) :
    m.running.length = m.size :=
  h.all_run hsound (fun hreceiving => hwaits (h.receiving hreceiving).1)
    fun hgone => hwaits (hsound.gone_over hgone).2

/-- In an open pool a worker is idle exactly if one of them waits for a job. -/
theorem AtRest.idle_iff (h : m.AtRest) (hsound : m.IsSound) (hopen : m.isOpen = true) :
    m.running.length < m.size ↔ Worker.receiving ∈ m.workers := by
  constructor
  · intro hidle
    refine Classical.byContradiction fun hreceiving => Nat.ne_of_lt hidle ?_
    refine h.all_run hsound hreceiving fun hgone => ?_
    rw [(hsound.gone_over hgone).1] at hopen
    cases hopen
  · intro hreceiving
    refine Nat.lt_of_le_of_ne hsound.running_le fun hall => ?_
    rw [length_running, ← hsound.size_eq, List.countP_eq_length] at hall
    exact absurd (hall _ hreceiving) Bool.false_ne_true

/-- At rest the counters say how many jobs run and wait. -/
theorem AtRest.active_eq (h : m.AtRest) (hsound : m.IsSound) : m.active = m.running.length := by
  rw [hsound.active_eq, length_running]
  refine congrArg Nat.cast (List.countP_congr fun w hw => ?_)
  obtain rfl | rfl | ⟨parcel, rfl⟩ | rfl := h.worker w hw <;> rfl

theorem AtRest.queued_eq (h : m.AtRest) (hsound : m.IsSound) : m.queued = m.channel.length := by
  have hnone : m.workers.countP Worker.isQueued = 0 := by
    refine List.countP_eq_zero.2 fun w hw => ?_
    obtain rfl | rfl | ⟨parcel, rfl⟩ | rfl := h.worker w hw <;> exact Bool.false_ne_true
  rw [hsound.queued_of_none h.submission, hnone]
  exact Int.add_zero _

theorem AtRest.started_perm (h : m.AtRest) (hsound : m.IsSound) :
    m.started.Perm (m.finished ++ m.running) := by
  rw [← h.parcels_eq]
  exact hsound.started_perm

theorem AtRest.tokens_perm (h : m.AtRest) (hsound : m.IsSound) :
    m.tokens.held.Perm ((m.running ++ m.channel).filterMap Prod.snd) := by
  have htokens := hsound.tokens_perm
  rwa [parcels_of_none h.submission, h.parcels_eq] at htokens

/-! ## Leaving -/

theorem Step.isOpen_eq (h : m.Step m') : m'.isOpen = m.isOpen := by
  cases h with
  | sends hsends => cases hsends <;> rfl
  | works hworks => cases hworks <;> rfl

theorem Ends.isOpen_eq (h : m.Ends parcel m') : m'.isOpen = m.isOpen := by
  cases h
  rfl

/-- Workers that receive no more leave, once all their jobs have ended. -/
theorem exists_drains (hclosed : m.isOpen = false) : ∃ m', m.Drains m' := by
  induction heffort : m.totalEffort using Nat.strongRecOn generalizing m with
  | ind n ih =>
    by_cases hover : ∀ w ∈ m.workers, w = .gone
    · exact ⟨m, .drained hover⟩
    · by_cases hsettled : m.IsSettled
      · -- A worker that has not left and cannot move runs a job.
        have hrest := hsettled.atRest
        obtain ⟨w, hw, hleft⟩ : ∃ w ∈ m.workers, w ≠ .gone := by simpa using hover
        have hnobody : Worker.receiving ∉ m.workers := by
          intro hreceiving
          have hopen := (hrest.receiving hreceiving).2
          rw [hclosed] at hopen
          cases hopen
        obtain rfl | rfl | ⟨parcel, rfl⟩ | rfl := hrest.worker w hw
        · exact absurd (hrest.free hw) hnobody
        · exact absurd hw hnobody
        · obtain ⟨front, back, hworker⟩ := List.append_of_mem hw
          obtain ⟨m₁, hends⟩ : ∃ m₁, m.Ends parcel m₁ := ⟨_, .mk hworker⟩
          obtain ⟨m', hdrains⟩ :=
            ih _ (heffort ▸ hends.totalEffort_lt) (hends.isOpen_eq.trans hclosed) rfl
          exact ⟨m', .ends hends hdrains⟩
        · exact absurd rfl hleft
      · obtain ⟨m₁, hstep⟩ : ∃ m₁, m.Step m₁ := by
          simpa [IsSettled] using hsettled
        obtain ⟨m', hdrains⟩ :=
          ih _ (heffort ▸ hstep.totalEffort_lt) (hstep.isOpen_eq.trans hclosed) rfl
        exact ⟨m', .step hstep hdrains⟩

end Workers

end DeferredWork

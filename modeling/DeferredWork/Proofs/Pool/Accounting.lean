import DeferredWork.Proofs.Pool.Rest
import Mathlib.Data.List.Perm.Basic

set_option autoImplicit false

/-!
# The account of a pool

`Pool` and `GuardedPool` say what a pool at rest does, without its workers.  Here the workers
themselves go from rest to rest, on any sequence of submissions, ends of jobs and shutdowns and in any
order of their steps (`Workers.Runs`).  No job is lost, run twice or overtaken by another one, the
counters are right whenever they are at rest, and what they show is what the pool says that it does
(`Workers.pool_accounts_for_its_jobs`).
-/

namespace DeferredWork

variable {α : Type}

namespace Workers

variable {m m₁ m' : Workers α} {parcel : Parcel α} {job : α} {scope : Option ScopeId}

/-! ## What the workers leave as it is -/

/-- No job was taken, handed back or ended, and the pool is as open as before. -/
structure Stays (m m' : Workers α) : Prop where
  size : m'.size = m.size
  capacity : m'.capacity = m.capacity
  isOpen : m'.isOpen = m.isOpen
  submission : m'.submission = m.submission
  accepted : m'.accepted = m.accepted
  rejected : m'.rejected = m.rejected

/-- No job has ended either. -/
structure Stands (m m' : Workers α) : Prop extends m.Stays m' where
  finished : m'.finished = m.finished
  tokens : m'.tokens = m.tokens

theorem Stays.trans (h : m.Stays m₁) (h' : m₁.Stays m') : m.Stays m' where
  size := h'.size.trans h.size
  capacity := h'.capacity.trans h.capacity
  isOpen := h'.isOpen.trans h.isOpen
  submission := h'.submission.trans h.submission
  accepted := h'.accepted.trans h.accepted
  rejected := h'.rejected.trans h.rejected

theorem Stands.trans (h : m.Stands m₁) (h' : m₁.Stands m') : m.Stands m' where
  toStays := h.toStays.trans h'.toStays
  finished := h'.finished.trans h.finished
  tokens := h'.tokens.trans h.tokens

theorem Works.stands (h : m.Works m') : m.Stands m' := by
  cases h <;> exact ⟨⟨rfl, rfl, rfl, rfl, rfl, rfl⟩, rfl, rfl⟩

theorem Ends.stays (h : m.Ends parcel m') : m.Stays m' := by
  cases h
  exact ⟨rfl, rfl, rfl, rfl, rfl, rfl⟩

/-- Unless a job is being submitted, only workers move. -/
theorem Step.works_at_rest (h : m.Step m') (hrest : m.submission.parcel? = none) : m.Works m' := by
  cases h with
  | works hworks => exact hworks
  | sends hsends =>
    cases hsends with
    | send offered | handOver offered | refuse offered =>
      rw [offered] at hrest
      cases hrest
    | handBack refused =>
      rw [refused] at hrest
      cases hrest

theorem Settles.stands (h : m.Settles m') (hrest : m.submission.parcel? = none) : m.Stands m' := by
  induction h with
  | settled _ => exact ⟨⟨rfl, rfl, rfl, rfl, rfl, rfl⟩, rfl, rfl⟩
  | step hstep _ ih =>
    have hstands := (hstep.works_at_rest hrest).stands
    exact hstands.trans (ih (by rwa [hstands.submission]))

theorem Drains.stays (h : m.Drains m') (hrest : m.submission.parcel? = none) : m.Stays m' := by
  induction h with
  | drained _ => exact ⟨rfl, rfl, rfl, rfl, rfl, rfl⟩
  | step hstep _ ih =>
    have hstays := (hstep.works_at_rest hrest).stands.toStays
    exact hstays.trans (ih (by rwa [hstays.submission]))
  | ends hends _ ih =>
    have hstays := hends.stays
    exact hstays.trans (ih (by rwa [hstays.submission]))

theorem Drains.all_gone (h : m.Drains m') : ∀ w ∈ m'.workers, w = .gone := by
  induction h with
  | drained hgone => exact hgone
  | step _ _ ih => exact ih
  | ends _ _ ih => exact ih

/-! ## Submissions -/

/-- A worker is idle, or the channel has room. -/
def HasRoom (m : Workers α) : Prop :=
  m.isOpen = true ∧ (m.running.length < m.size ∨ m.channel.length < m.capacity)

/-- The job with the token that it gets on its way to the pool. -/
def parcelOf (m : Workers α) (job : α) (scope : Option ScopeId) : Parcel α :=
  (job, (GuardedPool.takeToken m.tokens scope).1)

/-- The pool has taken a job. -/
structure Takes (m : Workers α) (job : α) (scope : Option ScopeId) (m' : Workers α) : Prop where
  size : m'.size = m.size
  capacity : m'.capacity = m.capacity
  isOpen : m'.isOpen = m.isOpen
  submission : m'.submission = .taken
  accepted : m'.accepted = m.accepted ++ [m.parcelOf job scope]
  rejected : m'.rejected = m.rejected
  finished : m'.finished = m.finished
  tokens : m'.tokens = (GuardedPool.takeToken m.tokens scope).2

/-- The pool after it has handed a job back: its workers have not moved. -/
def handBack (m : Workers α) (job : α) (scope : Option ScopeId) : Workers α :=
  { m with
    tokens := GuardedPool.release (GuardedPool.takeToken m.tokens scope).2 (m.parcelOf job scope)
    submission := .handedBack (m.parcelOf job scope)
    rejected := m.rejected ++ [m.parcelOf job scope] }

/-- While nothing else moves, workers that are at rest stay at rest. -/
theorem AtRest.of_same (h : m.AtRest) (m₁ : Workers α) (hworkers : m₁.workers = m.workers)
    (hchannel : m₁.channel = m.channel) (hopen : m₁.isOpen = m.isOpen)
    (hrest : m₁.submission.parcel? = none) : m₁.AtRest where
  submission := hrest
  worker := by
    rw [hworkers]
    exact h.worker
  free := by
    rw [hworkers]
    exact h.free
  receiving := by
    rw [hworkers, hchannel, hopen]
    exact h.receiving

/-- Workers at rest do not move because something is offered to them or taken back. -/
theorem AtRest.not_works (h : m.AtRest) {queued : Int} {submission : Submission α}
    {tokens : ScopeTokens} :
    ¬ { m with queued := queued, submission := submission, tokens := tokens }.Works m₁ := by
  intro hworks
  have hstill : { m with queued := queued, submission := .none, tokens := tokens }.AtRest :=
    h.of_same _ rfl rfl rfl rfl
  cases hworks with
  | turn worker nobody => exact hstill.isSettled _ (.works (.turn worker nobody))
  | receive worker first => exact hstill.isSettled _ (.works (.receive worker first))
  | count worker => exact hstill.isSettled _ (.works (.count worker))
  | run worker => exact hstill.isSettled _ (.works (.run worker))
  | rest worker => exact hstill.isSettled _ (.works (.rest worker))
  | leave worker empty closed => exact hstill.isSettled _ (.works (.leave worker empty closed))

/-- A refused job is handed back, and the pool is at rest again. -/
theorem AtRest.settles_of_refused (h : m.AtRest) {tokens : ScopeTokens}
    (hsettles : { m with
      queued := m.queued + 1, submission := .refused parcel, tokens := tokens }.Settles m') :
    m' = { m with
      tokens := GuardedPool.release tokens parcel
      submission := .handedBack parcel
      rejected := m.rejected ++ [parcel] } := by
  cases hsettles with
  | settled hsettled => exact absurd (.sends (.handBack rfl)) (hsettled _)
  | step hstep hrest =>
    cases hstep with
    | works hworks => exact absurd hworks h.not_works
    | sends hsends =>
      cases hsends with
      | send offered | handOver offered | refuse offered => cases offered
      | handBack refused =>
        cases refused
        have hstill := (h.of_same
          { m with
            queued := m.queued + 1 - 1
            submission := .handedBack parcel
            tokens := GuardedPool.release tokens parcel
            rejected := m.rejected ++ [parcel] } rfl rfl rfl rfl).isSettled
        cases hrest with
        | step hstep _ => exact absurd hstep (hstill _)
        | settled _ => rw [Int.add_sub_cancel]

/-- A job that is submitted to workers at rest is taken if there is room for it, and handed back
otherwise. -/
theorem AtRest.settles_submit (h : m.AtRest) (hsound : m.IsSound)
    (hsettles : (m.submit job scope).Settles m') :
    m.HasRoom ∧ m.Takes job scope m' ∨ ¬ m.HasRoom ∧ m' = m.handBack job scope := by
  cases hopen : m.isOpen with
  | false =>
    refine .inr ⟨fun hroom => ?_, ?_⟩
    · rw [HasRoom, hopen] at hroom
      exact absurd hroom.1 Bool.false_ne_true
    · rw [submit_of_closed hopen] at hsettles
      have hstill := (h.of_same (m.handBack job scope) rfl rfl rfl rfl).isSettled
      cases hsettles with
      | step hstep _ => exact absurd hstep (hstill _)
      | settled _ => rfl
  | true =>
    rw [submit_of_open hopen] at hsettles
    have hidle := h.idle_iff hsound hopen
    -- The first step is one of the submission.
    cases hsettles with
    | settled hsettled =>
      cases hsettled.atRest.submission
    | step hstep hrest =>
      cases hstep with
      | works hworks => exact absurd hworks h.not_works
      | sends hsends =>
        cases hsends with
        | send offered room =>
          cases offered
          have hstands := hrest.stands rfl
          exact .inl ⟨⟨hopen, .inr room⟩, hstands.size, hstands.capacity, hstands.isOpen,
            hstands.submission, hstands.accepted, hstands.rejected, hstands.finished,
            hstands.tokens⟩
        | @handOver _ front back offered rendezvous worker =>
          cases offered
          have hstands := hrest.stands rfl
          have hreceiving : Worker.receiving ∈ m.workers := by
            have hworkers : m.workers = front ++ .receiving :: back := worker
            rw [hworkers]
            exact List.mem_append_right _ List.mem_cons_self
          exact .inl ⟨⟨hopen, .inl (hidle.2 hreceiving)⟩, hstands.size, hstands.capacity,
            hstands.isOpen, hstands.submission, hstands.accepted, hstands.rejected,
            hstands.finished, hstands.tokens⟩
        | refuse offered full unattended =>
          cases offered
          refine .inr ⟨?_, h.settles_of_refused hrest⟩
          rintro ⟨-, hbusy | hroom⟩
          · -- An idle worker waits at an empty channel.
            have hreceiving := hidle.1 hbusy
            refine full ?_
            have hempty : m.channel.length = 0 := by rw [(h.receiving hreceiving).1]; rfl
            have hcapacity : m.capacity ≠ 0 := fun hzero => unattended hzero hreceiving
            show m.channel.length < m.capacity
            omega
          · exact full hroom
        | handBack refused => cases refused

theorem Takes.isTaken (h : m.Takes job scope m') : m'.submission.isTaken = true := by
  rw [h.submission]
  rfl

/-! ## Order -/

/-- At rest it is determined by the jobs that were taken and by the number of those that have ended
which jobs have started: the first ones, as many as there can be. -/
theorem AtRest.started_eq (h : m.AtRest) (hsound : m.IsSound) :
    m.started = m.accepted.take (m.finished.length + m.size) := by
  have hlength := (h.started_perm hsound).length_eq
  have hle := hsound.running_le
  rw [List.length_append] at hlength
  rw [hsound.in_order]
  by_cases hwaits : m.channel = []
  · rw [hwaits, List.append_nil, List.take_of_length_le (by omega)]
  · have hbusy := h.busy hsound hwaits
    rw [List.take_left' (by omega)]

theorem AtRest.channel_eq (h : m.AtRest) (hsound : m.IsSound) :
    m.channel = m.accepted.drop (m.finished.length + m.size) := by
  have hsplit := hsound.in_order
  rw [h.started_eq hsound] at hsplit
  conv at hsplit => lhs; rw [← List.take_append_drop (m.finished.length + m.size) m.accepted]
  exact (List.append_cancel_left hsplit).symm

/-- A job that was taken has started if a worker was idle, and waits otherwise. -/
theorem Takes.effect (h : m.Takes job scope m') (hrest : m.AtRest) (hsound : m.IsSound)
    (hrest' : m'.AtRest) (hsound' : m'.IsSound) :
    if m.running.length < m.size then
      m'.running.Perm (m.running ++ [m.parcelOf job scope]) ∧ m'.channel = m.channel
    else m'.running.Perm m.running ∧ m'.channel = m.channel ++ [m.parcelOf job scope] := by
  have hstarted := hrest.started_perm hsound
  have hlength := hstarted.length_eq
  have hle := hsound.running_le
  have hstarted' := hrest'.started_perm hsound'
  have hfirst := hrest'.started_eq hsound'
  have hothers := hrest'.channel_eq hsound'
  rw [List.length_append] at hlength
  rw [h.finished] at hstarted'
  rw [h.finished, h.size, h.accepted, hsound.in_order] at hfirst hothers
  split
  · rename_i hidle
    have hnone : m.channel = [] := Classical.byContradiction fun hwaits =>
      Nat.ne_of_lt hidle (hrest.busy hsound hwaits)
    have hall : (m.started ++ [m.parcelOf job scope]).length ≤ m.finished.length + m.size := by
      rw [List.length_append, List.length_singleton]
      omega
    rw [hnone, List.append_nil] at hfirst hothers
    rw [List.take_of_length_le hall] at hfirst
    rw [List.drop_of_length_le hall] at hothers
    refine ⟨?_, hothers.trans hnone.symm⟩
    rw [← List.perm_append_left_iff m.finished, ← List.append_assoc]
    rw [hfirst] at hstarted'
    exact hstarted'.symm.trans (hstarted.append_right _)
  · have hall : m.started.length = m.finished.length + m.size := by omega
    rw [List.append_assoc] at hfirst hothers
    rw [List.take_left' hall] at hfirst
    rw [List.drop_left' hall] at hothers
    refine ⟨?_, hothers⟩
    rw [← List.perm_append_left_iff m.finished]
    rw [hfirst] at hstarted'
    exact hstarted'.symm.trans hstarted

/-- The end of a job lets the first job start that waits. -/
theorem Ends.effect (h : m.Ends parcel m₁) (hrest : m.AtRest) (hsound : m.IsSound)
    (hsettles : m₁.Settles m') :
    m'.finished = m.finished ++ [parcel] ∧ m'.channel = m.channel.tail ∧
      (parcel :: m'.running).Perm (m.running ++ m.channel.head?.toList) ∧
      m'.tokens = GuardedPool.release m.tokens parcel ∧ m.Stays m' := by
  have hstays := h.stays
  have hstands := hsettles.stands (hstays.submission ▸ hrest.submission)
  have hall := hstays.trans hstands.toStays
  have hrest' := hsettles.isSettled.atRest
  have hsound' := hsettles.isSound (hsound.ends h)
  have hfinished : m'.finished = m.finished ++ [parcel] := by
    rw [hstands.finished]
    cases h
    rfl
  have htokens : m'.tokens = GuardedPool.release m.tokens parcel := by
    rw [hstands.tokens]
    cases h
    rfl
  have hstarted := hrest.started_perm hsound
  have hlength := hstarted.length_eq
  have hle := hsound.running_le
  have hstarted' := hrest'.started_perm hsound'
  have hfirst := hrest'.started_eq hsound'
  have hothers := hrest'.channel_eq hsound'
  rw [List.length_append] at hlength
  rw [hfinished] at hstarted'
  rw [hfinished, hall.size, hall.accepted, hsound.in_order, List.length_append,
    List.length_singleton] at hfirst hothers
  rw [List.append_assoc, List.singleton_append] at hstarted'
  -- The jobs that have started make up the same list as before, with one job more if one waited.
  cases hwaits : m.channel with
  | nil =>
    rw [hwaits, List.append_nil] at hfirst hothers
    rw [List.take_of_length_le (by omega)] at hfirst
    rw [List.drop_of_length_le (by omega)] at hothers
    refine ⟨hfinished, hothers, ?_, htokens, hall⟩
    rw [hfirst] at hstarted'
    rw [List.head?_nil, Option.toList_none, List.append_nil,
      ← List.perm_append_left_iff m.finished]
    exact hstarted'.symm.trans hstarted
  | cons first rest =>
    have hbusy := hrest.busy hsound (by rw [hwaits]; exact List.cons_ne_nil _ _)
    have hall' : (m.started ++ [first]).length = m.finished.length + 1 + m.size := by
      rw [List.length_append, List.length_singleton]
      omega
    rw [hwaits, List.append_cons] at hfirst hothers
    rw [List.take_left' hall'] at hfirst
    rw [List.drop_left' hall'] at hothers
    refine ⟨hfinished, hothers, ?_, htokens, hall⟩
    rw [hfirst] at hstarted'
    rw [List.head?_cons, Option.toList_some, ← List.perm_append_left_iff m.finished,
      ← List.append_assoc]
    exact hstarted'.symm.trans (hstarted.append_right _)

/-! ## From rest to rest -/

/-- A pool with so many workers and so much room has come to rest after these events. -/
structure HasCome (workers capacity : Nat) (events : List (PoolEvent α)) (m : Workers α) :
    Prop where
  atRest : m.AtRest
  isSound : m.IsSound
  size_eq : m.size = max workers 1
  capacity_eq : m.capacity = capacity
  accepted_eq : m.accepted.map Prod.fst = events.filterMap PoolEvent.accepted?
  rejected_eq : m.rejected.map Prod.fst = events.filterMap PoolEvent.rejected?
  finished_eq : m.isOpen = true → m.finished = events.filterMap PoolEvent.finished?
  isOpen_iff : m.isOpen = true ↔ .shutDown ∉ events
  all_gone : m.isOpen = false → ∀ w ∈ m.workers, w = .gone

/-- Workers that have left are at rest. -/
theorem atRest_of_all_gone (hrest : m.submission.parcel? = none)
    (hgone : ∀ w ∈ m.workers, w = .gone) : m.AtRest where
  submission := hrest
  worker w hw := .inr (.inr (.inr (hgone w hw)))
  free hfree := nomatch hgone _ hfree
  receiving hreceiving := nomatch hgone _ hreceiving

theorem running_of_all_gone (hgone : ∀ w ∈ m.workers, w = .gone) : m.running = [] := by
  refine List.filterMap_eq_nil_iff.2 fun w hw => ?_
  rw [hgone w hw]
  rfl

theorem hasCome_start {workers capacity : Nat}
    (hsettles : (start workers capacity : Workers α).Settles m) :
    HasCome workers capacity [] m := by
  have hstands := hsettles.stands rfl
  refine ⟨hsettles.isSettled.atRest, hsettles.isSound (isSound_start workers capacity),
    hstands.size, hstands.capacity, ?_, ?_, fun _ => ?_, ?_, ?_⟩
  · rw [hstands.accepted]
    rfl
  · rw [hstands.rejected]
    rfl
  · rw [hstands.finished]
    rfl
  · rw [hstands.isOpen]
    exact iff_of_true rfl (List.not_mem_nil)
  · intro hclosed
    rw [hstands.isOpen] at hclosed
    cases hclosed

variable {workers capacity : Nat} {events : List (PoolEvent α)} {event : PoolEvent α}

theorem shutDown_notMem_append (event : PoolEvent α) (hother : event ≠ .shutDown) :
    .shutDown ∉ events ++ [event] ↔ .shutDown ∉ events := by
  simp [hother.symm]

/-- A job is submitted to a pool at rest, which takes it or hands it back. -/
theorem HasCome.submit (h : HasCome workers capacity events m) {job : α} {scope : Option ScopeId}
    (hsettles : (m.submit job scope).Settles m') :
    HasCome workers capacity (events ++ [.submitted job scope m'.submission.isTaken]) m' := by
  have hrest' := hsettles.isSettled.atRest
  have hsound' := hsettles.isSound (h.isSound.submit h.atRest.submission job scope)
  obtain ⟨hroom, htakes⟩ | ⟨hfull, rfl⟩ := h.atRest.settles_submit h.isSound hsettles
  · rw [htakes.isTaken]
    refine ⟨hrest', hsound', htakes.size.trans h.size_eq,
      htakes.capacity.trans h.capacity_eq, ?_, ?_, fun hopen => ?_, ?_, ?_⟩
    · rw [htakes.accepted, List.map_append, h.accepted_eq, List.filterMap_append]
      rfl
    · rw [htakes.rejected, h.rejected_eq, List.filterMap_append]
      exact (List.append_nil _).symm
    · rw [htakes.finished, h.finished_eq (htakes.isOpen ▸ hopen), List.filterMap_append]
      exact (List.append_nil _).symm
    · rw [htakes.isOpen, h.isOpen_iff, shutDown_notMem_append (.submitted job scope true) nofun]
    · intro hclosed
      rw [htakes.isOpen, hroom.1] at hclosed
      cases hclosed
  · refine ⟨hrest', hsound', h.size_eq, h.capacity_eq, ?_, ?_, fun hopen => ?_, ?_, h.all_gone⟩
    · rw [List.filterMap_append, ← h.accepted_eq]
      exact (List.append_nil _).symm
    · rw [List.filterMap_append, ← h.rejected_eq]
      exact List.map_append
    · rw [List.filterMap_append, ← h.finished_eq hopen]
      exact (List.append_nil _).symm
    · exact h.isOpen_iff.trans (shutDown_notMem_append (.submitted job scope false) nofun).symm

/-- A job that runs in a pool at rest ends. -/
theorem HasCome.finish (h : HasCome workers capacity events m) (hends : m.Ends parcel m₁)
    (hsettles : m₁.Settles m') : HasCome workers capacity (events ++ [.finished parcel]) m' := by
  have hstays := hends.stays
  have hrest := hstays.submission ▸ h.atRest.submission
  have hall := hstays.trans (hsettles.stands hrest).toStays
  refine ⟨hsettles.isSettled.atRest, hsettles.isSound (h.isSound.ends hends),
    hall.size.trans h.size_eq, hall.capacity.trans h.capacity_eq, ?_, ?_, fun hopen => ?_, ?_, ?_⟩
  · rw [hall.accepted, h.accepted_eq, List.filterMap_append]
    exact (List.append_nil _).symm
  · rw [hall.rejected, h.rejected_eq, List.filterMap_append]
    exact (List.append_nil _).symm
  · rw [(hends.effect h.atRest h.isSound hsettles).1, h.finished_eq (hall.isOpen ▸ hopen),
      List.filterMap_append]
    rfl
  · rw [hall.isOpen, h.isOpen_iff, shutDown_notMem_append (.finished parcel) nofun]
  · intro hclosed
    -- In a pool that was shut down no job runs.
    have hgone := h.all_gone (hall.isOpen.symm.trans hclosed)
    cases hends with
    | @mk front back worker =>
      have hin : Worker.running parcel ∈ m.workers := by
        rw [worker]
        exact List.mem_append_right _ List.mem_cons_self
      cases hgone _ hin

/-- A pool at rest is shut down, and does what it still has to do. -/
theorem HasCome.shutDown (h : HasCome workers capacity events m) (hdrains : m.close.Drains m') :
    HasCome workers capacity (events ++ [.shutDown]) m' := by
  have hrest : m.close.submission.parcel? = none := h.atRest.submission
  have hstays := hdrains.stays hrest
  refine ⟨atRest_of_all_gone (hstays.submission ▸ hrest) hdrains.all_gone,
    hdrains.isSound (h.isSound.close hrest), hstays.size.trans h.size_eq,
    hstays.capacity.trans h.capacity_eq, ?_, ?_, fun hopen => ?_, ?_, fun _ => hdrains.all_gone⟩
  · rw [hstays.accepted, List.filterMap_append, ← h.accepted_eq]
    exact (List.append_nil _).symm
  · rw [hstays.rejected, List.filterMap_append, ← h.rejected_eq]
    exact (List.append_nil _).symm
  · rw [hstays.isOpen] at hopen
    cases hopen
  · rw [hstays.isOpen]
    exact iff_of_false Bool.false_ne_true (by simp)

theorem HasCome.does (h : HasCome workers capacity events m) (hdoes : m.Does event m') :
    HasCome workers capacity (events ++ [event]) m' := by
  cases hdoes with
  | submit job scope hsettles => exact h.submit hsettles
  | finish hends hsettles => exact h.finish hends hsettles
  | shutdown hdrains => exact h.shutDown hdrains

theorem Runs.hasCome (h : Runs workers capacity events m) : HasCome workers capacity events m := by
  induction h with
  | start hsettles => exact hasCome_start hsettles
  | event _ hdoes ih => exact ih.does hdoes

/-! ## The pool without its workers -/

variable {g g' : GuardedPool α}

/-- A pool at rest says the same of the jobs, the tokens and the room as the workers. -/
structure Agrees (m : Workers α) (g : GuardedPool α) : Prop where
  size : g.pool.size = m.size
  capacity : g.pool.capacity = m.capacity
  isOpen : g.pool.isOpen = m.isOpen
  running : m.running.Perm g.pool.running
  waiting : g.pool.waiting = m.channel
  finished : m.finished.Perm g.pool.finished
  tokens : m.tokens.held.Perm g.tokens.held

/-- A token is free or not, in whatever order the others were given out. -/
theorem takeToken_of_perm {tokens tokens' : ScopeTokens} (h : tokens.held.Perm tokens'.held)
    (scope : Option ScopeId) :
    (GuardedPool.takeToken tokens' scope).1 = (GuardedPool.takeToken tokens scope).1 ∧
      (GuardedPool.takeToken tokens scope).2.held.Perm
        (GuardedPool.takeToken tokens' scope).2.held := by
  cases scope with
  | none => exact ⟨rfl, h⟩
  | some scope =>
    by_cases hheld : scope ∈ tokens.held
    · have hheld' : scope ∈ tokens'.held := h.mem_iff.1 hheld
      simp only [GuardedPool.takeToken, ScopeTokens.take?, hheld, hheld', dif_pos]
      exact ⟨trivial, h⟩
    · have hheld' : scope ∉ tokens'.held := fun hin => hheld (h.mem_iff.2 hin)
      simp only [GuardedPool.takeToken, ScopeTokens.take?, hheld, hheld', dif_neg,
        not_false_eq_true]
      exact ⟨trivial, h.cons scope⟩

theorem release_of_perm {tokens tokens' : ScopeTokens} (h : tokens.held.Perm tokens'.held)
    (parcel : Parcel α) :
    (GuardedPool.release tokens parcel).held.Perm (GuardedPool.release tokens' parcel).held := by
  obtain ⟨job, token⟩ := parcel
  cases token with
  | none => exact h
  | some scope => exact h.erase scope

theorem Agrees.hasRoom_iff (h : m.Agrees g) : g.pool.hasRoom = true ↔ m.HasRoom := by
  simp only [Pool.hasRoom, HasRoom, Bool.and_eq_true, Bool.or_eq_true, decide_eq_true_eq, h.isOpen,
    h.size, h.capacity, h.waiting, h.running.length_eq]

/-- The pool takes a job as the workers do. -/
theorem Agrees.takes (h : m.Agrees g) (hrest : m.AtRest) (hsound : m.IsSound) (hrest' : m'.AtRest)
    (hsound' : m'.IsSound) (hroom : m.HasRoom) (htakes : m.Takes job scope m') :
    (g.submit job scope).1 = true ∧ m'.Agrees (g.submit job scope).2 := by
  obtain ⟨htoken, htokens⟩ := takeToken_of_perm h.tokens scope
  have heffect := htakes.effect hrest hsound hrest' hsound'
  unfold GuardedPool.submit
  dsimp only
  rw [Pool.submit?, if_pos (h.hasRoom_iff.2 hroom)]
  rw [← htakes.tokens] at htokens
  have hlength := h.running.length_eq
  by_cases hidle : m.running.length < m.size
  · rw [if_pos hidle] at heffect
    rw [dif_pos (by rw [h.size, ← hlength]; exact hidle)]
    refine ⟨rfl, h.size.trans htakes.size.symm, h.capacity.trans htakes.capacity.symm,
      h.isOpen.trans htakes.isOpen.symm, ?_, h.waiting.trans heffect.2.symm, ?_, htokens⟩
    · dsimp only
      rw [htoken]
      exact heffect.1.trans (h.running.append_right _)
    · rw [htakes.finished]
      exact h.finished
  · rw [if_neg hidle] at heffect
    rw [dif_neg (by rw [h.size, ← hlength]; exact hidle)]
    refine ⟨rfl, h.size.trans htakes.size.symm, h.capacity.trans htakes.capacity.symm,
      h.isOpen.trans htakes.isOpen.symm, heffect.1.trans h.running, ?_, ?_, htokens⟩
    · dsimp only
      rw [htoken, h.waiting]
      exact heffect.2.symm
    · rw [htakes.finished]
      exact h.finished

/-- The pool hands a job back as the workers do. -/
theorem Agrees.handsBack (h : m.Agrees g) (hfull : ¬ m.HasRoom) (job : α)
    (scope : Option ScopeId) :
    (g.submit job scope).1 = false ∧ (m.handBack job scope).Agrees (g.submit job scope).2 := by
  obtain ⟨htoken, htokens⟩ := takeToken_of_perm h.tokens scope
  unfold GuardedPool.submit
  dsimp only
  rw [Pool.submit?, if_neg (mt h.hasRoom_iff.1 hfull), htoken]
  exact ⟨rfl, h.size, h.capacity, h.isOpen, h.running, h.waiting, h.finished,
    release_of_perm htokens _⟩

end Workers

/-! ## The end of a job in a pool at rest -/

namespace Pool

variable {β : Type} (p : Pool β) (i : Fin p.running.length)

theorem running_finish :
    (p.finish i).running = p.running.eraseIdx i ++ p.waiting.head?.toList := by
  unfold finish
  split
  · rename_i hnone
    rw [hnone]
    exact (List.append_nil _).symm
  · rename_i first rest hsome
    dsimp only
    rw [hsome]
    rfl

theorem waiting_finish : (p.finish i).waiting = p.waiting.tail := by
  unfold finish
  split
  · rename_i hnone
    rw [hnone]
    rfl
  · rename_i first rest hsome
    dsimp only
    rw [hsome]
    rfl

theorem finished_finish : (p.finish i).finished = p.finished ++ [p.running.get i] := by
  unfold finish
  split <;> rfl

theorem size_finish : (p.finish i).size = p.size := by
  unfold finish
  split <;> rfl

theorem capacity_finish : (p.finish i).capacity = p.capacity := by
  unfold finish
  split <;> rfl

theorem isOpen_finish : (p.finish i).isOpen = p.isOpen := by
  unfold finish
  split <;> rfl

end Pool

namespace Workers

variable {m m₁ m' : Workers α} {parcel : Parcel α} {g : GuardedPool α}

/-- The pool ends a job as the workers do. -/
theorem Agrees.finishes (h : m.Agrees g) (hrest : m.AtRest) (hsound : m.IsSound)
    (hends : m.Ends parcel m₁) (hsettles : m₁.Settles m') :
    ∃ i : Fin g.pool.running.length, g.pool.running.get i = parcel ∧ m'.Agrees (g.finish i) := by
  obtain ⟨hfinished, hchannel, hrunning, htokens, hstays⟩ := hends.effect hrest hsound hsettles
  have hruns : parcel ∈ g.pool.running := by
    refine h.running.mem_iff.1 ?_
    cases hends with
    | mk worker =>
      rw [Workers.running, worker, List.filterMap_append]
      exact List.mem_append_right _ List.mem_cons_self
  obtain ⟨i, hi, hparcel⟩ := List.getElem_of_mem hruns
  have hothers : (parcel :: g.pool.running.eraseIdx i).Perm g.pool.running := by
    have herase := List.getElem_cons_eraseIdx_perm hi
    rwa [hparcel] at herase
  refine ⟨⟨i, hi⟩, hparcel, ?_, ?_, ?_, ?_, ?_, ?_, ?_⟩
  · exact (g.pool.size_finish ⟨i, hi⟩).trans (h.size.trans hstays.size.symm)
  · exact (g.pool.capacity_finish ⟨i, hi⟩).trans (h.capacity.trans hstays.capacity.symm)
  · exact (g.pool.isOpen_finish ⟨i, hi⟩).trans (h.isOpen.trans hstays.isOpen.symm)
  · rw [GuardedPool.finish, Pool.running_finish, h.waiting, ← List.perm_cons parcel,
      ← List.cons_append]
    exact hrunning.trans ((h.running.trans hothers.symm).append_right _)
  · exact (g.pool.waiting_finish ⟨i, hi⟩).trans (h.waiting ▸ hchannel.symm)
  · rw [GuardedPool.finish, Pool.finished_finish, hfinished]
    exact hparcel ▸ h.finished.append_right _
  · rw [htokens]
    exact hparcel ▸ release_of_perm h.tokens _

/-- Tokens that all go back are all free. -/
theorem held_foldl_release {parcels : List (Parcel α)} {tokens : ScopeTokens}
    (h : tokens.held.Perm (parcels.filterMap Prod.snd)) :
    (parcels.foldl GuardedPool.release tokens).held = [] := by
  induction parcels generalizing tokens with
  | nil => exact h.eq_nil
  | cons parcel parcels ih => exact ih (GuardedPool.perm_release h)

/-- The workers leave no job behind in the channel. -/
theorem IsSound.channel_of_all_gone (h : m.IsSound) (hsize : 0 < m.size)
    (hgone : ∀ w ∈ m.workers, w = .gone) : m.channel = [] := by
  rw [← h.size_eq] at hsize
  obtain ⟨w, hw⟩ := List.exists_mem_of_length_pos hsize
  exact (h.gone_over (hgone w hw ▸ hw)).2

/-- The pool shuts down as the workers do. -/
theorem Agrees.shutsDown (h : m.Agrees g) (hrest : m.AtRest) (hsound : m.IsSound)
    (hdrains : m.close.Drains m') : m'.Agrees g.shutdown := by
  have hstays := hdrains.stays hrest.submission
  have hsound' := hdrains.isSound (hsound.close hrest.submission)
  have hrest' := atRest_of_all_gone (hstays.submission ▸ hrest.submission) hdrains.all_gone
  have hrunning := running_of_all_gone hdrains.all_gone
  have hsize : 0 < m'.size := by
    rw [hstays.size]
    exact h.size ▸ g.pool.size_pos
  have hchannel := hsound'.channel_of_all_gone hsize hdrains.all_gone
  refine ⟨h.size.trans hstays.size.symm, h.capacity.trans hstays.capacity.symm,
    hstays.isOpen.symm, ?_, hchannel.symm, ?_, ?_⟩
  · rw [hrunning]
    exact .nil
  · -- All jobs that were taken have ended.
    have hstarted' := hrest'.started_perm hsound'
    have hall : m'.started = m.started ++ m.channel := by
      rw [← hsound.in_order]
      have hsplit := hsound'.in_order
      rw [hchannel, List.append_nil] at hsplit
      exact hsplit.symm.trans hstays.accepted
    rw [hrunning, List.append_nil, hall] at hstarted'
    refine hstarted'.symm.trans (((hrest.started_perm hsound).append_right _).trans ?_)
    show ((m.finished ++ m.running) ++ m.channel).Perm
      (g.pool.finished ++ g.pool.running ++ g.pool.waiting)
    rw [h.waiting]
    exact (h.finished.append h.running).append_right _
  · have hheld := hrest'.tokens_perm hsound'
    rw [hrunning, hchannel] at hheld
    have hgiven : g.tokens.held.Perm ((g.pool.running ++ g.pool.waiting).filterMap Prod.snd) := by
      refine h.tokens.symm.trans ((hrest.tokens_perm hsound).trans (List.Perm.filterMap _ ?_))
      rw [h.waiting]
      exact h.running.append_right _
    have hfree : g.shutdown.tokens.held = [] := held_foldl_release hgiven
    rw [hfree]
    exact hheld

theorem Agrees.start {workers capacity : Nat}
    (hsettles : (start workers capacity : Workers α).Settles m) :
    m.Agrees (.start workers capacity) := by
  have hcome := hasCome_start hsettles
  have hstands := hsettles.stands rfl
  have hnothing : m.accepted = [] := hstands.accepted
  have hsplit := hcome.isSound.in_order
  rw [hnothing, eq_comm, List.append_eq_nil_iff] at hsplit
  have hstarted := hcome.atRest.started_perm hcome.isSound
  rw [hsplit.1] at hstarted
  have hrunning := (List.append_eq_nil_iff.1 hstarted.nil_eq.symm).2
  refine ⟨hstands.size.symm, hstands.capacity.symm, hstands.isOpen.symm, ?_, hsplit.2.symm, ?_, ?_⟩
  · rw [hrunning]
    exact .nil
  · rw [hstands.finished]
    exact .nil
  · rw [hstands.tokens]
    exact .nil

/-- The pool does what the workers do. -/
theorem Agrees.does (h : m.Agrees g) (hrest : m.AtRest) (hsound : m.IsSound)
    {event : PoolEvent α} (hdoes : m.Does event m') : ∃ g', g.Does event g' ∧ m'.Agrees g' := by
  cases hdoes with
  | submit job scope hsettles =>
    have hrest' := hsettles.isSettled.atRest
    have hsound' := hsettles.isSound (hsound.submit hrest.submission job scope)
    obtain ⟨hroom, htakes⟩ | ⟨hfull, rfl⟩ := hrest.settles_submit hsound hsettles
    · obtain ⟨htaken, hagrees⟩ := h.takes hrest hsound hrest' hsound' hroom htakes
      refine ⟨_, ?_, hagrees⟩
      rw [htakes.isTaken, ← htaken]
      exact .submit job scope
    · obtain ⟨hrefused, hagrees⟩ := h.handsBack hfull job scope
      refine ⟨_, ?_, hagrees⟩
      have hanswer : (m.handBack job scope).submission.isTaken = (g.submit job scope).1 :=
        hrefused.symm
      rw [hanswer]
      exact .submit job scope
  | finish hends hsettles =>
    obtain ⟨i, hparcel, hagrees⟩ := h.finishes hrest hsound hends hsettles
    exact ⟨_, hparcel ▸ .finish i, hagrees⟩
  | shutdown hdrains => exact ⟨_, .shutdown, h.shutsDown hrest hsound hdrains⟩

/-! ## The account -/

variable {workers capacity : Nat} {events : List (PoolEvent α)}

/-- Jobs per worker, at most one. -/
def loadOf (jobs workers : Nat) : Float :=
  let load := Float.ofNat jobs / Float.ofNat workers
  if load < 1 then load else 1

/-- What there is to say of a pool with so many workers and so much room that has come to rest after
these events. -/
structure Accounts (workers capacity : Nat) (events : List (PoolEvent α)) (m : Workers α) :
    Prop where
  accepted_eq : m.accepted.map Prod.fst = events.filterMap PoolEvent.accepted?
  rejected_eq : m.rejected.map Prod.fst = events.filterMap PoolEvent.rejected?
  /-- Until the pool is shut down, no job ends by itself. -/
  finished_eq : .shutDown ∉ events → m.finished = events.filterMap PoolEvent.finished?
  /-- Each job that was taken runs, waits or has ended, and no other job does. -/
  conserved : m.accepted.Perm (m.running ++ m.channel ++ m.finished)
  /-- Jobs start in the order in which they were taken. -/
  in_order : m.accepted = m.started ++ m.channel
  started_perm : m.started.Perm (m.running ++ m.finished)
  running_le : m.running.length ≤ max workers 1
  waiting_le : m.channel.length ≤ capacity
  /-- A job waits only while all workers are busy. -/
  busy : m.channel ≠ [] → m.running.length = max workers 1
  active_eq : m.active = m.running.length
  queued_eq : m.queued = m.channel.length
  utilization_eq : m.utilization = loadOf (m.running.length + m.channel.length) (max workers 1)
  /-- The tokens that are given out are those of the jobs that run and wait. -/
  tokens_perm : m.tokens.held.Perm ((m.running ++ m.channel).filterMap Prod.snd)
  /-- A pool that was shut down has nothing left to do. -/
  drained : .shutDown ∈ events → m.running = [] ∧ m.channel = [] ∧ m.tokens.held = []
  /-- A job is taken exactly if a worker is idle or there is room, and the pool was not shut down. -/
  takes_iff : ∀ {job : α} {scope : Option ScopeId} {taken : Bool} {m' : Workers α},
    m.Does (.submitted job scope taken) m' → (taken = true ↔ .shutDown ∉ events ∧
      (m.running.length < max workers 1 ∨ m.channel.length < capacity))
  /-- A job that is not taken is handed back, and leaves the pool as it was. -/
  hands_back : ∀ {job : α} {scope : Option ScopeId} {m' : Workers α},
    m.Does (.submitted job scope false) m' → m' = m.handBack job scope
  /-- Whatever is asked, the pool answers and comes to rest. -/
  submits : ∀ job scope, ∃ taken m', m.Does (.submitted job scope taken) m'
  finishes : ∀ parcel ∈ m.running, ∃ m', m.Does (.finished parcel) m'
  shuts_down : ∃ m', m.Does .shutDown m'

/-- A pool at rest says what the workers and their counters say. -/
structure Shows (m : Workers α) (g : GuardedPool α) : Prop extends m.Agrees g where
  active : m.active = g.pool.active
  queued : m.queued = g.pool.queued
  utilization : m.utilization = g.pool.utilization

theorem AtRest.utilization_eq (h : m.AtRest) (hsound : m.IsSound) :
    m.utilization = loadOf (m.running.length + m.channel.length) m.size := by
  unfold utilization
  rw [h.active_eq hsound, h.queued_eq hsound]
  rfl

theorem Agrees.shows (h : m.Agrees g) (hrest : m.AtRest) (hsound : m.IsSound) : m.Shows g where
  toAgrees := h
  active := by
    rw [hrest.active_eq hsound, h.running.length_eq]
    rfl
  queued := by
    rw [hrest.queued_eq hsound, ← h.waiting]
    rfl
  utilization := by
    rw [hrest.utilization_eq hsound, ← h.size, ← h.waiting, h.running.length_eq]
    rfl

/-- A job is taken exactly if there is room for it. -/
theorem AtRest.takes_iff (h : m.AtRest) (hsound : m.IsSound) {job : α} {scope : Option ScopeId}
    {taken : Bool} (hdoes : m.Does (.submitted job scope taken) m') :
    taken = true ↔ m.HasRoom := by
  cases hdoes with
  | submit _ _ hsettles =>
    obtain ⟨hroom, htakes⟩ | ⟨hfull, rfl⟩ := h.settles_submit hsound hsettles
    · exact iff_of_true htakes.isTaken hroom
    · exact iff_of_false Bool.false_ne_true hfull

theorem AtRest.eq_handBack (h : m.AtRest) (hsound : m.IsSound) {job : α} {scope : Option ScopeId}
    (hdoes : m.Does (.submitted job scope false) m') : m' = m.handBack job scope := by
  have hfull : ¬ m.HasRoom := mt (h.takes_iff hsound hdoes).2 Bool.false_ne_true
  generalize false = taken at hdoes
  cases hdoes with
  | submit _ _ hsettles =>
    obtain ⟨hroom, -⟩ | ⟨-, hback⟩ := h.settles_submit hsound hsettles
    · exact absurd hroom hfull
    · exact hback

/-- Each job that runs can come to its end. -/
theorem exists_does_finished (hruns : parcel ∈ m.running) : ∃ m', m.Does (.finished parcel) m' := by
  obtain ⟨w, hw, hrunning⟩ := List.mem_filterMap.1 hruns
  obtain ⟨front, back, hworker⟩ := List.append_of_mem hw
  cases w with
  | running other =>
    obtain rfl : other = parcel := Option.some.inj hrunning
    obtain ⟨m₁, hends⟩ : ∃ m₁, m.Ends other m₁ := ⟨_, .mk hworker⟩
    obtain ⟨m', hsettles⟩ := m₁.exists_settles
    exact ⟨m', .finish hends hsettles⟩
  | _ => cases hrunning

/-- After a shutdown nothing runs and nothing waits. -/
theorem HasCome.nothing_left (h : HasCome workers capacity events m) (hshut : .shutDown ∈ events) :
    m.running = [] ∧ m.channel = [] := by
  have hclosed : m.isOpen = false := Bool.not_eq_true _ ▸ fun hopen => h.isOpen_iff.1 hopen hshut
  have hgone := h.all_gone hclosed
  have hsize : 0 < m.size := by
    rw [h.size_eq]
    omega
  exact ⟨running_of_all_gone hgone, h.isSound.channel_of_all_gone hsize hgone⟩

theorem HasCome.accounts (h : HasCome workers capacity events m) :
    Accounts workers capacity events m := by
  have hrest := h.atRest
  have hsound := h.isSound
  have hstarted := (hrest.started_perm hsound).trans List.perm_append_comm
  constructor
  · exact h.accepted_eq
  · exact h.rejected_eq
  · exact fun hshut => h.finished_eq (h.isOpen_iff.2 hshut)
  · rw [hsound.in_order]
    refine (hstarted.append_right _).trans ?_
    rw [List.append_assoc, List.append_assoc]
    exact List.perm_append_comm.append_left _
  · exact hsound.in_order
  · exact hstarted
  · exact h.size_eq ▸ hsound.running_le
  · exact h.capacity_eq ▸ hsound.channel_le
  · exact fun hwaits => h.size_eq ▸ hrest.busy hsound hwaits
  · exact hrest.active_eq hsound
  · exact hrest.queued_eq hsound
  · exact h.size_eq ▸ hrest.utilization_eq hsound
  · exact hrest.tokens_perm hsound
  · intro hshut
    obtain ⟨hrunning, hwaiting⟩ := h.nothing_left hshut
    have hheld := hrest.tokens_perm hsound
    rw [hrunning, hwaiting] at hheld
    exact ⟨hrunning, hwaiting, hheld.eq_nil⟩
  · intro job scope taken m' hdoes
    rw [hrest.takes_iff hsound hdoes, HasRoom, h.isOpen_iff, h.size_eq, h.capacity_eq]
  · exact fun hdoes => hrest.eq_handBack hsound hdoes
  · intro job scope
    obtain ⟨m', hsettles⟩ := (m.submit job scope).exists_settles
    exact ⟨_, m', .submit job scope hsettles⟩
  · exact fun parcel => exists_does_finished
  · obtain ⟨m', hdrains⟩ := exists_drains (m := m.close) rfl
    exact ⟨m', .shutdown hdrains⟩

/-- **A pool accounts for its jobs.**  For any number of workers and any room, and after any sequence
of submissions, ends of jobs and shutdowns, the workers of a pool have come to rest with every job
that was taken running, waiting or ended, and none twice; the jobs have started in the order in which
they were taken; no more of them run and wait than there are workers and places; none waits while a
worker is idle; the counters and the load are those of the jobs that run and wait, and the tokens
those of these jobs.  At every such moment a job is taken exactly if there is a worker or a place for
it and the pool was not shut down; after a shutdown nothing runs, waits or holds a token.  And `Pool`
with `GuardedPool` says of all this what the workers do. -/
theorem pool_accounts_for_its_jobs (h : Runs workers capacity events m) :
    Accounts workers capacity events m ∧
      ∃ g, GuardedPool.Runs workers capacity events g ∧ m.Shows g := by
  refine ⟨h.hasCome.accounts, ?_⟩
  suffices hagrees : ∃ g, GuardedPool.Runs workers capacity events g ∧ m.Agrees g by
    obtain ⟨g, hruns, hagrees⟩ := hagrees
    exact ⟨g, hruns, hagrees.shows h.hasCome.atRest h.hasCome.isSound⟩
  induction h with
  | start hsettles => exact ⟨_, .start, .start hsettles⟩
  | event before hdoes ih =>
    obtain ⟨g, hruns, hagrees⟩ := ih
    obtain ⟨g', hdoes', hagrees'⟩ :=
      hagrees.does before.hasCome.atRest before.hasCome.isSound hdoes
    exact ⟨g', .event hruns hdoes', hagrees'⟩

/-- One worker without room for waiting jobs runs the first job, hands the second one back with its
token, and lets the first one end when it is shut down. -/
theorem lone_worker_accounts :
    ∃ m : Workers String,
      Runs 1 0 [.submitted "first" none true, .submitted "second" (some ⟨"tenant"⟩) false,
        .shutDown] m ∧
      m.finished.map Prod.fst = ["first"] ∧ m.rejected.map Prod.fst = ["second"] ∧
      m.tokens.held = [] := by
  obtain ⟨m₀, hsettles⟩ := (start 1 0 : Workers String).exists_settles
  have h₀ : Runs 1 0 [] m₀ := .start hsettles
  have account₀ := h₀.hasCome.accounts
  obtain ⟨taken, m₁, hfirst⟩ := account₀.submits "first" none
  have hidle : m₀.running.length + m₀.channel.length + m₀.finished.length = 0 := by
    have hnone : m₀.accepted = [] := List.map_eq_nil_iff.1 account₀.accepted_eq
    have hlength := account₀.conserved.length_eq
    rw [hnone, List.length_append, List.length_append] at hlength
    exact hlength.symm
  obtain rfl : taken = true := (account₀.takes_iff hfirst).2 ⟨List.not_mem_nil, .inl (by omega)⟩
  have h₁ := h₀.event hfirst
  have account₁ := h₁.hasCome.accounts
  obtain ⟨taken, m₂, hsecond⟩ := account₁.submits "second" (some ⟨"tenant"⟩)
  have hbusy : m₁.running.length = 1 ∧ m₁.channel.length = 0 := by
    have hended : m₁.finished = [] := account₁.finished_eq (by decide)
    have hone : m₁.accepted.length = 1 := by
      rw [← List.length_map Prod.fst, account₁.accepted_eq]
      rfl
    have hlength := account₁.conserved.length_eq
    rw [hone, hended, List.length_append, List.length_append, List.length_nil] at hlength
    have hle := account₁.waiting_le
    omega
  obtain rfl : taken = false := by
    rw [← Bool.not_eq_true, account₁.takes_iff hsecond]
    rintro ⟨-, hroom⟩
    omega
  have h₂ := h₁.event hsecond
  obtain ⟨m, hshut⟩ := h₂.hasCome.accounts.shuts_down
  have h := h₂.event hshut
  obtain ⟨account, -⟩ := pool_accounts_for_its_jobs h
  obtain ⟨hrunning, hwaiting, hheld⟩ := account.drained (by decide)
  refine ⟨m, h, ?_, account.rejected_eq, hheld⟩
  have hall := account.conserved.map Prod.fst
  rw [hrunning, hwaiting, account.accepted_eq] at hall
  exact List.perm_singleton.1 hall.symm

end Workers

end DeferredWork

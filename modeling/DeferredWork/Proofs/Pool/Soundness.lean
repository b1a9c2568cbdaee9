import DeferredWork.Engine.Workers

set_option autoImplicit false

/-!
# What workers keep while they move

At every moment the counters of a pool, its channel, its tokens and the places of its workers fit
together, whatever the submitter and the workers are in the middle of (`Workers.IsSound`): a new pool
is sound, and every call, every step and every end of a job keeps it so.
-/

namespace DeferredWork

variable {α β : Type}

/-! ## One worker of several -/

namespace Worker

variable {f : Worker α → Option β} {front back : List (Worker α)} {w w' v : Worker α}

/-- What is gathered from the workers stays if one of them moves on and shows the same. -/
theorem filterMap_of_same (h : f w' = f w) :
    (front ++ w' :: back).filterMap f = (front ++ w :: back).filterMap f := by
  rw [List.filterMap_append, List.filterMap_append, List.filterMap_cons, List.filterMap_cons, h]

/-- What is gathered from the workers grows by what one of them comes to show. -/
theorem perm_filterMap_of_some {b : β} (hbefore : f w = none) (hafter : f w' = some b) :
    ((front ++ w' :: back).filterMap f).Perm (b :: (front ++ w :: back).filterMap f) := by
  rw [List.filterMap_append, List.filterMap_append, List.filterMap_cons_some hafter,
    List.filterMap_cons_none hbefore]
  exact List.perm_middle

variable {p : Worker α → Bool}

theorem countP_of_same (w w' : Worker α) (h : p w' = p w) :
    (front ++ w' :: back).countP p = (front ++ w :: back).countP p := by
  rw [List.countP_append, List.countP_append, List.countP_cons, List.countP_cons, h]

theorem countP_of_more (w w' : Worker α) (hbefore : p w = false) (hafter : p w' = true) :
    (front ++ w' :: back).countP p = (front ++ w :: back).countP p + 1 := by
  simp only [List.countP_append, List.countP_cons, hbefore, hafter, if_true, if_false,
    Bool.false_eq_true]
  omega

/-- Who else is there stays there. -/
theorem mem_of_mem_moved (w w' : Worker α) (hne : v ≠ w') (h : v ∈ front ++ w' :: back) :
    v ∈ front ++ w :: back := by
  simp only [List.mem_append, List.mem_cons] at h ⊢
  rcases h with h | h | h
  · exact .inl h
  · exact absurd h hne
  · exact .inr (.inr h)

end Worker

/-! ## Tokens -/

namespace GuardedPool

variable {tokens : ScopeTokens} {parcel : Parcel α} {parcels : List (Parcel α)}

/-- A job that goes takes its token with it. -/
theorem perm_release (h : tokens.held.Perm ((parcel :: parcels).filterMap Prod.snd)) :
    (release tokens parcel).held.Perm (parcels.filterMap Prod.snd) := by
  obtain ⟨job, token⟩ := parcel
  cases token with
  | none => exact h
  | some scope =>
    have hheld : tokens.held.Perm (scope :: parcels.filterMap Prod.snd) := h
    have herase := hheld.erase scope
    rwa [List.erase_cons_head] at herase

/-- A job that comes brings its token. -/
theorem perm_takeToken (h : tokens.held.Perm (parcels.filterMap Prod.snd)) (job : α)
    (scope : Option ScopeId) :
    (takeToken tokens scope).2.held.Perm
      (((job, (takeToken tokens scope).1) :: parcels).filterMap Prod.snd) := by
  cases scope with
  | none => exact h
  | some scope =>
    rw [takeToken]
    cases htake : tokens.take? scope with
    | none => exact h
    | some taken =>
      have hheld : taken.held = scope :: tokens.held := by
        unfold ScopeTokens.take? at htake
        split at htake
        · cases htake
        · cases htake
          rfl
      have hmore : taken.held.Perm (scope :: parcels.filterMap Prod.snd) := hheld ▸ h.cons scope
      exact hmore

end GuardedPool

/-! ## Soundness -/

namespace Workers

variable {m m' : Workers α} {parcel : Parcel α}

/-- The jobs in the pool: with workers, in the channel, and about to be sent. -/
def parcels (m : Workers α) : List (Parcel α) :=
  m.workers.filterMap Worker.parcel? ++ m.channel ++ m.submission.parcel?.toList

/-- The counters, the channel, the tokens and the workers fit together. -/
structure IsSound (m : Workers α) : Prop where
  size_eq : m.workers.length = m.size
  one_receives : m.workers.countP Worker.isReceiving ≤ 1
  channel_le : m.channel.length ≤ m.capacity
  /-- Jobs are received in the order in which they were taken. -/
  in_order : m.accepted = m.started ++ m.channel
  /-- A job that was received is with a worker or has ended. -/
  started_perm : m.started.Perm (m.finished ++ m.workers.filterMap Worker.parcel?)
  active_eq : m.active = m.workers.countP Worker.isActive
  queued_eq : m.queued = m.channel.length + m.workers.countP Worker.isQueued +
    m.submission.parcel?.toList.length
  gone_over : Worker.gone ∈ m.workers → m.isOpen = false ∧ m.channel = []
  submits_open : m.submission.parcel? ≠ none → m.isOpen = true
  tokens_perm : m.tokens.held.Perm (m.parcels.filterMap Prod.snd)

theorem isSound_start (workers capacity : Nat) : (start workers capacity : Workers α).IsSound where
  size_eq := List.length_replicate
  one_receives := by simp [start, List.countP_replicate, Worker.isReceiving]
  channel_le := Nat.zero_le _
  in_order := rfl
  started_perm := by simp [start, List.filterMap_replicate, Worker.parcel?]
  active_eq := by simp [start, List.countP_replicate, Worker.isActive]
  queued_eq := by simp [start, List.countP_replicate, Worker.isQueued, Submission.parcel?]
  gone_over h := nomatch List.eq_of_mem_replicate h
  submits_open h := absurd rfl h
  tokens_perm := by
    simp [start, parcels, List.filterMap_replicate, Worker.parcel?, Submission.parcel?,
      ScopeTokens.allFree]

/-! ## Calls -/

theorem submit_of_open (hopen : m.isOpen = true) (job : α) (scope : Option ScopeId) :
    m.submit job scope =
      { m with
        tokens := (GuardedPool.takeToken m.tokens scope).2
        queued := m.queued + 1
        submission := .offered (job, (GuardedPool.takeToken m.tokens scope).1) } :=
  if_pos hopen

theorem submit_of_closed (hclosed : m.isOpen = false) (job : α) (scope : Option ScopeId) :
    m.submit job scope =
      { m with
        tokens := GuardedPool.release (GuardedPool.takeToken m.tokens scope).2
          (job, (GuardedPool.takeToken m.tokens scope).1)
        submission := .handedBack (job, (GuardedPool.takeToken m.tokens scope).1)
        rejected := m.rejected ++ [(job, (GuardedPool.takeToken m.tokens scope).1)] } :=
  if_neg (Bool.not_eq_true _ ▸ hclosed)

/-- Between two submissions, a job can be submitted. -/
theorem IsSound.submit (h : m.IsSound) (hrest : m.submission.parcel? = none) (job : α)
    (scope : Option ScopeId) : (m.submit job scope).IsSound := by
  have htokens := h.tokens_perm
  rw [parcels, hrest, Option.toList_none, List.append_nil] at htokens
  have htaken := GuardedPool.perm_takeToken htokens job scope
  have hqueued := h.queued_eq
  rw [hrest] at hqueued
  cases hopen : m.isOpen with
  | true =>
    rw [submit_of_open hopen]
    refine { h with queued_eq := ?_, submits_open := fun _ => hopen, tokens_perm := ?_ }
    · simp only [Submission.parcel?, Option.toList_some, Option.toList_none, List.length_nil,
        List.length_singleton] at hqueued ⊢
      omega
    · exact htaken.trans ((List.perm_append_singleton _ _).symm.filterMap _)
  | false =>
    rw [submit_of_closed hopen]
    refine { h with queued_eq := hqueued, submits_open := fun h => absurd rfl h, tokens_perm := ?_ }
    simp only [parcels, Submission.parcel?, Option.toList_none, List.append_nil]
    exact GuardedPool.perm_release htaken

theorem IsSound.close (h : m.IsSound) (hrest : m.submission.parcel? = none) : m.close.IsSound :=
  { h with
    gone_over := fun hgone => ⟨rfl, (h.gone_over hgone).2⟩
    submits_open := fun hsome => absurd hrest hsome }

/-! ## Steps -/

/-- While a job is being submitted, nobody has left. -/
theorem IsSound.nobody_gone (h : m.IsSound) (hsubmits : m.submission.parcel? ≠ none) :
    Worker.gone ∉ m.workers := by
  intro hgone
  have hopen := h.submits_open hsubmits
  rw [(h.gone_over hgone).1] at hopen
  cases hopen

theorem parcels_of_none (h : m.submission.parcel? = none) :
    m.parcels = m.workers.filterMap Worker.parcel? ++ m.channel := by
  rw [parcels, h, Option.toList_none, List.append_nil]

theorem parcels_of_some (h : m.submission.parcel? = some parcel) :
    m.parcels = m.workers.filterMap Worker.parcel? ++ m.channel ++ [parcel] := by
  rw [parcels, h, Option.toList_some]

theorem IsSound.queued_of_none (h : m.IsSound) (hrest : m.submission.parcel? = none) :
    m.queued = m.channel.length + m.workers.countP Worker.isQueued := by
  rw [h.queued_eq, hrest]
  rfl

theorem IsSound.queued_of_some (h : m.IsSound) (hsome : m.submission.parcel? = some parcel) :
    m.queued = m.channel.length + m.workers.countP Worker.isQueued + 1 := by
  rw [h.queued_eq, hsome]
  rfl

/-- A worker moves on with the job that it has, or without one, and moves the counters accordingly.
It leaves only if there is nothing left to do. -/
theorem IsSound.move (h : m.IsSound) {front back : List (Worker α)} {w : Worker α}
    (worker : m.workers = front ++ w :: back) (w' : Worker α) (hparcel : w'.parcel? = w.parcel?)
    (hgone : w' = .gone → m.isOpen = false ∧ m.channel = []) {active queued : Int}
    (hreceives : (front ++ w' :: back).countP Worker.isReceiving ≤ 1)
    (hactive : active = (front ++ w' :: back).countP Worker.isActive)
    (hqueued : queued = m.channel.length + (front ++ w' :: back).countP Worker.isQueued +
      m.submission.parcel?.toList.length) :
    { m with workers := front ++ w' :: back, active := active, queued := queued }.IsSound where
  size_eq := by
    rw [← h.size_eq, worker]
    simp only [List.length_append, List.length_cons]
  one_receives := hreceives
  channel_le := h.channel_le
  in_order := h.in_order
  started_perm := by
    rw [Worker.filterMap_of_same hparcel, ← worker]
    exact h.started_perm
  active_eq := hactive
  queued_eq := hqueued
  gone_over hmem := by
    by_cases hleaves : w' = .gone
    · exact hgone hleaves
    · exact h.gone_over (worker ▸ Worker.mem_of_mem_moved w w' (Ne.symm hleaves) hmem)
  submits_open := h.submits_open
  tokens_perm := by
    have htokens := h.tokens_perm
    rw [parcels, worker, ← Worker.filterMap_of_same hparcel] at htokens
    exact htokens

/-- A worker receives a job, and this is left in the channel and of the submission. -/
theorem IsSound.receives (h : m.IsSound) {front back : List (Worker α)}
    (worker : m.workers = front ++ .receiving :: back) (parcel : Parcel α)
    (submission : Submission α) {channel accepted : List (Parcel α)}
    (hchannel : channel.length ≤ m.capacity) (haccepted : accepted = m.started ++ parcel :: channel)
    (hqueued : m.queued = channel.length + 1 + m.workers.countP Worker.isQueued +
      submission.parcel?.toList.length)
    (hnobody : Worker.gone ∉ m.workers) (hopen : submission.parcel? ≠ none → m.isOpen = true)
    (htokens : m.tokens.held.Perm ((m.workers.filterMap Worker.parcel? ++
      parcel :: (channel ++ submission.parcel?.toList)).filterMap Prod.snd)) :
    { m with
      workers := front ++ Worker.received parcel :: back
      channel := channel
      submission := submission
      accepted := accepted
      started := m.started ++ [parcel] }.IsSound := by
  have hheld : ((front ++ Worker.received parcel :: back).filterMap Worker.parcel?).Perm
      (parcel :: m.workers.filterMap Worker.parcel?) := by
    rw [worker]
    exact Worker.perm_filterMap_of_some rfl rfl
  have hone := h.one_receives
  have hactive := h.active_eq
  rw [worker] at hone hactive hqueued
  constructor
  · rw [← h.size_eq, worker]
    simp only [List.length_append, List.length_cons]
  · have hless : (front ++ Worker.receiving :: back).countP Worker.isReceiving =
        (front ++ Worker.received parcel :: back).countP Worker.isReceiving + 1 :=
      Worker.countP_of_more _ _ rfl rfl
    dsimp only
    omega
  · exact hchannel
  · rw [haccepted, List.append_assoc, List.singleton_append]
  · refine (h.started_perm.append_right _).trans ?_
    rw [List.append_assoc]
    exact ((List.perm_append_singleton _ _).trans hheld.symm).append_left _
  · rwa [Worker.countP_of_same .receiving (.received parcel) rfl]
  · have hmore : (front ++ Worker.received parcel :: back).countP Worker.isQueued =
        (front ++ Worker.receiving :: back).countP Worker.isQueued + 1 :=
      Worker.countP_of_more _ _ rfl rfl
    dsimp only
    omega
  · intro hgone
    exact absurd (worker ▸ Worker.mem_of_mem_moved .receiving (.received parcel) nofun hgone) hnobody
  · exact hopen
  · refine htokens.trans (List.Perm.filterMap _ ?_)
    rw [parcels, List.append_assoc]
    exact List.perm_middle.trans (hheld.symm.append_right _)

/-- Every step of a submission keeps the pool sound. -/
theorem IsSound.sends (h : m.IsSound) (hsends : m.Sends m') : m'.IsSound := by
  have htokens := h.tokens_perm
  cases hsends with
  | @send parcel offered room =>
    have hsome : m.submission.parcel? = some parcel := congrArg Submission.parcel? offered
    have hnobody := h.nobody_gone (by rw [hsome]; exact Option.some_ne_none _)
    refine { h with
      channel_le := ?_, in_order := ?_, queued_eq := ?_, tokens_perm := ?_
      gone_over := fun hgone => absurd hgone hnobody
      submits_open := fun hsome => absurd rfl hsome }
    · rw [List.length_append]
      exact room
    · rw [h.in_order, List.append_assoc]
    · rw [h.queued_of_some hsome, List.length_append]
      exact Int.add_right_comm _ _ _
    · rw [parcels_of_none rfl, ← List.append_assoc, ← parcels_of_some hsome]
      exact htokens
  | @handOver parcel front back offered rendezvous worker =>
    have hsome : m.submission.parcel? = some parcel := congrArg Submission.parcel? offered
    have hempty : m.channel = [] := List.length_eq_zero_iff.1 (by have := h.channel_le; omega)
    refine h.receives worker parcel .taken h.channel_le ?_ ?_ ?_ (absurd rfl) ?_
    · rw [h.in_order, hempty, List.append_nil]
    · rw [h.queued_of_some hsome]
      exact Int.add_right_comm _ _ _
    · exact h.nobody_gone (by rw [hsome]; exact Option.some_ne_none _)
    · rw [parcels_of_some hsome] at htokens
      rw [hempty, List.append_nil] at htokens
      rw [hempty]
      exact htokens
  | @refuse parcel offered full unattended =>
    have hsome : m.submission.parcel? = some parcel := congrArg Submission.parcel? offered
    have hopen := h.submits_open (by rw [hsome]; exact Option.some_ne_none _)
    refine { h with queued_eq := ?_, submits_open := fun _ => hopen, tokens_perm := ?_ }
    · exact h.queued_of_some hsome
    · rw [parcels_of_some hsome] at htokens
      exact htokens
  | @handBack parcel refused =>
    have hsome : m.submission.parcel? = some parcel := congrArg Submission.parcel? refused
    refine { h with
      queued_eq := ?_, tokens_perm := ?_, submits_open := fun hsome => absurd rfl hsome }
    · rw [h.queued_of_some hsome]
      exact (Int.add_sub_cancel _ 1).trans (Int.add_zero _).symm
    · rw [parcels_of_some hsome] at htokens
      rw [parcels_of_none rfl]
      exact GuardedPool.perm_release (htokens.trans ((List.perm_append_singleton _ _).filterMap _))

/-- Every step of a worker keeps the pool sound. -/
theorem IsSound.works (h : m.IsSound) (hworks : m.Works m') : m'.IsSound := by
  have hone := h.one_receives
  have hactive := h.active_eq
  have hqueued := h.queued_eq
  have htokens := h.tokens_perm
  cases hworks with
  | @turn front back worker nobody =>
    have hnone : m.workers.countP Worker.isReceiving = 0 := by
      refine List.countP_eq_zero.2 fun w hw hreceiving => ?_
      cases w with
      | receiving => exact nobody hw
      | _ => cases hreceiving
    rw [worker] at hnone hactive hqueued
    refine h.move worker .receiving rfl nofun ?_ ?_ ?_
    · exact Nat.le_of_eq ((Worker.countP_of_more .free .receiving rfl rfl).trans (by rw [hnone]))
    · rwa [Worker.countP_of_same .free .receiving rfl]
    · rwa [Worker.countP_of_same .free .receiving rfl]
  | @receive parcel rest front back worker first =>
    have hle := h.channel_le
    rw [first, List.length_cons] at hle
    refine h.receives worker parcel m.submission (Nat.le_of_succ_le hle) ?_ ?_ ?_ h.submits_open ?_
    · rw [h.in_order, first]
    · rw [hqueued, first]
      rfl
    · intro hgone
      exact absurd (first.symm.trans (h.gone_over hgone).2) (List.cons_ne_nil _ _)
    · rwa [parcels, first, List.append_assoc] at htokens
  | @count parcel front back worker =>
    rw [worker] at hone hactive hqueued
    refine h.move worker (.counted parcel) rfl nofun ?_ ?_ ?_
    · rwa [Worker.countP_of_same (.received parcel) (.counted parcel) rfl]
    · rw [Worker.countP_of_more (.received parcel) (.counted parcel) rfl rfl, hactive,
        Int.natCast_add]
      rfl
    · rwa [Worker.countP_of_same (.received parcel) (.counted parcel) rfl]
  | @run parcel front back worker =>
    rw [worker] at hone hactive hqueued
    have hless : (front ++ .counted parcel :: back).countP Worker.isQueued =
        (front ++ .running parcel :: back).countP Worker.isQueued + 1 :=
      Worker.countP_of_more _ _ rfl rfl
    refine h.move worker (.running parcel) rfl nofun ?_ ?_ (by omega)
    · rwa [Worker.countP_of_same (.counted parcel) (.running parcel) rfl]
    · rwa [Worker.countP_of_same (.counted parcel) (.running parcel) rfl]
  | @rest front back worker =>
    rw [worker] at hone hactive hqueued
    have hless : (front ++ .ended :: back).countP Worker.isActive =
        (front ++ .free :: back).countP Worker.isActive + 1 := Worker.countP_of_more _ _ rfl rfl
    refine h.move worker .free rfl nofun ?_ (by omega) ?_
    · rwa [Worker.countP_of_same .ended .free rfl]
    · rwa [Worker.countP_of_same .ended .free rfl]
  | @leave front back worker empty closed =>
    rw [worker] at hone hactive hqueued
    have hless : (front ++ Worker.receiving :: back).countP Worker.isReceiving =
        (front ++ Worker.gone :: back).countP Worker.isReceiving + 1 :=
      Worker.countP_of_more _ _ rfl rfl
    refine h.move worker .gone rfl (fun _ => ⟨closed, empty⟩) (by omega) ?_ ?_
    · rwa [Worker.countP_of_same .receiving .gone rfl]
    · rwa [Worker.countP_of_same .receiving .gone rfl]

theorem IsSound.step (h : m.IsSound) : m.Step m' → m'.IsSound
  | .sends hsends => h.sends hsends
  | .works hworks => h.works hworks

/-- The end of a job keeps the pool sound. -/
theorem IsSound.ends (h : m.IsSound) (hends : m.Ends parcel m') : m'.IsSound := by
  have hone := h.one_receives
  have hactive := h.active_eq
  have hqueued := h.queued_eq
  have htokens := h.tokens_perm
  cases hends with
  | @mk front back worker =>
    have hheld : (m.workers.filterMap Worker.parcel?).Perm
        (parcel :: (front ++ Worker.ended :: back).filterMap Worker.parcel?) := by
      rw [worker]
      exact Worker.perm_filterMap_of_some rfl rfl
    rw [worker] at hone hactive hqueued
    refine { h with
      size_eq := ?_, one_receives := ?_, started_perm := ?_, active_eq := ?_, queued_eq := ?_
      gone_over := ?_, tokens_perm := ?_ }
    · rw [← h.size_eq, worker]
      simp only [List.length_append, List.length_cons]
    · rwa [Worker.countP_of_same (.running parcel) .ended rfl]
    · rw [List.append_assoc, List.singleton_append]
      exact h.started_perm.trans (hheld.append_left _)
    · rwa [Worker.countP_of_same (.running parcel) .ended rfl]
    · rwa [Worker.countP_of_same (.running parcel) .ended rfl]
    · exact fun hgone =>
        h.gone_over (worker ▸ Worker.mem_of_mem_moved (.running parcel) .ended nofun hgone)
    · refine GuardedPool.perm_release (htokens.trans (List.Perm.filterMap _ ?_))
      exact (hheld.append_right _).append_right _

end Workers

end DeferredWork

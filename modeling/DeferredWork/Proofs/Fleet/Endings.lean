import DeferredWork.Proofs.Engine.Ending
import DeferredWork.Proofs.Fleet.Conduct
import DeferredWork.Proofs.Fleet.Play

set_option autoImplicit false

/-!
# Each job ends at most once

Several engines may execute a job at the same time, because locks expire, and operators may cancel it
meanwhile.  Whatever tasks a fleet is set to do, and whatever handlers and clocks it has, at most one
of these executions and cancellations ends the job, and nothing that any other of them has handed in
was accepted (`Fleet.Reachable.each_job_ends_once`), provided that no name is inserted twice.
-/

namespace DeferredWork

variable {ι : Type} {ε : Type → Type} {α β : Type} {engine : ι → Engine ε}

namespace Thread

/-- The conversation of a worker begins with an execution, of which this is the conversation.  The
execution is over if the worker has said more. -/
structure Executes (thread : Thread engine) (seat : ι) (d : Dispatched)
    (talk : List (Exchange (Call ε))) (rest : Routine ε (Except TransactionError ExecutionOutcome)) :
    Prop where
  task : thread.task = .run seat d
  leads : ((engine seat).execute d.job).Leads talk rest
  cut : ∃ more, thread.talk = talk ++ more ∧ (more = [] ∨ ∃ result, rest = .done result)

/-- The task is a cancellation, and this is how it goes on. -/
structure Cancels (thread : Thread engine) (operator : Operator) (id : JobId)
    (rest : Routine ε (Except TransactionError Bool)) : Prop where
  task : thread.task = .cancel operator id
  leads : (operator.cancel id).Leads thread.talk rest

/-- The conversation of a worker begins with an execution. -/
theorem exists_executes (thread : Thread engine) {seat : ι} {d : Dispatched}
    (htask : thread.task = .run seat d)
    (hpossible : ∀ exchange ∈ thread.talk, exchange.IsPlausible) :
    ∃ talk rest, thread.Executes seat d talk rest := by
  obtain ⟨task, talk, rest, leads⟩ := thread
  dsimp only at htask
  subst htask
  have hrun : ((engine seat).execute d.job).Opens talk rest := by
    refine (Interaction.opens_bind leads).trans fun talk r hcleaning => ?_
    exact (Interaction.opens_onAbort hcleaning).trans fun talk r => Interaction.opens_bind
  obtain ⟨talk₁, talk₂, x', rfl, hleads, hover⟩ := hrun
  refine ⟨talk₁, x', rfl, hleads, talk₂, rfl, ?_⟩
  rcases hover with hover | ⟨hnil, -⟩
  · cases x' with
    | done result => exact .inr ⟨result, rfl⟩
    | abort reason =>
      have hpossible := fun exchange hmem => hpossible exchange (List.mem_append_left _ hmem)
      exact (((engine seat).keeps_ending d.job).of_leads hleads hpossible).1.elim
    | ask q next => cases hover
  · exact .inl hnil

end Thread

namespace Fleet

variable {s : Store} {f : Fleet engine} {id : JobId}

/-- The task at a place has ended a job: it was executed and that was committed, or it was cancelled
and the caller was told so. -/
inductive Ends (f : Fleet engine) (id : JobId) (p : Place ι) : Prop
  | executed {thread : Thread engine} {seat : ι} {d : Dispatched}
      {talk : List (Exchange (Call ε))} {completion : Completion}
      (here : f.threads p = some thread) (named : d.job.id = id)
      (executes : thread.Executes seat d talk (.done (.ok (.committed completion))))
  | cancelled {thread : Thread engine} {operator : Operator} (here : f.threads p = some thread)
      (cancels : thread.Cancels operator id (.done (.ok true)))

/-- Of a call at a place, a batch was accepted that deletes a job. -/
def Deletes (f : Fleet engine) (id : JobId) (p : Place ι) : Prop :=
  ∃ turn ∈ f.history, turn.place = p ∧ ∃ ws, turn.batch? = some ws ∧ ∃ w ∈ ws, w.deletes id = true

variable [DecidableEq ι]

/-- A job is deleted from one place only. -/
theorem Reachable.place_eq_of_deletes (h : Reachable s f) (honce : s.InsertsOnce f.log)
    {p q : Place ι} (hp : f.Deletes id p) (hq : f.Deletes id q) : p = q := by
  -- Of two calls that delete the job, the later one could not have been accepted.
  have hlater : ∀ {before after turn turn' ws ws'}, f.history = before ++ turn :: after →
      turn' ∈ after → turn.batch? = some ws → turn'.batch? = some ws' →
      (∃ w ∈ ws, w.deletes id = true) → ¬ ∃ w ∈ ws', w.deletes id = true := by
    rintro before after turn turn' ws ws' hhistory hmem hbatch hbatch'
      ⟨w, hw, hdeletes⟩ ⟨w', hw', hdeletes'⟩
    obtain ⟨early, late, rfl⟩ := List.append_of_mem hw
    have hlog : f.log.flatten = (before.filterMap Turn.batch?).flatten ++ early ++
        w :: (late ++ (after.filterMap Turn.batch?).flatten) := by
      rw [log, hhistory, List.filterMap_append, List.filterMap_cons, hbatch]
      simp
    have hnot := h.commits.deletes_once honce hlog hdeletes w' (List.mem_append_right _
      (List.mem_flatten.2 ⟨ws', List.mem_filterMap.2 ⟨turn', hmem, hbatch'⟩, hw'⟩))
    rw [hnot] at hdeletes'
    cases hdeletes'
  obtain ⟨turn, hturn, rfl, ws, hbatch, hdeletes⟩ := hp
  obtain ⟨turn', hturn', rfl, ws', hbatch', hdeletes'⟩ := hq
  obtain ⟨before, after, hhistory⟩ := List.append_of_mem hturn
  rw [hhistory, List.mem_append, List.mem_cons] at hturn'
  rcases hturn' with hmem | rfl | hmem
  · obtain ⟨first, rest, rfl⟩ := List.append_of_mem hmem
    rw [List.append_assoc, List.cons_append] at hhistory
    exact absurd hdeletes (hlater hhistory (List.mem_append_right _ List.mem_cons_self) hbatch'
      hbatch hdeletes')
  · rfl
  · exact absurd hdeletes' (hlater hhistory hmem hbatch hbatch' hdeletes)

/-- A conversation that keeps to batches which delete a job, and of which a batch was accepted, has
deleted the job. -/
theorem Reachable.deletes_of_keeps (h : Reachable s f) {p : Place ι} {thread : Thread engine}
    (here : f.threads p = some thread) {x r : Routine ε α}
    {post : List (Exchange (Call ε)) → α → Prop} {talk : List (Exchange (Call ε))}
    (hkeeps : x.Keeps (Conduct.ending id).rules post []) (hleads : x.Leads talk r)
    (hsub : talk ⊆ thread.talk) (haccepted : ¬ NoneAccepted talk) : f.Deletes id p := by
  have hpossible := fun exchange hmem => h.plausible_talk here exchange (hsub hmem)
  obtain ⟨exchange, hmem, hbatch⟩ :
      ∃ exchange ∈ talk, ∃ ws, Event.batch? (.own exchange) = some ws := by
    by_contra hnone
    push Not at hnone
    refine haccepted fun exchange hmem => Option.eq_none_iff_forall_ne_some.2 ?_
    exact hnone exchange hmem
  obtain ⟨ws, hbatch⟩ := hbatch
  obtain ⟨earlier, hallowed⟩ := (hkeeps.of_leads hleads hpossible).2 exchange hmem
  obtain ⟨rows, rfl⟩ := Event.batch?_own_eq_some_iff.1 hbatch
  exact ⟨_, h.recorded here (hsub hmem), rfl, ws, rfl, hallowed⟩

variable {p : Place ι} {thread : Thread engine} {seat : ι} {d : Dispatched} {operator : Operator}
  {talk : List (Exchange (Call ε))}

/-- An execution of which a batch was accepted has deleted its job. -/
theorem Reachable.deletes_of_executes (h : Reachable s f) (here : f.threads p = some thread)
    {rest : Routine ε (Except TransactionError ExecutionOutcome)}
    (hexecutes : thread.Executes seat d talk rest) (haccepted : ¬ NoneAccepted talk) :
    f.Deletes d.job.id p := by
  obtain ⟨more, hcut, -⟩ := hexecutes.cut
  refine h.deletes_of_keeps here ((engine seat).keeps_ending d.job) hexecutes.leads ?_ haccepted
  rw [hcut]
  exact List.subset_append_left _ _

/-- An execution is committed exactly if a batch of it was accepted. -/
theorem Reachable.committed_iff (h : Reachable s f) (here : f.threads p = some thread)
    {result : Except TransactionError ExecutionOutcome}
    (hexecutes : thread.Executes seat d talk (.done result)) :
    (∃ completion, result = .ok (.committed completion)) ↔ ¬ NoneAccepted talk := by
  obtain ⟨more, hcut, -⟩ := hexecutes.cut
  have hpossible : ∀ exchange ∈ talk, exchange.IsPlausible := fun exchange hmem =>
    h.plausible_talk here exchange (hcut ▸ List.mem_append_left _ hmem)
  exact (((engine seat).keeps_ending d.job).of_leads hexecutes.leads hpossible).1

/-- A cancellation of which a batch was accepted has deleted its job. -/
theorem Reachable.deletes_of_cancels (h : Reachable s f) (here : f.threads p = some thread)
    {rest : Routine ε (Except TransactionError Bool)}
    (hcancels : thread.Cancels operator id rest) (haccepted : ¬ NoneAccepted thread.talk) :
    f.Deletes id p :=
  h.deletes_of_keeps here (operator.keeps_ending id) hcancels.leads (List.Subset.refl _) haccepted

/-- A cancellation says that the job was there exactly if a batch of it was accepted. -/
theorem Reachable.cancelled_iff (h : Reachable s f) (here : f.threads p = some thread)
    {result : Except TransactionError Bool}
    (hcancels : thread.Cancels operator id (.done result)) :
    result = .ok true ↔ ¬ NoneAccepted thread.talk :=
  ((operator.keeps_ending id).of_leads hcancels.leads (h.plausible_talk here)).1

theorem Reachable.deletes_of_ends (h : Reachable s f) (hends : f.Ends id p) : f.Deletes id p := by
  cases hends with
  | executed here named executes =>
    subst named
    exact h.deletes_of_executes here executes ((h.committed_iff here executes).1 ⟨_, rfl⟩)
  | cancelled here cancels =>
    exact h.deletes_of_cancels here cancels ((h.cancelled_iff here cancels).1 rfl)

/-- A job ends at one place at most.  Each worker for the job begins with an execution of it.  If that
is over, it was committed exactly if a batch of it was accepted; and if the job has ended at another
place, no batch of it was accepted, nor of any cancellation at another place. -/
theorem Reachable.each_job_ends_once (h : Reachable s f) (honce : s.InsertsOnce f.log)
    (id : JobId) :
    (∀ p q, f.Ends id p → f.Ends id q → p = q) ∧
    (∀ q thread seat d, f.threads q = some thread → thread.task = .run seat d → d.job.id = id →
      ∃ talk rest, thread.Executes seat d talk rest ∧
        (∀ result, rest = .done result →
          ((∃ completion, result = .ok (.committed completion)) ↔ ¬ NoneAccepted talk)) ∧
        ∀ p, f.Ends id p → p ≠ q → NoneAccepted talk) ∧
    ∀ q thread operator, f.threads q = some thread → thread.task = .cancel operator id →
      (∀ result, thread.Cancels operator id (.done result) →
        (result = .ok true ↔ ¬ NoneAccepted thread.talk)) ∧
      ∀ p, f.Ends id p → p ≠ q → NoneAccepted thread.talk := by
  refine ⟨fun p q hp hq => ?_, fun q thread seat d here htask hname => ?_,
    fun q thread operator here htask => ⟨fun result => h.cancelled_iff here, fun p hp hne => ?_⟩⟩
  · exact h.place_eq_of_deletes honce (h.deletes_of_ends hp) (h.deletes_of_ends hq)
  · obtain ⟨talk, rest, hexecutes⟩ := thread.exists_executes htask (h.plausible_talk here)
    refine ⟨talk, rest, hexecutes, ?_, fun p hp hne => ?_⟩
    · rintro result rfl
      exact h.committed_iff here hexecutes
    · by_contra haccepted
      subst hname
      have hdeletes := h.deletes_of_executes here hexecutes haccepted
      exact hne (h.place_eq_of_deletes honce (h.deletes_of_ends hp) hdeletes)
  · by_contra haccepted
    obtain ⟨rest, hcancels⟩ : ∃ rest, thread.Cancels operator id rest := by
      obtain ⟨task, talk, rest, leads⟩ := thread
      dsimp only at htask
      subst htask
      exact ⟨rest, rfl, leads⟩
    have hdeletes := h.deletes_of_cancels here hcancels haccepted
    exact hne (h.place_eq_of_deletes honce (h.deletes_of_ends hp) hdeletes)

/-! ## Two engines that execute the same job -/

/-- The left engine's lock on the first job expires before its worker starts, and the right engine
takes the job over.  An operator is about to cancel it.  The left worker finds that the job has
changed, the right one executes it, and the operator comes too late. -/
def takeover : Fleet Engine.ofPair :=
  (start Engine.ofPair (.ofTwo (.mail "first") (.mail "second"))).play
    [.begin (.cycle true) (.acquire true 1) rfl, .call (.cycle true) 12 .early,
      .begin (.cycle false) (.acquire false 1) rfl, .call (.cycle false) 12 .late,
      .begin (.call 0) (.cancel ⟨.ofMillis 1, 3⟩ ⟨"first"⟩) trivial, .call (.call 0) 2 .late,
      .call (.worker 8) 6 .late, .call (.worker 20) 5 .late, .call (.call 0) 1 .late]

theorem reachable_takeover : Reachable (.ofTwo (.mail "first") (.mail "second")) takeover :=
  Reachable.start.play _

theorem takeover_ends_first_job_once :
    Reachable (.ofTwo (.mail "first") (.mail "second")) takeover ∧
      (Store.ofTwo (.mail "first") (.mail "second")).InsertsOnce takeover.log ∧
      takeover.accepted.map (fun a => (a.1, a.2.job.id.text)) = [(true, "first"), (false, "first")] ∧
      ((takeover.history.filter fun turn =>
        turn.batch?.any fun ws => ws.any (Write.deletes ⟨"first"⟩)).map Turn.place) = [.worker 20] ∧
      ∀ p q, takeover.Ends ⟨"first"⟩ p → takeover.Ends ⟨"first"⟩ q → p = q := by
  have honce : (Store.ofTwo (.mail "first") (.mail "second")).InsertsOnce takeover.log := by
    unfold Store.InsertsOnce
    decide +kernel
  exact ⟨reachable_takeover, honce, by decide +kernel, by decide +kernel,
    (reachable_takeover.each_job_ends_once honce ⟨"first"⟩).1⟩

end Fleet

end DeferredWork

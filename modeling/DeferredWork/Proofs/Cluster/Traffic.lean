import DeferredWork.Proofs.Transaction.Discipline

set_option autoImplicit false

/-!
# Traffic

Any number of routines run side by side on one store: at each step a new routine enters, or one of
those that are under way makes its next call, or the store goes out of reach or comes back
(`Traffic.Step`).  If all routines that may enter obey a discipline, what each write that the
discipline allows preserves holds at all times (`Traffic.Reachable.induction_on_writes`), provided
that no name is inserted twice: by then the store still has each row that a routine was told of, or
has gone past it.
-/

namespace DeferredWork

variable {ε : Type → Type} {α β : Type}

/-- A routine that is under way. -/
structure Strand (ε : Type → Type) : Type 1 where
  {α : Type}
  routine : Routine ε α

/-- A store, the batches that it has accepted, and the routines that are under way. -/
structure Traffic (ε : Type → Type) : Type 1 where
  store : Store
  log : List (List Write)
  strands : List (Strand ε)

namespace Traffic

/-- One step of the traffic of routines of certain kinds. -/
inductive Step (enters : Strand ε → Prop) : Traffic ε → Traffic ε → Prop
  | enter {t : Traffic ε} {strand : Strand ε} (allowed : enters strand) :
      Step enters t { t with strands := strand :: t.strands }
  | call {α β : Type} {t : Traffic ε} {before after : List (Strand ε)} {call : Call ε β}
      {next : β → Routine ε α} {answer : β} {s' : Store}
      (turn : t.strands = before ++ ⟨.ask call next⟩ :: after)
      (answered : call.Answered t.store answer s') :
      Step enters t ⟨s', t.log ++ (Event.batch? (.own ⟨call, answer⟩)).toList,
        before ++ ⟨next answer⟩ :: after⟩
  | reach {t : Traffic ε} (value : Bool) :
      Step enters t { t with store := { t.store with available := value } }

/-- The traffic that comes about on a store that is empty at first. -/
inductive Reachable (enters : Strand ε → Prop) : Traffic ε → Prop
  | start : Reachable enters ⟨.empty, [], []⟩
  | step {t t' : Traffic ε} (h : Reachable enters t) (hstep : Step enters t t') :
      Reachable enters t'

variable {enters : Strand ε → Prop} {t t' : Traffic ε}

/-- The log is the history of the store. -/
theorem Reachable.commits (h : Reachable enters t) : Store.empty.Commits t.log t.store := by
  induction h with
  | start => exact .none _
  | step h hstep ih =>
    cases hstep with
    | enter allowed => exact ih
    | call turn answered => exact ih.append answered.commits
    | reach value =>
      have hreach := ih.append (.reach value (.none _))
      rw [List.append_nil] at hreach
      exact hreach

/-- A routine may run with no other writer in between. -/
theorem Reachable.run {s s' : Store} {r r' : Routine ε α} {trace : List (Event ε)}
    {log : List (List Write)} {others : List (Strand ε)} (hrun : Routine.Runs s r trace s' r')
    (halone : trace.filterMap Event.others? = []) (h : Reachable enters ⟨s, log, ⟨r⟩ :: others⟩) :
    Reachable enters ⟨s', log ++ trace.filterMap Event.batch?, ⟨r'⟩ :: others⟩ := by
  induction hrun generalizing log with
  | stop s r =>
    rw [List.filterMap_nil, List.append_nil]
    exact h
  | @own _ call answer next s s₁ s' trace r' answered rest ih =>
    have hstep : Step enters ⟨s, log, [] ++ ⟨.ask call next⟩ :: others⟩
        ⟨s₁, log ++ (Event.batch? (.own ⟨call, answer⟩)).toList, [] ++ ⟨next answer⟩ :: others⟩ :=
      .call rfl answered
    have hnext := ih halone (h.step hstep)
    rw [List.append_assoc] at hnext
    have hlog : (Event.batch? (.own ⟨call, answer⟩)).toList ++ trace.filterMap Event.batch? =
        (Event.own ⟨call, answer⟩ :: trace).filterMap Event.batch? := by
      rw [List.filterMap_cons]
      cases Event.batch? (.own ⟨call, answer⟩) with
      | none => rfl
      | some batch => rfl
    rw [← hlog]
    exact hnext
  | other accepted rest ih => cases halone
  | @reach value _ _ _ _ _ rest ih => exact ih halone (h.step (.reach value))

/-! ## Rows that routines were told of -/

/-- A table with a history has held the row. -/
structure Held (log : List (List Write)) (jobs : JobTable) (row : Job) : Prop where
  named : row.id ∈ log.flatten.flatMap Write.inserted
  reached : jobs.HasReached row

theorem Reachable.held (h : Reachable enters t) {id : JobId} {row : Job}
    (hrow : t.store.jobs.find? id = some row) : Held t.log t.store.jobs row := by
  refine ⟨?_, JobTable.hasReached_of_find? hrow⟩
  obtain rfl := JobTable.id_of_find? hrow
  exact h.commits.named hrow

/-- A name of the history is not inserted again. -/
theorem Held.not_inserted {log more : List (List Write)} {jobs : JobTable} {row : Job}
    (h : Held log jobs row) (honce : Store.empty.InsertsOnce (log ++ more)) :
    ∀ w ∈ more.flatten, row.id ∉ w.inserted :=
  honce.not_inserted h.named

theorem Held.of_commits {log more : List (List Write)} {s s' : Store} {row : Job}
    (h : Held log s.jobs row) (hcommits : s.Commits more s')
    (honce : Store.empty.InsertsOnce (log ++ more)) : Held (log ++ more) s'.jobs row := by
  constructor
  · rw [List.flatten_append, List.flatMap_append]
    exact List.mem_append_left _ h.named
  · obtain ⟨rows, hws⟩ := hcommits.writeAll
    exact h.reached.writeAll hws (h.not_inserted honce)

/-- The rows that a routine is told of are rows that the store has held. -/
theorem Reachable.held_of_mem_rows (h : Reachable enters t) {call : Call ε β} {answer : β}
    {s' : Store} (answered : call.Answered t.store answer s') :
    ∀ row ∈ Exchange.rows ⟨call, answer⟩, Held t.log t.store.jobs row := by
  intro row hmem
  cases call with
  | store call =>
    cases call with
    | get id =>
      match answer, answered, hmem with
      | .ok (some found), answered, hmem =>
        obtain rfl := List.mem_singleton.1 hmem
        exact h.held answered.find?
    | _ => cases hmem
  | _ => cases hmem

/-! ## Disciplined traffic -/

variable {P : List Job → Write → Prop}

/-- A routine that is under way has been told only of rows that the store has held, and goes on to
obey the discipline. -/
def Follows (P : List Job → Write → Prop) (log : List (List Write)) (jobs : JobTable)
    (strand : Strand ε) : Prop :=
  ∃ known, (∀ row ∈ known, Held log jobs row) ∧ strand.routine.Obeys (.ofWrites P) known

theorem Follows.of_commits {log more : List (List Write)} {s s' : Store} {strand : Strand ε}
    (h : Follows P log s.jobs strand) (hcommits : s.Commits more s')
    (honce : Store.empty.InsertsOnce (log ++ more)) : Follows P (log ++ more) s'.jobs strand := by
  obtain ⟨known, hknown, hobeys⟩ := h
  exact ⟨known, fun row hmem => (hknown row hmem).of_commits hcommits honce, hobeys⟩

/-- A disciplined routine goes on to be disciplined after each of its calls. -/
theorem Reachable.follows_next (h : Reachable enters t) {call : Call ε β} {next : β → Routine ε α}
    {answer : β} {s' : Store} (hfollows : Follows P t.log t.store.jobs ⟨.ask call next⟩)
    (answered : call.Answered t.store answer s')
    (honce : Store.empty.InsertsOnce
      (t.log ++ (Event.batch? (.own ⟨call, answer⟩)).toList)) :
    Follows P (t.log ++ (Event.batch? (.own ⟨call, answer⟩)).toList) s'.jobs ⟨next answer⟩ := by
  obtain ⟨known, hknown, hobeys⟩ := hfollows
  cases hobeys with
  | ask allowed rest =>
    refine ⟨_, ?_, rest answer answered.truthful⟩
    intro row hmem
    have hheld : Held t.log t.store.jobs row := by
      rcases List.mem_append.1 hmem with hmem | hmem
      · exact hknown row hmem
      · exact h.held_of_mem_rows answered row hmem
    exact hheld.of_commits answered.commits honce

theorem Reachable.follows
    (henters : ∀ strand, enters strand → strand.routine.Obeys (.ofWrites P) [])
    (h : Reachable enters t) (honce : Store.empty.InsertsOnce t.log) :
    ∀ strand ∈ t.strands, Follows P t.log t.store.jobs strand := by
  induction h with
  | start => exact List.forall_mem_nil _
  | @step t t' h hstep ih =>
    cases hstep with
    | @enter _ strand allowed =>
      have hstrand : Follows P t.log t.store.jobs strand :=
        ⟨[], List.forall_mem_nil _, henters strand allowed⟩
      exact List.forall_mem_cons.2 ⟨hstrand, ih honce⟩
    | call turn answered =>
      have hprevious := ih honce.of_append
      rw [turn, List.forall_mem_append, List.forall_mem_cons] at hprevious
      obtain ⟨hbefore, hstrand, hafter⟩ := hprevious
      -- The others stand still, and what they were told stays true of the history.
      have hothers : ∀ strand : Strand ε, Follows P t.log t.store.jobs strand →
          Follows P _ _ strand :=
        fun strand hfollows => hfollows.of_commits answered.commits honce
      refine List.forall_mem_append.2 ⟨?_, List.forall_mem_cons.2 ⟨?_, ?_⟩⟩
      · exact fun strand hmem => hothers strand (hbefore strand hmem)
      · exact h.follows_next hstrand answered honce
      · exact fun strand hmem => hothers strand (hafter strand hmem)
    | reach value => exact ih honce

/-! ## What each write preserves -/

/-- What is preserved by each write that the discipline allows, on a table that has held the rows
which the writer was told of, is preserved by a batch of such writes. -/
theorem induction_on_batch {I : JobTable → List Write → Prop} {known : List Job}
    (hwrite : ∀ jobs jobs' log w left, I jobs log → jobs.write w = .ok (jobs', left) →
      (∀ row ∈ known, jobs.HasReached row) → P known w → I jobs' (log ++ [w]))
    {jobs jobs' : JobTable} {log ws : List Write} {rows : List Job} (hI : I jobs log)
    (hws : jobs.writeAll ws = .ok (jobs', rows)) (hreached : ∀ row ∈ known, jobs.HasReached row)
    (hins : ∀ row ∈ known, ∀ w ∈ ws, row.id ∉ w.inserted) (hP : ∀ w ∈ ws, P known w) :
    I jobs' (log ++ ws) := by
  induction ws generalizing jobs log rows with
  | nil =>
    cases hws
    rw [List.append_nil]
    exact hI
  | cons w ws ih =>
    obtain ⟨jobs₁, left, rest, hone, hrest, -⟩ := JobTable.writeAll_cons_eq_ok_iff.1 hws
    obtain ⟨hPw, hPws⟩ := List.forall_mem_cons.1 hP
    have hhead := hwrite jobs jobs₁ log w left hI hone hreached hPw
    rw [List.append_cons]
    refine ih hhead hrest ?_ ?_ hPws
    · intro row hmem
      exact (hreached row hmem).write hone (hins row hmem w List.mem_cons_self)
    · intro row hmem v hv
      exact hins row hmem v (List.mem_cons_of_mem _ hv)

/-- What is preserved by each write that the discipline allows, on a table that has held the rows
which the writer was told of, holds at all times. -/
theorem Reachable.induction_on_writes {I : JobTable → List Write → Prop}
    (henters : ∀ strand, enters strand → strand.routine.Obeys (.ofWrites P) [])
    (hstart : I .empty [])
    (hwrite : ∀ known jobs jobs' log w left, I jobs log → jobs.write w = .ok (jobs', left) →
      (∀ row ∈ known, jobs.HasReached row) → P known w → I jobs' (log ++ [w]))
    (h : Reachable enters t) (honce : Store.empty.InsertsOnce t.log) :
    I t.store.jobs t.log.flatten := by
  induction h with
  | start => exact hstart
  | @step t t' h hstep ih =>
    cases hstep with
    | enter allowed => exact ih honce
    | @call _ _ _ before after call next answer s' turn answered =>
      have hI := ih honce.of_append
      obtain ⟨rows, hws⟩ := answered.commits.writeAll
      have hmem : ⟨.ask call next⟩ ∈ t.strands := by
        rw [turn]
        exact List.mem_append_right _ List.mem_cons_self
      obtain ⟨known, hknown, hobeys⟩ := h.follows henters honce.of_append _ hmem
      rw [List.flatten_append]
      refine induction_on_batch (hwrite known) hI hws ?_ ?_ ?_
      · exact fun row hrow => (hknown row hrow).reached
      · exact fun row hrow => (hknown row hrow).not_inserted honce
      · cases hobeys with
        | ask allowed rest => exact Discipline.allows_batch allowed answer
    | reach value => exact ih honce

end Traffic

end DeferredWork

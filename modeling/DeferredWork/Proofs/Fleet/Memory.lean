import Mathlib.Data.List.Nodup
import DeferredWork.Proofs.Cluster.Locks
import DeferredWork.Proofs.Fleet.Conduct

set_option autoImplicit false

/-!
# What a fleet remembers

If no name is inserted twice, a row that a task was told of pins its name for good: the store holds
that very row, or has gone past it.  If moreover all tasks that have made calls are orderly, then the
scope in which a job runs exclusively is that with which the job was stored first, in the store and
in every row that a task was told of (`Fleet.Reachable.remembers`).
-/

namespace DeferredWork

/-! ## How jobs were stored first -/

/-- The job that a write stores under a new name. -/
def Write.newcomer? : Write → Option Job
  | .insert job => some job
  | _ => none

theorem Write.inserted_eq (w : Write) : w.inserted = w.newcomer?.toList.map Job.id := by
  cases w <;> rfl

namespace Store

variable {s : Store} {scopesFixed : Prop}

/-- The jobs as they were stored first: from the beginning, or by one of these writes. -/
def births (s : Store) (ws : List Write) : List Job := s.jobs.rows ++ ws.filterMap Write.newcomer?

theorem births_append (s : Store) (ws more : List Write) :
    s.births (ws ++ more) = s.births ws ++ more.filterMap Write.newcomer? := by
  rw [births, List.filterMap_append, ← List.append_assoc, births]

theorem map_id_births (s : Store) (ws : List Write) :
    (s.births ws).map Job.id = s.jobs.rows.map Job.id ++ ws.flatMap Write.inserted := by
  rw [births, List.map_append]
  congr 1
  induction ws with
  | nil => rfl
  | cons w ws ih =>
    rw [List.filterMap_cons, List.flatMap_cons, ← ih, Write.inserted_eq]
    cases w.newcomer? with
    | none => rfl
    | some job => rfl

/-- The row goes back to a job that was stored, and if scopes are fixed it has the scope of that. -/
def Bears (s : Store) (ws : List Write) (scopesFixed : Prop) (row : Job) : Prop :=
  ∃ birth ∈ s.births ws, birth.id = row.id ∧
    (scopesFixed → row.exclusivityScope = birth.exclusivityScope)

theorem Bears.append {ws : List Write} {row : Job} (h : s.Bears ws scopesFixed row)
    (more : List Write) : s.Bears (ws ++ more) scopesFixed row := by
  obtain ⟨birth, hmem, hbirth⟩ := h
  refine ⟨birth, ?_, hbirth⟩
  rw [births_append]
  exact List.mem_append_left _ hmem

theorem bears_of_mem {row : Job} (h : row ∈ s.jobs.rows) : s.Bears [] scopesFixed row :=
  ⟨row, List.mem_append_left _ h, rfl, fun _ => rfl⟩

/-- A name that was stored once is not inserted again. -/
theorem Bears.not_inserted {log more : List (List Write)} {row : Job}
    (h : s.Bears log.flatten scopesFixed row) (honce : s.InsertsOnce (log ++ more)) :
    ∀ w ∈ more.flatten, row.id ∉ w.inserted := by
  obtain ⟨birth, hmem, hname, -⟩ := h
  refine honce.not_inserted ?_
  rw [← map_id_births, ← hname]
  exact List.mem_map_of_mem hmem

/-- No two jobs are stored first under one name. -/
theorem InsertsOnce.birth_eq {log : List (List Write)} (honce : s.InsertsOnce log) {birth birth' : Job}
    (hmem : birth ∈ s.births log.flatten) (hmem' : birth' ∈ s.births log.flatten)
    (hname : birth.id = birth'.id) : birth = birth' := by
  have hnodup : ((s.births log.flatten).map Job.id).Nodup := by
    rw [map_id_births]
    exact honce
  exact List.inj_on_of_nodup_map hnodup hmem hmem' hname

/-- A newcomer has a new name. -/
theorem InsertsOnce.newcomer_ne {log : List (List Write)} {ws : List Write}
    (honce : s.InsertsOnce (log ++ [ws])) {birth newcomer : Job} (hbirth : birth ∈ s.births log.flatten)
    (hnew : newcomer ∈ ws.filterMap Write.newcomer?) : newcomer.id ≠ birth.id := by
  have hnodup : ((s.births (log ++ [ws]).flatten).map Job.id).Nodup := by
    rw [map_id_births]
    exact honce
  rw [List.flatten_append, List.flatten_singleton, births_append, List.map_append] at hnodup
  exact fun hname => (List.nodup_append.1 hnodup).2.2 _ (List.mem_map_of_mem hbirth) _
    (List.mem_map_of_mem hnew) hname.symm

/-- Rows of one name have one scope. -/
theorem Bears.scope_eq {log : List (List Write)} {row row' : Job}
    (h : s.Bears log.flatten scopesFixed row) (h' : s.Bears log.flatten scopesFixed row')
    (honce : s.InsertsOnce log) (hfixed : scopesFixed) (hname : row.id = row'.id) :
    row.exclusivityScope = row'.exclusivityScope := by
  obtain ⟨birth, hmem, hbirth, hscope⟩ := h
  obtain ⟨birth', hmem', hbirth', hscope'⟩ := h'
  have heq : birth = birth' := honce.birth_eq hmem hmem' (hbirth.trans (hname.trans hbirth'.symm))
  rw [hscope hfixed, hscope' hfixed, heq]

variable {charge : Option Charge} {known : List Job}

/-- A lock or a fair write leaves rows that go back to jobs that were stored. -/
theorem bears_write {t t' : JobTable} {ws : List Write} {w : Write} {left : Option Job}
    (hstored : ∀ row ∈ t.rows, s.Bears ws scopesFixed row) (hw : t.write w = .ok (t', left))
    (hknown : ∀ row ∈ known, s.Bears ws scopesFixed row)
    (hfair : w.lockTime?.isSome = true ∨ w.IsFair (.lenient scopesFixed) charge known) :
    ∀ row ∈ t'.rows, s.Bears (ws ++ [w]) scopesFixed row := by
  obtain ⟨c, hc, rfl, -⟩ := JobTable.write_eq_ok_iff.1 hw
  have hput : ∀ {new : Job}, s.Bears (ws ++ [w]) scopesFixed new →
      ∀ row ∈ (t.put new).rows, s.Bears (ws ++ [w]) scopesFixed row := by
    intro new hnew row hrow
    rcases JobTable.mem_put.1 hrow with rfl | ⟨hmem, -⟩
    · exact hnew
    · exact (hstored row hmem).append [w]
  cases hc with
  | @insert job free =>
    refine hput ⟨job, ?_, rfl, fun _ => rfl⟩
    rw [births_append]
    exact List.mem_append_right _ (List.mem_singleton_self job)
  | @update job before expected found met =>
    rcases hfair with hlock | ⟨row, hmem, hname, -, hfair⟩
    · cases hlock
    · obtain ⟨birth, hbirth, hbirthName, hscope⟩ := (hknown row hmem).append [.update job expected]
      exact hput ⟨birth, hbirth, hbirthName.trans hname,
        fun hfixed => (hfair.scope hfixed).trans (hscope hfixed)⟩
  | @lock id before owner expiry now found unlocked alone =>
    obtain ⟨birth, hbirth, hname, hscope⟩ :=
      (hstored before (JobTable.mem_of_find? found)).append [.lock id before.revision owner expiry now]
    exact hput ⟨birth, hbirth, hname, hscope⟩
  | delete found met =>
    intro row hrow
    exact (hstored row (JobTable.mem_erase.1 hrow).1).append _
  | raise => exact fun row hrow => (hstored row hrow).append _
  | resolve => exact fun row hrow => (hstored row hrow).append _

theorem bears_writeAll {t t' : JobTable} {ws more : List Write} {rows : List Job}
    (hstored : ∀ row ∈ t.rows, s.Bears ws scopesFixed row) (hws : t.writeAll more = .ok (t', rows))
    (hknown : ∀ row ∈ known, s.Bears ws scopesFixed row)
    (hfair : ∀ w ∈ more, w.lockTime?.isSome = true ∨ w.IsFair (.lenient scopesFixed) charge known) :
    ∀ row ∈ t'.rows, s.Bears (ws ++ more) scopesFixed row := by
  induction more generalizing t ws rows with
  | nil =>
    cases hws
    rw [List.append_nil]
    exact hstored
  | cons w more ih =>
    obtain ⟨t₁, left, rest, hw, hrest, -⟩ := JobTable.writeAll_cons_eq_ok_iff.1 hws
    obtain ⟨hhead, htail⟩ := List.forall_mem_cons.1 hfair
    rw [List.append_cons]
    exact ih (bears_write hstored hw hknown hhead) hrest
      (fun row hrow => (hknown row hrow).append [w]) htail

/-- A row of which a task was told: the store holds it or has gone past it, and it goes back to a
job that was stored. -/
structure Recalls (s : Store) (log : List (List Write)) (jobs : JobTable) (scopesFixed : Prop)
    (row : Job) : Prop where
  reached : jobs.HasReached row
  born : s.Bears log.flatten scopesFixed row

theorem Recalls.of_commits {log more : List (List Write)} {s₁ s₂ : Store} {row : Job}
    (h : s.Recalls log s₁.jobs scopesFixed row) (hcommits : s₁.Commits more s₂)
    (honce : s.InsertsOnce (log ++ more)) : s.Recalls (log ++ more) s₂.jobs scopesFixed row := by
  constructor
  · obtain ⟨rows, hws⟩ := hcommits.writeAll
    exact h.reached.writeAll hws (h.born.not_inserted honce)
  · rw [List.flatten_append]
    exact h.born.append _

/-- A row that the store once held, and that it holds after some batches, it held before them, and
they did not touch it. -/
theorem Recalls.still_of_still {log more : List (List Write)} {s₁ s₂ : Store} {row : Job}
    (h : s.Recalls log s₁.jobs scopesFixed row)
    (hcommits : s₁.Commits more s₂) (honce : s.InsertsOnce (log ++ more))
    (hstill : s₂.jobs.find? row.id = some row) :
    s₁.jobs.find? row.id = some row ∧ ∀ w ∈ more.flatten, w.touches row.id = false := by
  obtain ⟨rows, hws⟩ := hcommits.writeAll
  have hnot : ∀ w ∈ more.flatten, w.touches row.id = false := by
    intro w hw
    by_contra htouch
    rw [Bool.not_eq_false] at htouch
    have hpast := h.reached.isPast_of_writeAll hws (h.born.not_inserted honce) ⟨w, hw, htouch⟩
    exact Nat.lt_irrefl _ (hpast row hstill)
  rw [JobTable.find?_writeAll_of_not_touches hws hnot] at hstill
  exact ⟨hstill, hnot⟩

end Store

/-! ## Fleets -/

variable {ι : Type} {ε : Type → Type} {β : Type} {engine : ι → Engine ε}

/-- The row with which a task begins. -/
def Task.rows : Task ι ε → List Job
  | .run _ d => [d.job]
  | _ => []

/-- The rows that a task was told of. -/
def Thread.known (thread : Thread engine) : List Job :=
  thread.task.rows ++ thread.talk.flatMap Exchange.told

theorem Thread.known_goOn (thread : Thread engine) {call : Call ε β}
    {next : β → Routine ε thread.task.Result} (asks : thread.rest = .ask call next) (answer : β) :
    (thread.goOn asks answer).known = thread.known ++ Exchange.told ⟨call, answer⟩ := by
  rw [known, known, goOn, List.flatMap_append, List.flatMap_singleton, List.append_assoc]

/-- The rows that the store tells are rows that it has. -/
theorem Call.Answered.mem_rows {s s' : Store} {call : Call ε β} {answer : β}
    (h : call.Answered s answer s') {row : Job} (hrow : row ∈ Exchange.told ⟨call, answer⟩) :
    row ∈ s.jobs.rows ∧ s' = s := by
  cases call with
  | store call =>
    cases call with
    | get id =>
      cases answer with
      | ok stored =>
        cases stored with
        | none => cases hrow
        | some found =>
          obtain rfl := List.mem_singleton.1 hrow
          refine ⟨JobTable.mem_of_find? h.find?, ?_⟩
          rw [Answered, Store.respond_get] at h
          exact (congrArg Prod.snd h).symm
      | error failure => cases hrow
    | findDue now limit =>
      cases answer with
      | error failure => cases hrow
      | ok rows =>
        rw [Answered, Store.respond_findDue] at h
        have hanswer := congrArg Prod.fst h
        refine ⟨?_, (congrArg Prod.snd h).symm⟩
        rw [Store.findDue_eq] at hanswer
        unfold Store.answer at hanswer
        split at hanswer
        · obtain rfl := Except.ok.inj hanswer
          have hsorted := List.mem_of_mem_take hrow
          exact (List.mem_filter.1 (List.mem_mergeSort.1 hsorted)).1
        · cases hanswer
    | apply ws => cases hrow
  | _ => cases hrow

namespace Fleet

variable {s : Store} {f : Fleet engine} {scopesFixed : Prop}

/-- All tasks that have made calls are orderly. -/
def IsOrderly (f : Fleet engine) (scopesFixed : Prop) : Prop :=
  ∀ turn ∈ f.history, turn.task.IsOrderly engine scopesFixed

/-- The rows of the store and those that tasks were told of go back to jobs that were stored. -/
structure Remembers (s : Store) (f : Fleet engine) (scopesFixed : Prop) : Prop where
  stored : ∀ row ∈ f.store.jobs.rows, s.Bears f.log.flatten scopesFixed row
  known : ∀ p thread, f.threads p = some thread → ∀ row ∈ thread.known,
    s.Recalls f.log f.store.jobs scopesFixed row

theorem Remembers.recalls_stored (h : f.Remembers s scopesFixed) {row : Job}
    (hrow : row ∈ f.store.jobs.rows) : s.Recalls f.log f.store.jobs scopesFixed row :=
  ⟨JobTable.hasReached_of_find? (JobTable.find?_eq_some_of_mem hrow), h.stored row hrow⟩

variable [DecidableEq ι]

omit [DecidableEq ι] in
/-- A task that enters has been told of nothing. -/
theorem rows_eq_nil {place : Place ι} {task : Task ι ε} (suits : place.Suits task)
    (vacant : f.isVacant place = true) : task.rows = [] := by
  cases task with
  | run seat d =>
    cases place with
    | worker number => cases vacant
    | _ => cases suits
  | _ => rfl

omit [DecidableEq ι] in
/-- The writes that are accepted from an orderly task are locks, or fair. -/
theorem lock_or_isFair_of_allowed {task : Task ι ε} {talk : List (Exchange (Call ε))}
    {call : Call ε β} (h : (task.conduct engine scopesFixed).rules.allows talk call) (answer : β) :
    ∀ w ∈ (Event.batch? (.own ⟨call, answer⟩)).toList.flatten, w.lockTime?.isSome = true ∨
      w.IsFair (.lenient scopesFixed) (task.charge engine talk) (talk.flatMap Exchange.told) := by
  cases call with
  | store call =>
    cases call with
    | apply ws =>
      cases answer with
      | ok rows =>
        change ∀ w ∈ [ws].flatten, _
        rw [List.flatten_singleton]
        rcases Task.takesLock_or_isFair h with hlock | hfair
        · cases hlock
          exact List.forall_mem_singleton.2 (.inl rfl)
        · exact fun w hw => .inr (hfair w hw)
      | error fault => exact List.forall_mem_nil _
    | _ => exact List.forall_mem_nil _
  | _ => exact List.forall_mem_nil _

/-- What an orderly task hands in leaves rows that go back to jobs that were stored. -/
theorem Reachable.stored_of_replies (h : Reachable s f) (hremembers : f.Remembers s scopesFixed)
    {place : Place ι} {thread : Thread engine} {call : Call ε β}
    {next : β → Routine ε thread.task.Result} {answer : β} {s' : Store}
    (here : f.threads place = some thread) (asks : thread.rest = .ask call next)
    (replies : f.Replies thread.task.seat? call answer s')
    (horderly : thread.task.IsOrderly engine scopesFixed) :
    ∀ row ∈ s'.jobs.rows,
      s.Bears (f.log ++ (Event.batch? (.own ⟨call, answer⟩)).toList).flatten scopesFixed row := by
  rw [List.flatten_append]
  obtain ⟨rows, hws⟩ := replies.answered.commits.writeAll
  refine Store.bears_writeAll hremembers.stored hws ?_
    (lock_or_isFair_of_allowed (h.allowed here horderly asks) answer)
  intro row hrow
  exact (hremembers.known place thread here row (List.mem_append_right _ hrow)).born

/-- If no name is inserted twice and all that is done is orderly, the rows of the store and those
that tasks were told of go back to jobs that were stored. -/
theorem Reachable.remembers (h : Reachable s f) (honce : s.InsertsOnce f.log)
    (horderly : f.IsOrderly scopesFixed) : f.Remembers s scopesFixed := by
  induction h with
  | start =>
    refine ⟨fun row hrow => Store.bears_of_mem hrow, fun p thread hp => ?_⟩
    cases hp
  | @step f f' h hstep ih =>
    cases hstep with
    | @enter place task suits vacant =>
      have hbefore := ih honce horderly
      refine ⟨hbefore.stored, fun p thread hp row hrow => ?_⟩
      rw [threads_enter] at hp
      split at hp
      · cases hp
        rw [Thread.known, Thread.start, rows_eq_nil suits vacant] at hrow
        cases hrow
      · exact hbefore.known p thread hp row hrow
    | @turn place thread _ call next answer s' here asks replies =>
      rw [log_advance] at honce
      have hbefore := ih honce.of_append fun turn hturn =>
        horderly turn (List.mem_append_left _ hturn)
      have hthread : thread.task.IsOrderly engine scopesFixed :=
        horderly _ (List.mem_append_right _ (List.mem_singleton_self _))
      -- What was known before the call is known after it.
      have hafter : ∀ row, s.Recalls f.log f.store.jobs scopesFixed row →
          s.Recalls (f.log ++ (Event.batch? (.own ⟨call, answer⟩)).toList) s'.jobs scopesFixed row :=
        fun row hrow => hrow.of_commits replies.answered.commits honce
      constructor
      · rw [log_advance]
        exact h.stored_of_replies hbefore here asks replies hthread
      · intro p found hp row hrow
        rw [log_advance]
        refine hafter row ?_
        rcases threads_advance f _ _ s' hp with ⟨seat, d, hacc, rfl, rfl⟩ | ⟨rfl, rfl⟩ | ⟨-, hp⟩
        · obtain ⟨batch, htask, hexchange⟩ := Turn.accepted?_eq_some_iff.1 hacc
          cases hexchange
          obtain rfl : row = d.job := List.mem_singleton.1 hrow
          refine hbefore.known _ thread here d.job (List.mem_append_right _ ?_)
          exact (h.dispatches here htask asks).mem_told
        · rw [Thread.known_goOn] at hrow
          rcases List.mem_append.1 hrow with hrow | hrow
          · exact hbefore.known _ thread here row hrow
          · exact hbefore.recalls_stored (replies.answered.mem_rows hrow).1
        · exact hbefore.known p found hp row hrow
    | reach value =>
      have hbefore := ih honce horderly
      exact ⟨hbefore.stored, hbefore.known⟩

/-- What holds at the beginning, and is kept when a task enters, with each call of an orderly task
and when the store goes out of reach or comes back, holds of the fleet. -/
theorem Reachable.induction_on_turns {I : Fleet engine → Prop} (hstart : I (.start engine s))
    (henter : ∀ {f : Fleet engine} {place : Place ι} {task : Task ι ε}, place.Suits task →
      f.isVacant place = true → I f → I (f.enter place task))
    (hturn : ∀ {f : Fleet engine} {place : Place ι} {thread : Thread engine} {β : Type}
      {call : Call ε β} {next : β → Routine ε thread.task.Result} {answer : β} {s' : Store},
      Reachable s f → f.IsOrderly scopesFixed → f.Remembers s scopesFixed →
      f.threads place = some thread → ∀ asks : thread.rest = .ask call next,
      f.Replies thread.task.seat? call answer s' → thread.task.IsOrderly engine scopesFixed →
      s.InsertsOnce (f.log ++ (Event.batch? (.own ⟨call, answer⟩)).toList) → I f →
      I (f.advance ⟨place, thread.task, ⟨call, answer⟩⟩ (thread.goOn asks answer) s'))
    (hreach : ∀ {f : Fleet engine} (value : Bool), I f →
      I { f with store := { f.store with available := value } })
    (h : Reachable s f) (honce : s.InsertsOnce f.log) (horderly : f.IsOrderly scopesFixed) :
    I f := by
  induction h with
  | start => exact hstart
  | @step f f' h hstep ih =>
    cases hstep with
    | enter suits vacant => exact henter suits vacant (ih honce horderly)
    | @turn place thread _ call next answer s' here asks replies =>
      rw [log_advance] at honce
      obtain ⟨hold, hthread⟩ := List.forall_mem_append.1 horderly
      exact hturn h hold (h.remembers honce.of_append hold) here asks replies
        (hthread _ (List.mem_singleton_self _)) honce (ih honce.of_append hold)
    | reach value => exact hreach value (ih honce horderly)

end Fleet

end DeferredWork

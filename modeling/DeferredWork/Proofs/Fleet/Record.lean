import DeferredWork.Proofs.Fleet.Memory
import DeferredWork.Proofs.Store.Polling
import DeferredWork.Proofs.Store.Rows

set_option autoImplicit false

/-!
# The record of a fleet

What tasks were told is on the record of the fleet, in the order in which they were told
(`Fleet.Reachable.talk_sublist`), and a worker has said all that is on the record for its place
(`Fleet.Reachable.talk_of_worker`).  A row that is on the record pins its name if no name is
inserted twice, whatever the tasks are (`Fleet.Reachable.pins`); so a batch that relies on the
revision of such a row is accepted only if the store holds that very row (`Store.Pins.find?_of_writeAll`).
Jobs that were polled could be acquired at the time of the poll (`Fleet.Reachable.acquirable`).
-/

namespace DeferredWork

/-! ## Pins -/

namespace Store

/-- The table has held a row, of a name that the store had from the beginning or that was inserted
since. -/
structure Pins (s : Store) (log : List (List Write)) (jobs : JobTable) (row : Job) : Prop where
  reached : jobs.HasReached row
  named : row.id ∈ s.jobs.rows.map Job.id ++ log.flatten.flatMap Write.inserted

variable {s s₁ s₂ : Store} {log more : List (List Write)} {row : Job}

theorem Pins.of_commits (h : s.Pins log s₁.jobs row) (hcommits : s₁.Commits more s₂)
    (honce : s.InsertsOnce (log ++ more)) : s.Pins (log ++ more) s₂.jobs row := by
  obtain ⟨rows, hws⟩ := hcommits.writeAll
  refine ⟨h.reached.writeAll hws (honce.not_inserted h.named), ?_⟩
  rw [List.flatten_append, List.flatMap_append, ← List.append_assoc]
  exact List.mem_append_left _ h.named

theorem Commits.pins (h : s.Commits log s₁) (hrow : row ∈ s₁.jobs.rows) :
    s.Pins log s₁.jobs row :=
  have hfind := JobTable.find?_eq_some_of_mem hrow
  ⟨JobTable.hasReached_of_find? hfind, h.named hfind⟩

/-- A pinned name is not inserted by a later batch. -/
theorem Pins.not_inserted {ws : List Write} (h : s.Pins log s₁.jobs row)
    (honce : s.InsertsOnce (log ++ [ws])) : ∀ w ∈ ws, row.id ∉ w.inserted := by
  have hnot := honce.not_inserted h.named
  rwa [List.flatten_singleton] at hnot

/-- A batch that relies on the revision of a pinned row is accepted only if the row is stored. -/
theorem Pins.find?_of_writeAll {ws : List Write} {rows : List Job} {t : JobTable}
    (h : s.Pins log s₁.jobs row) (hws : s₁.jobs.writeAll ws = .ok (t, rows))
    (honce : s.InsertsOnce (log ++ [ws])) (hrelies : ∃ w ∈ ws, w.ReliesOn row.id row.revision) :
    s₁.jobs.find? row.id = some row :=
  h.reached.find?_of_reliesOn hws (h.not_inserted honce) hrelies

end Store

/-! ## What was polled -/

theorem Job.suspended_of_isAcquirable {job : Job} {now : Instant} (h : job.isAcquirable now = true) :
    job.suspended = false := by
  simp only [isAcquirable, Bool.and_eq_true, Bool.not_eq_true'] at h
  exact h.1.1.2

theorem Call.Answered.acquirable {ε : Type → Type} {s s' : Store} {now : Instant} {limit : Nat}
    {rows : List Job}
    (h : (Call.store (ε := ε) (.findDue now limit)).Answered s (.ok rows) s') {row : Job}
    (hrow : row ∈ rows) : row.isAcquirable now = true := by
  rw [Answered, Store.respond_findDue] at h
  have hanswer := congrArg Prod.fst h
  cases hdue : s.findDue now limit with
  | ok due =>
    rw [hdue] at hanswer
    obtain rfl := Except.ok.inj hanswer
    exact (Store.Offers.acquirable ⟨due, hdue, hrow⟩).2
  | error e =>
    rw [hdue] at hanswer
    cases hanswer

/-- The time that the clock showed. -/
def Exchange.reading? {ε : Type → Type} : Exchange (Call ε) → Option Instant
  | ⟨.clock, now⟩ => some now
  | _ => none

namespace Fleet

variable {ι : Type} {ε : Type → Type} {β : Type} {engine : ι → Engine ε} [DecidableEq ι] {s : Store}
  {f : Fleet engine}

/-- Jobs that were polled could be acquired at the time of the poll. -/
theorem Reachable.acquirable (h : Reachable s f) {p : Place ι} {task : Task ι ε} {now : Instant}
    {limit : Nat} {rows : List Job}
    (hpoll : ⟨p, task, ⟨.store (.findDue now limit), .ok rows⟩⟩ ∈ f.history) {row : Job}
    (hrow : row ∈ rows) : row.isAcquirable now = true := by
  obtain ⟨before, after, hhistory⟩ := List.append_of_mem hpoll
  obtain ⟨g, s', hg, -, htakes⟩ := h.cut hhistory
  cases htakes with
  | mk here asks replies => exact replies.answered.acquirable hrow

/-! ## What was told -/

/-- A row that was told, whoever it was told to, pins its name. -/
theorem Reachable.pins_of_history (h : Reachable s f) (honce : s.InsertsOnce f.log) :
    ∀ turn ∈ f.history, ∀ row ∈ turn.exchange.told, s.Pins f.log f.store.jobs row := by
  induction h with
  | start => exact List.forall_mem_nil _
  | @step f f' h hstep ih =>
    cases hstep with
    | enter suits vacant => exact ih honce
    | @turn place thread _ call next answer s' here asks replies =>
      rw [log_advance] at honce ⊢
      have hcommits := replies.answered.commits
      refine List.forall_mem_append.2 ⟨fun turn hturn row hrow => ?_,
        List.forall_mem_singleton.2 fun row hrow => ?_⟩
      · exact (ih honce.of_append turn hturn row hrow).of_commits hcommits honce
      · have hstored := (replies.answered.mem_rows hrow).1
        exact (h.commits.pins hstored).of_commits hcommits honce
    | reach value => exact ih honce

/-- The rows that a task knows are on the record. -/
theorem Reachable.known_told (h : Reachable s f) {p : Place ι} {thread : Thread engine}
    (hp : f.threads p = some thread) :
    ∀ row ∈ thread.known, ∃ turn ∈ f.history, row ∈ turn.exchange.told := by
  refine h.induction_on_threads
    (P := fun _ history _ thread => ∀ row ∈ thread.known, ∃ turn ∈ history,
      row ∈ turn.exchange.told) ?_ ?_ ?_ ?_ p thread hp
  · intro f place task _ suits vacant row hrow
    rw [Thread.known, Thread.start, rows_eq_nil suits vacant] at hrow
    cases hrow
  · intro f place thread β call next answer s' _ _ asks _ ih row hrow
    rw [Thread.known_goOn] at hrow
    rcases List.mem_append.1 hrow with hrow | hrow
    · obtain ⟨turn, hturn, htold⟩ := ih row hrow
      exact ⟨turn, List.mem_append_left _ hturn, htold⟩
    · exact ⟨_, List.mem_append_right _ (List.mem_singleton_self _), hrow⟩
  · intro f place p thread other β call next answer s' _ _ _ _ _ _ ih row hrow
    obtain ⟨turn, hturn, htold⟩ := ih row hrow
    exact ⟨turn, List.mem_append_left _ hturn, htold⟩
  · intro f place thread seat batch d next h here htask asks ih row hrow
    obtain rfl : row = d.job := List.mem_singleton.1 hrow
    obtain ⟨turn, hturn, htold⟩ :=
      ih d.job (List.mem_append_right _ (h.dispatches here htask asks).mem_told)
    exact ⟨turn, List.mem_append_left _ hturn, htold⟩

/-- What a task was told is on the record in the order in which it was told. -/
theorem Reachable.talk_sublist (h : Reachable s f) {p : Place ι} {thread : Thread engine}
    (hp : f.threads p = some thread) : thread.talk.Sublist (f.history.map Turn.exchange) := by
  refine h.induction_on_threads
    (P := fun _ history _ thread => thread.talk.Sublist (history.map Turn.exchange))
    ?_ ?_ ?_ ?_ p thread hp
  · exact fun _ _ _ => List.nil_sublist _
  · intro f place thread β call next answer s' _ _ asks _ ih
    rw [List.map_append]
    exact ih.append (List.Sublist.refl _)
  · intro f place p thread other β call next answer s' _ _ _ _ _ _ ih
    rw [List.map_append]
    exact ih.trans (List.sublist_append_left _ _)
  · exact fun _ _ _ _ _ => List.nil_sublist _

/-- With clocks that agree and never go back, a task reads later times later. -/
theorem Reachable.le_of_read (h : Reachable s f) (hclock : f.readings.Pairwise (· ≤ ·))
    {p : Place ι} {thread : Thread engine} (hp : f.threads p = some thread)
    {earlier later : List (Exchange (Call ε))} {time now : Instant}
    (htalk : thread.talk = earlier ++ ⟨.clock, now⟩ :: later) (htime : ⟨.clock, time⟩ ∈ earlier) :
    time ≤ now := by
  have hreadings : f.readings = (f.history.map Turn.exchange).filterMap Exchange.reading? := by
    rw [List.filterMap_map]
    rfl
  have hsub := (h.talk_sublist hp).filterMap Exchange.reading?
  rw [← hreadings, htalk, List.filterMap_append] at hsub
  have hpair := (List.pairwise_append.1 (hclock.sublist hsub)).2.2
  exact hpair time (List.mem_filterMap.2 ⟨_, htime, rfl⟩) now List.mem_cons_self

/-- Workers are numbered by the calls that dispatched their jobs. -/
theorem Reachable.worker_lt (h : Reachable s f) {n : Nat} {thread : Thread engine}
    (hp : f.threads (.worker n) = some thread) : n < f.history.length := by
  refine h.induction_on_threads (P := fun _ history p _ => ∀ n, p = .worker n → n < history.length)
    ?_ ?_ ?_ ?_ (.worker n) thread hp n rfl
  · rintro f _ task _ suits vacant n rfl
    cases vacant
  · intro f place thread β call next answer s' _ _ _ _ ih n hn
    exact Nat.lt_of_lt_of_le (ih n hn) (List.sublist_append_left _ _).length_le
  · intro f place p thread other β call next answer s' _ _ _ _ _ _ ih n hn
    exact Nat.lt_of_lt_of_le (ih n hn) (List.sublist_append_left _ _).length_le
  · intro f place thread seat batch d next _ _ _ _ _ n hn
    obtain rfl := Place.worker.inj hn
    rw [List.length_append]
    exact Nat.lt_succ_self _

/-- What a worker has said is what is on the record for its place. -/
theorem Reachable.talk_of_worker (h : Reachable s f) {n : Nat} {thread : Thread engine}
    (hp : f.threads (.worker n) = some thread) :
    thread.talk =
      (f.history.filter fun turn => decide (turn.place = .worker n)).map Turn.exchange := by
  refine h.induction_on_threads
    (P := fun _ history p thread => ∀ n, p = .worker n → thread.talk =
      (history.filter fun turn => decide (turn.place = .worker n)).map Turn.exchange)
    ?_ ?_ ?_ ?_ (.worker n) thread hp n rfl
  · rintro f _ task _ suits vacant n rfl
    cases vacant
  · rintro f _ thread β call next answer s' _ _ asks _ ih n rfl
    have hhere : decide ((Place.worker n : Place ι) = .worker n) = true := decide_eq_true rfl
    rw [List.filter_append, List.map_append, ← ih n rfl, List.filter_cons, if_pos hhere]
    rfl
  · rintro f place _ thread other β call next answer s' _ _ _ _ hne _ ih n rfl
    have helsewhere : ¬ decide (place = .worker n) = true :=
      fun hsame => hne (of_decide_eq_true hsame).symm
    rw [List.filter_append, List.map_append, ← ih n rfl, List.filter_cons, if_neg helsewhere]
    exact (List.append_nil _).symm
  · -- Nobody was at the place of a new worker before.
    intro f place thread seat batch d next h here htask _ _ n hn
    refine (List.map_eq_nil_iff.2 (List.filter_eq_nil_iff.2 fun turn hturn hplace => ?_)).symm
    replace hplace := of_decide_eq_true hplace
    rcases List.mem_append.1 hturn with hturn | hturn
    · obtain ⟨before, after, hhistory⟩ := List.append_of_mem hturn
      obtain ⟨g, s', hg, hbefore, htakes⟩ := h.cut hhistory
      cases htakes with
      | mk there _ _ =>
        obtain rfl : _ = Place.worker f.history.length := hplace.trans hn.symm
        have hlt := hg.worker_lt there
        rw [hbefore, hhistory, List.length_append] at hlt
        exact absurd hlt (Nat.not_lt.2 (Nat.le_add_right _ _))
    · obtain rfl := List.mem_singleton.1 hturn
      rw [h.place_eq here htask] at hplace
      cases hplace

/-- The rows that a task knows pin their names. -/
theorem Reachable.pins (h : Reachable s f) (honce : s.InsertsOnce f.log) {p : Place ι}
    {thread : Thread engine} (hp : f.threads p = some thread) :
    ∀ row ∈ thread.known, s.Pins f.log f.store.jobs row := by
  intro row hrow
  obtain ⟨turn, hturn, htold⟩ := h.known_told hp row hrow
  exact h.pins_of_history honce turn hturn row htold

/-- Up to and with each of its calls, a history in which no name is inserted twice is another one. -/
theorem Reachable.cut_once (h : Reachable s f) (honce : s.InsertsOnce f.log)
    {before after : List (Turn ι ε)} {m : Turn ι ε} (hhistory : f.history = before ++ m :: after) :
    ∃ (g : Fleet engine) (s' : Store), Reachable s g ∧ g.history = before ∧ g.Takes m s' ∧
      s.InsertsOnce (g.log ++ m.batch?.toList) := by
  obtain ⟨g, s', hg, hbefore, htakes⟩ := h.cut hhistory
  refine ⟨g, s', hg, hbefore, htakes, ?_⟩
  have hlog : f.log = (g.log ++ m.batch?.toList) ++ after.filterMap Turn.batch? := by
    rw [log, hhistory, List.filterMap_append, log, hbefore, List.append_assoc]
    congr 1
    cases hbatch : m.batch? with
    | none => rw [List.filterMap_cons_none hbatch, Option.toList_none, List.nil_append]
    | some ws => rw [List.filterMap_cons_some hbatch, Option.toList_some, List.singleton_append]
  rw [hlog] at honce
  exact honce.of_append

/-- A row that was told before its name was written is past. -/
theorem Reachable.isPast_of_touches (h : Reachable s f) (honce : s.InsertsOnce f.log)
    {before after : List (Turn ι ε)} {m : Turn ι ε} (hhistory : f.history = before ++ m :: after)
    {ws : List Write} (hbatch : m.batch? = some ws) {turn : Turn ι ε} (hturn : turn ∈ before)
    {row : Job} (hrow : row ∈ turn.exchange.told) (htouch : ∃ w ∈ ws, w.touches row.id = true) :
    f.store.jobs.IsPast row := by
  obtain ⟨g, s', hg, hbefore, -⟩ := h.cut hhistory
  have hlog : f.log = g.log ++ ws :: after.filterMap Turn.batch? := by
    rw [log, hhistory, List.filterMap_append, List.filterMap_cons, hbatch, log, hbefore]
  rw [hlog] at honce
  have hpins := hg.pins_of_history honce.of_append turn (hbefore ▸ hturn) row hrow
  -- From the store of that time the rest of the log leads to the store of now.
  obtain ⟨rows, hall⟩ := h.commits.writeAll
  obtain ⟨early, hearly⟩ := hg.commits.writeAll
  rw [hlog, List.flatten_append] at hall
  obtain ⟨t, first, rest, hfirst, hrest, -⟩ := JobTable.writeAll_append_eq_ok_iff.1 hall
  rw [hearly] at hfirst
  cases hfirst
  refine hpins.reached.isPast_of_writeAll hrest (honce.not_inserted hpins.named) ?_
  obtain ⟨w, hw, htouches⟩ := htouch
  exact ⟨w, List.mem_flatten.2 ⟨ws, List.mem_cons_self, hw⟩, htouches⟩

/-- The job of a worker was dispatched by a cycle of its engine, before the worker said anything. -/
theorem Reachable.dispatched (h : Reachable s f) {p : Place ι} {thread : Thread engine}
    (hp : f.threads p = some thread) {seat : ι} {d : Dispatched}
    (htask : thread.task = .run seat d) :
    ∃ (g : Fleet engine) (cycle : Thread engine) (batch : Nat) (since : List (Turn ι ε)),
      Reachable s g ∧ f.history = g.history ++ since ∧
      thread.talk.Sublist (since.map Turn.exchange) ∧ g.threads (.cycle seat) = some cycle ∧
      cycle.task = .acquire seat batch ∧ Engine.Dispatches (engine seat).owner cycle.talk d := by
  refine h.induction_on_threads
    (P := fun _ history _ thread => ∀ seat d, thread.task = .run seat d →
      ∃ (g : Fleet engine) (cycle : Thread engine) (batch : Nat) (since : List (Turn ι ε)),
        Reachable s g ∧ history = g.history ++ since ∧
        thread.talk.Sublist (since.map Turn.exchange) ∧ g.threads (.cycle seat) = some cycle ∧
        cycle.task = .acquire seat batch ∧ Engine.Dispatches (engine seat).owner cycle.talk d)
    ?_ ?_ ?_ ?_ p thread hp seat d htask
  · intro f place task _ suits vacant seat d htask
    have hrows := rows_eq_nil suits vacant
    rw [show task = .run seat d from htask] at hrows
    cases hrows
  · intro f place thread β call next answer s' _ _ asks _ ih seat d htask
    obtain ⟨g, cycle, batch, since, hg, hhistory, hsub, hthere⟩ := ih seat d htask
    refine ⟨g, cycle, batch, since ++ [⟨place, thread.task, ⟨call, answer⟩⟩], hg, ?_, ?_, hthere⟩
    · rw [hhistory, List.append_assoc]
    · rw [List.map_append]
      exact hsub.append (List.Sublist.refl _)
  · intro f place p thread other β call next answer s' _ _ _ _ _ _ ih seat d htask
    obtain ⟨g, cycle, batch, since, hg, hhistory, hsub, hthere⟩ := ih seat d htask
    refine ⟨g, cycle, batch, since ++ [⟨place, thread.task, ⟨call, answer⟩⟩], hg, ?_, ?_, hthere⟩
    · rw [hhistory, List.append_assoc]
    · rw [List.map_append]
      exact hsub.trans (List.sublist_append_left _ _)
  · intro f place thread seat' batch d' next h here hacquires asks _ seat d htask
    cases htask
    refine ⟨f, thread, batch, _, h, rfl, List.nil_sublist _, ?_, hacquires,
      h.dispatches here hacquires asks⟩
    rw [← h.place_eq here hacquires]
    exact here

end Fleet

end DeferredWork

import Mathlib.Logic.Relation
import DeferredWork.Proofs.Fleet.Endings
import DeferredWork.Proofs.Fleet.Readiness
import DeferredWork.Proofs.Job.Recurrence

set_option autoImplicit false

/-!
# Recurrence is conserved

The runs of a recurring job descend from the first one: each worker that ends a run inserts the next
(`Fleet.Descends`).  While handlers stage nothing, one of the runs is stored at all times until an
operator has cancelled one of them, and none after that; and each of them comes to be in the batch that
deletes its predecessor (`Fleet.Reachable.recurrence_conserved`).
-/

namespace DeferredWork

/-- The next run of a job, stored at a time: unlocked, without a trace of failures, with the retries
of a run and the definition of the job, and due after that time by an interval of the job at most. -/
structure Job.IsNextRun (next job : Job) (now : Instant) : Prop where
  unlocked : next.owner = none ∧ next.lockedUntil = none
  unfailed : next.failureMessage = none ∧ next.failureDetails = none ∧ next.failures = 0
  retries : next.retries = job.retriesPerRun
  definition : next.definition = job.definition
  due : ∃ interval due, job.interval = some interval ∧ next.due = some due ∧ due.IsWithin now interval

theorem Job.isNextRun_nextRun {job : Job} {interval : Duration} {now : Instant} (id : JobId)
    (hrecurs : job.interval = some interval) (hpos : 0 < interval.nanos)
    (hdue : job.isDue now = true) :
    (job.nextRun id (job.nextOccurrence now interval) now).IsNextRun job now where
  unlocked := ⟨rfl, rfl⟩
  unfailed := ⟨rfl, rfl, rfl⟩
  retries := rfl
  definition := rfl
  due := ⟨interval, _, hrecurs, rfl, nextOccurrence_spec hdue hpos⟩

variable {ι : Type} {ε : Type → Type} {β : Type} {engine : ι → Engine ε}

/-! ## Cancellations -/

namespace Fleet

/-- Some operator has cancelled the job, and was told so. -/
def IsCancelled (f : Fleet engine) (id : JobId) : Prop :=
  ∃ p thread operator, f.threads p = some thread ∧ thread.Cancels operator id (.done (.ok true))

variable [DecidableEq ι] {s : Store} {f f' : Fleet engine} {id : JobId}

/-- Apart from the place of a new worker, a call changes who is where only at its own place. -/
theorem threads_advance_eq (f : Fleet engine) (turn : Turn ι ε) (thread : Thread engine) (s' : Store)
    {p : Place ι} (hp : p ≠ .worker f.history.length) :
    (f.advance turn thread s').threads p = if p = turn.place then some thread else f.threads p := by
  rw [advance, ← Function.update_apply f.threads turn.place (some thread) p]
  cases turn.accepted? with
  | none => rfl
  | some job => exact Function.update_of_ne hp _ _

/-- Whoever is not a cycle stays at the place where it has made a call. -/
theorem Reachable.stays (h : Reachable s f) : ∀ turn ∈ f.history, (∀ seat, turn.place ≠ .cycle seat) →
    ∃ thread, f.threads turn.place = some thread ∧ thread.task = turn.task ∧
      turn.exchange ∈ thread.talk := by
  induction h with
  | start => exact List.forall_mem_nil _
  | @step f f' h hstep ih =>
    cases hstep with
    | @enter place task suits vacant =>
      intro turn hturn hplace
      obtain ⟨thread, hthread, hsaid⟩ := ih turn hturn hplace
      refine ⟨thread, ?_, hsaid⟩
      rw [threads_enter, if_neg, hthread]
      rintro rfl
      unfold isVacant at vacant
      rw [hthread] at vacant
      cases hkind : turn.place with
      | cycle seat => exact hplace seat hkind
      | worker n =>
        rw [hkind] at vacant
        cases vacant
      | call n =>
        rw [hkind] at vacant
        cases vacant
    | @turn place thread _ call next answer s' here asks replies =>
      have hworker : ∀ {p found}, f.threads p = some found → p ≠ .worker f.history.length :=
        fun hp hnew => Nat.lt_irrefl _ (h.worker_lt (hnew ▸ hp))
      intro turn hturn hplace
      rcases List.mem_append.1 hturn with hturn | hturn
      · obtain ⟨old, hold, htask, hsaid⟩ := ih turn hturn hplace
        rw [threads_advance_eq f _ _ s' (hworker hold)]
        by_cases hsame : turn.place = place
        · rw [hsame, here] at hold
          cases hold
          exact ⟨_, if_pos hsame, htask, List.mem_append_left _ hsaid⟩
        · exact ⟨old, (if_neg hsame).trans hold, htask, hsaid⟩
      · obtain rfl := List.mem_singleton.1 hturn
        rw [threads_advance_eq f _ _ s' (hworker here)]
        exact ⟨_, if_pos rfl, rfl, List.mem_append_right _ (List.mem_singleton_self _)⟩
    | reach value => exact ih

/-- A job is cancelled exactly if a batch of a cancellation was accepted. -/
theorem Reachable.isCancelled_iff (h : Reachable s f) :
    f.IsCancelled id ↔ ∃ turn ∈ f.history, (∃ operator, turn.task = .cancel operator id) ∧
      turn.batch?.isSome = true := by
  constructor
  · rintro ⟨p, thread, operator, here, hcancels⟩
    have haccepted := (h.cancelled_iff here hcancels).1 rfl
    obtain ⟨exchange, hmem, hbatch⟩ : ∃ exchange ∈ thread.talk,
        Event.batch? (.own exchange) ≠ none := by
      by_contra hnone
      push Not at hnone
      exact haccepted hnone
    exact ⟨_, h.recorded here hmem, ⟨operator, hcancels.task⟩, Option.isSome_iff_ne_none.2 hbatch⟩
  · rintro ⟨turn, hturn, ⟨operator, htask⟩, hbatch⟩
    have hplace : ∀ seat, turn.place ≠ .cycle seat := by
      intro seat hseat
      obtain ⟨before, after, hhistory⟩ := List.append_of_mem hturn
      obtain ⟨g, s', hg, -, htakes⟩ := h.cut hhistory
      cases htakes with
      | mk there asks replies =>
        have hsuits := hg.suits there
        dsimp only at hseat htask
        rw [hseat, htask] at hsuits
        exact hsuits
    obtain ⟨thread, here, hsame, hsaid⟩ := h.stays turn hturn hplace
    have haccepted : ¬ NoneAccepted thread.talk :=
      fun hnone => Option.isSome_iff_ne_none.1 hbatch (hnone _ hsaid)
    refine ⟨turn.place, thread, operator, here, ?_⟩
    obtain ⟨task, talk, rest, leads⟩ := thread
    obtain rfl : task = .cancel operator id := hsame.trans htask
    obtain ⟨result, rfl⟩ := Operator.cancel_over leads (h.plausible_talk here) haccepted
    have hcancels : Thread.Cancels ⟨.cancel operator id, talk, .done result, leads⟩ operator id
      (.done result) := ⟨rfl, leads⟩
    rw [← (h.cancelled_iff here hcancels).2 haccepted]
    exact hcancels

/-- What comes about later is reachable, and what was said stays on the record. -/
theorem Reachable.steps (h : Reachable s f) (hsteps : Relation.ReflTransGen Step f f') :
    Reachable s f' ∧ f.history <+: f'.history := by
  induction hsteps with
  | refl => exact ⟨h, List.prefix_rfl⟩
  | tail _ hstep ih => exact ⟨ih.1.step hstep, ih.2.trans hstep.history_prefix⟩

/-! ## Runs that descend from the first -/

/-- The runs of a recurring job, by name: the first one, and what a worker inserts as it runs one of
them. -/
inductive Descends (f : Fleet engine) (first : JobId) : JobId → Prop
  | first : Descends f first first
  | next {turn : Turn ι ε} {seat : ι} {d : Dispatched} {ws : List Write} {job : Job}
      (parent : Descends f first d.job.id) (recorded : turn ∈ f.history)
      (task : turn.task = .run seat d) (batch : turn.batch? = some ws) (inserts : .insert job ∈ ws) :
      Descends f first job.id

variable {place : Place ι} {thread : Thread engine} {exchange : Exchange (Call ε)} {ws : List Write}
  {first : JobId}

omit [DecidableEq ι] in
theorem Descends.mono (h : f.Descends first id) (hhistory : f.history <+: f'.history) :
    f'.Descends first id := by
  induction h with
  | first => exact .first
  | next parent recorded task batch inserts ih =>
    exact .next ih (hhistory.mem recorded) task batch inserts

/-- What a worker inserts is the next run of its job, which it deletes. -/
structure Succeeds (f : Fleet engine) (thread : Thread engine) (ws : List Write) (job next : Job)
    (interval : Duration) (uuid : Uuid) (now : Instant) : Prop where
  clock : thread.talk.head? = some ⟨.clock, now⟩
  stored : f.store.jobs.find? job.id = some job
  recurs : job.interval = some interval
  made : next = job.nextRun (.ofUuid uuid) (job.nextOccurrence now interval) now
  batch : ws = [.delete job.id (.exactly job.revision), .insert next]

/-- A name that a batch inserts was free. -/
theorem Accepts.free (h : Reachable s f) (honce : s.InsertsOnce (f.log ++ [ws])) {job : Job}
    (hins : .insert job ∈ ws) : f.store.jobs.find? job.id = none := by
  refine Option.eq_none_iff_forall_not_mem.2 fun row hrow => ?_
  have hnot := honce.not_inserted (h.commits.named hrow)
  rw [List.flatten_singleton] at hnot
  exact hnot _ hins (List.mem_singleton_self _)

theorem Accepts.succeeds (hacc : f.Accepts f' place thread exchange ws) (h : Reachable s f)
    (honce : s.InsertsOnce (f.log ++ [ws])) {seat : ι} {d : Dispatched} {next : Job}
    (htask : thread.task = .run seat d) (hins : .insert next ∈ ws) :
    ∃ interval uuid now, f.Succeeds thread ws d.job next interval uuid now := by
  have halters := hacc.alters next.id
  rw [Accepts.free h honce hins] at halters
  generalize f'.store.jobs.find? next.id = after at halters
  cases halters with
  | leaves untouched other =>
    have htouches := (untouched _ hins).1
    rw [Write.touches, beq_self_eq_true] at htouches
    cases htouches
  | @begins _ _ interval uuid now job task named unfailed stored clock recurs succeeds handed =>
    cases htask.symm.trans task
    subst handed
    obtain rfl : next = job := by simpa using hins
    exact ⟨interval, uuid, now, clock, stored, recurs, succeeds, rfl⟩
  | stores task named stores => cases htask.symm.trans task

/-- A cancellation that is accepted deletes a job that was stored. -/
theorem Alters.of_cancel {before after : Option Job} (h : f.Alters place thread id ws before after)
    {operator : Operator} (htask : thread.task = .cancel operator id) :
    after = none ∧ ∃ row, before = some row := by
  cases h with
  | leaves untouched other =>
    rw [htask] at other
    exact absurd rfl other
  | deletes task handed => exact ⟨rfl, _, rfl⟩
  | locks task | gives task | releases task | retries task | parks task | ends task | begins task
  | stores task | resets task | suspends task | activates task => cases htask.symm.trans task

/-- A stored job that is gone after a batch was cancelled, or a worker has ended it. -/
theorem Alters.of_gone {row : Job} (h : f.Alters place thread id ws (some row) none) :
    (∃ operator, thread.task = .cancel operator id) ∨
      ∃ seat d now completion, thread.task = .run seat d ∧ d.job = row ∧
        row.Ends now completion ws := by
  cases h with
  | ends task runs unfailed owned clock ends => exact .inr ⟨_, _, _, _, task, rfl, ends⟩
  | deletes task handed => exact .inl ⟨_, task⟩

/-- A job that is deleted by the next run taking its place is gone. -/
theorem Alters.gone_of_succeeds {before after : Option Job} {job next : Job}
    (h : f.Alters place thread job.id [.delete job.id (.exactly job.revision), .insert next] before
      after) {seat : ι} {d : Dispatched} (htask : thread.task = .run seat d)
    (hbefore : before.isSome = true) : after = none := by
  cases h with
  | leaves untouched other =>
    have htouches := (untouched _ List.mem_cons_self).1
    rw [Write.touches, beq_self_eq_true] at htouches
    cases htouches
  | ends => rfl
  | releases task unfailed handed | retries task runs failed owned decided handed
  | parks task runs named failed owned decided handed => cases handed
  | begins => cases hbefore
  | locks task | gives task | stores task | deletes task | resets task | suspends task
  | activates task => cases htask.symm.trans task

/-- An accepted batch adds to the runs only what a worker inserts as it runs one of them. -/
theorem Accepts.descends (hacc : f.Accepts f' place thread exchange ws)
    (hnew : ∀ turn ∈ f.history, ∀ seat d, turn.task = .run seat d → turn.batch?.isSome = true →
      ∀ job, .insert job ∈ ws → job.id ≠ d.job.id)
    (hself : ∀ seat d, thread.task = .run seat d → ∀ job, .insert job ∈ ws → job.id ≠ d.job.id)
    (h : f'.Descends first id) :
    f.Descends first id ∨ ∃ seat d next, thread.task = .run seat d ∧ f.Descends first d.job.id ∧
      .insert next ∈ ws ∧ next.id = id := by
  induction h with
  | first => exact .inl .first
  | @next turn seat d ws' job parent recorded task batch inserts ih =>
    rw [hacc.history] at recorded
    rcases List.mem_append.1 recorded with hold | hturn
    · rcases ih with hparent | ⟨_, _, next, _, _, hins, hname⟩
      · exact .inl (.next hparent hold task batch inserts)
      · exact absurd hname (hnew turn hold seat d task (batch ▸ rfl) next hins)
    · obtain rfl := List.mem_singleton.1 hturn
      obtain rfl : ws = ws' := Option.some.inj (hacc.batch.symm.trans batch)
      rcases ih with hparent | ⟨_, _, next, _, _, hins, hname⟩
      · exact .inr ⟨seat, d, job, task, hparent, inserts, rfl⟩
      · exact absurd hname (hself seat d task next hins)

omit [DecidableEq ι] in
theorem Rests.descends (hrests : f.Rests f') (h : f'.Descends first id) : f.Descends first id := by
  obtain ⟨turn?, hhistory, hquiet⟩ := hrests.quiet
  induction h with
  | first => exact .first
  | @next turn seat d ws job parent recorded task batch inserts ih =>
    rw [hhistory] at recorded
    rcases List.mem_append.1 recorded with hold | hturn
    · exact .next ih hold task batch inserts
    · rw [hquiet turn (Option.mem_toList.1 hturn)] at batch
      cases batch

/-- A batch of a cancellation of the job was accepted. -/
def HasCancelled (f : Fleet engine) (id : JobId) : Prop :=
  ∃ turn ∈ f.history, (∃ operator, turn.task = .cancel operator id) ∧ turn.batch?.isSome = true

omit [DecidableEq ι] in
theorem Rests.hasCancelled_iff (hrests : f.Rests f') : f'.HasCancelled id ↔ f.HasCancelled id := by
  obtain ⟨turn?, hhistory, hquiet⟩ := hrests.quiet
  constructor
  · rintro ⟨turn, hturn, htask, hbatch⟩
    rw [hhistory] at hturn
    rcases List.mem_append.1 hturn with hold | hturn
    · exact ⟨turn, hold, htask, hbatch⟩
    · rw [hquiet turn (Option.mem_toList.1 hturn)] at hbatch
      cases hbatch
  · rintro ⟨turn, hturn, hcancels⟩
    exact ⟨turn, hhistory ▸ List.mem_append_left _ hturn, hcancels⟩

theorem Accepts.hasCancelled_iff (hacc : f.Accepts f' place thread exchange ws) :
    f'.HasCancelled id ↔ f.HasCancelled id ∨ ∃ operator, thread.task = .cancel operator id := by
  constructor
  · rintro ⟨turn, hturn, htask, hbatch⟩
    rw [hacc.history] at hturn
    rcases List.mem_append.1 hturn with hold | hturn
    · exact .inl ⟨turn, hold, htask, hbatch⟩
    · obtain rfl := List.mem_singleton.1 hturn
      exact .inr htask
  · rintro (⟨turn, hturn, hcancels⟩ | htask)
    · exact ⟨turn, hacc.history ▸ List.mem_append_left _ hturn, hcancels⟩
    · have hbatch : Turn.batch? (⟨place, thread.task, exchange⟩ : Turn ι ε) = some ws := hacc.batch
      refine ⟨_, hacc.history ▸ List.mem_append_right _ (List.mem_singleton_self _), htask, ?_⟩
      rw [hbatch]
      rfl

/-! ## One run at a time -/

/-- One of the runs is stored, and none was cancelled; or one was cancelled, and none is stored. -/
inductive Conserves (f : Fleet engine) (first : JobId) : Prop
  | goesOn {row : Job} (member : f.Descends first row.id)
      (stored : f.store.jobs.find? row.id = some row)
      (sole : ∀ id, f.Descends first id → ∀ other, f.store.jobs.find? id = some other → id = row.id)
      (uncancelled : ∀ id, f.Descends first id → ¬ f.HasCancelled id)
  | isOver {id : JobId} (member : f.Descends first id) (cancelled : f.HasCancelled id)
      (gone : ∀ id, f.Descends first id → f.store.jobs.find? id = none)

omit [DecidableEq ι] in
theorem Conserves.of_rests (h : f.Conserves first) (hrests : f.Rests f') : f'.Conserves first := by
  have hearlier : f.history <+: f'.history := by
    obtain ⟨turn?, hhistory, -⟩ := hrests.quiet
    exact hhistory ▸ List.prefix_append _ _
  cases h with
  | goesOn member stored sole uncancelled =>
    refine .goesOn (member.mono hearlier) (hrests.jobs ▸ stored) (fun id hid other hother => ?_)
      fun id hid hcancelled => ?_
    · exact sole id (hrests.descends hid) other (hrests.jobs ▸ hother)
    · exact uncancelled id (hrests.descends hid) (hrests.hasCancelled_iff.1 hcancelled)
  | isOver member cancelled gone =>
    refine .isOver (member.mono hearlier) (hrests.hasCancelled_iff.2 cancelled) fun id hid => ?_
    rw [hrests.jobs]
    exact gone id (hrests.descends hid)

section

variable (hquiet : ∀ seat kind handler,
  (engine seat).handlers.resolve kind = some handler → handler.StagesNothing)

include hquiet

/-- The job of a worker of which a batch was accepted is one that was stored first at some time, with
the same definition. -/
theorem Reachable.born_of_turn (h : Reachable s f) (honce : s.InsertsOnce f.log)
    (hnamed : ∀ turn ∈ f.history, turn.task.isNamed = true) {turn : Turn ι ε} (hturn : turn ∈ f.history)
    {seat : ι} {d : Dispatched} (htask : turn.task = .run seat d) (hbatch : turn.batch?.isSome = true) :
    ∃ birth ∈ s.births f.log.flatten, birth.id = d.job.id ∧ birth.definition = d.job.definition := by
  obtain ⟨ws, hws⟩ := Option.isSome_iff_exists.1 hbatch
  obtain ⟨before, after, hhistory⟩ := List.append_of_mem hturn
  obtain ⟨g, g', thread, hg, rfl, hsame, honce, hacc⟩ :=
    h.cut_accepts hquiet honce hnamed hhistory hws
  have hearlier : g.history <+: f.history := hhistory ▸ List.prefix_append _ _
  obtain ⟨birth, hbirth, hborn⟩ := hg.born_of_run hquiet honce.of_append
    (fun turn hmem => hnamed turn (hearlier.mem hmem)) hacc.here (hsame.trans htask)
  exact ⟨birth, births_subset s hearlier hbirth, hborn⟩

/-- A job of which a cancellation was accepted is one that was stored first at some time. -/
theorem Reachable.born_of_hasCancelled (h : Reachable s f) (honce : s.InsertsOnce f.log)
    (hnamed : ∀ turn ∈ f.history, turn.task.isNamed = true) (hcancelled : f.HasCancelled id) :
    ∃ birth ∈ s.births f.log.flatten, birth.id = id := by
  obtain ⟨turn, hturn, ⟨operator, htask⟩, hbatch⟩ := hcancelled
  obtain ⟨ws, hws⟩ := Option.isSome_iff_exists.1 hbatch
  obtain ⟨before, after, hhistory⟩ := List.append_of_mem hturn
  obtain ⟨g, g', thread, hg, rfl, hsame, honce, hacc⟩ :=
    h.cut_accepts hquiet honce hnamed hhistory hws
  have hearlier : g.history <+: f.history := hhistory ▸ List.prefix_append _ _
  obtain ⟨-, row, hrow⟩ := (hacc.alters id).of_cancel (hsame.trans htask)
  obtain ⟨birth, hbirth, hname, -⟩ := hg.born hquiet honce.of_append
    (fun turn hmem => hnamed turn (hearlier.mem hmem)) hrow
  exact ⟨birth, births_subset s hearlier hbirth, hname⟩

/-- Every run was stored first at some time, with the definition of the first one. -/
theorem Reachable.born_of_descends (h : Reachable s f) (honce : s.InsertsOnce f.log)
    (hnamed : ∀ turn ∈ f.history, turn.task.isNamed = true) {root : Job}
    (hroot : root ∈ s.births f.log.flatten) (hdescends : f.Descends root.id id) :
    ∃ birth ∈ s.births f.log.flatten, birth.id = id ∧ birth.definition = root.definition := by
  induction hdescends with
  | first => exact ⟨root, hroot, rfl, rfl⟩
  | @next turn seat d ws job parent recorded task batch inserts ih =>
    obtain ⟨birth, hbirth, hname, hdefinition⟩ := ih
    obtain ⟨before, after, hhistory⟩ := List.append_of_mem recorded
    obtain ⟨birth', hbirth', hname', hdefinition'⟩ :=
      h.born_of_turn hquiet honce hnamed recorded task (batch ▸ rfl)
    obtain rfl := honce.birth_eq hbirth hbirth' (hname.trans hname'.symm)
    obtain ⟨g, g', thread, hg, rfl, hsame, honceCut, hacc⟩ :=
      h.cut_accepts hquiet honce hnamed hhistory batch
    obtain ⟨interval, uuid, now, hsucceeds⟩ :=
      hacc.succeeds hg honceCut (hsame.trans task) inserts
    refine ⟨job, List.mem_append_right _ (List.mem_filterMap.2 ⟨.insert job, ?_, rfl⟩), rfl, ?_⟩
    · exact List.mem_flatten.2 ⟨ws, List.mem_filterMap.2 ⟨turn, recorded, batch⟩, inserts⟩
    · rw [hsucceeds.made, Job.definition_nextRun, ← hdefinition', hdefinition]

/-- A stored run has the definition of the first one. -/
theorem Reachable.definition_of_descends (h : Reachable s f) (honce : s.InsertsOnce f.log)
    (hnamed : ∀ turn ∈ f.history, turn.task.isNamed = true) {root row : Job}
    (hroot : root ∈ s.births f.log.flatten) (hdescends : f.Descends root.id row.id)
    (hrow : f.store.jobs.find? row.id = some row) : row.definition = root.definition := by
  obtain ⟨birth, hbirth, hname, hdefinition⟩ := h.born_of_descends hquiet honce hnamed hroot hdescends
  obtain ⟨birth', hbirth', hname', hdefinition'⟩ := h.born hquiet honce hnamed hrow
  obtain rfl := honce.birth_eq hbirth hbirth' (hname.trans hname'.symm)
  exact hdefinition'.symm.trans hdefinition

/-- A batch that is accepted adds no run but the next one of the run that a worker has ended. -/
theorem Accepts.descends_of_known (hacc : f.Accepts f' place thread exchange ws) (h : Reachable s f)
    (honce : s.InsertsOnce (f.log ++ [ws])) (hnamed : ∀ turn ∈ f.history, turn.task.isNamed = true)
    (hdescends : f'.Descends first id) :
    f.Descends first id ∨ ∃ seat d next interval uuid now, thread.task = .run seat d ∧
      f.Descends first d.job.id ∧ next.id = id ∧
      f.Succeeds thread ws d.job next interval uuid now := by
  -- What is inserted has a new name, and workers run jobs that were stored before.
  have hne : ∀ {job : Job}, .insert job ∈ ws →
      ∀ birth ∈ s.births f.log.flatten, job.id ≠ birth.id :=
    fun hins birth hbirth => honce.newcomer_ne hbirth (List.mem_filterMap.2 ⟨_, hins, rfl⟩)
  have hnew : ∀ turn ∈ f.history, ∀ seat d, turn.task = .run seat d → turn.batch?.isSome = true →
      ∀ job, .insert job ∈ ws → job.id ≠ d.job.id := by
    intro turn hturn seat d htask hbatch job hins
    obtain ⟨birth, hbirth, hborn, -⟩ :=
      h.born_of_turn hquiet honce.of_append hnamed hturn htask hbatch
    exact hborn ▸ hne hins birth hbirth
  have hself : ∀ seat d, thread.task = .run seat d → ∀ job, .insert job ∈ ws → job.id ≠ d.job.id := by
    intro seat d htask job hins
    obtain ⟨birth, hbirth, hborn, -⟩ := h.born_of_run hquiet honce.of_append hnamed hacc.here htask
    exact hborn ▸ hne hins birth hbirth
  rcases hacc.descends hnew hself hdescends with hold | ⟨seat, d, next, htask, hparent, hins, hname⟩
  · exact .inl hold
  · obtain ⟨interval, uuid, now, hsucceeds⟩ := hacc.succeeds h honce htask hins
    exact .inr ⟨seat, d, next, interval, uuid, now, htask, hparent, hname, hsucceeds⟩

/-- The next run takes the place of the one that a worker has ended. -/
theorem Conserves.of_next (h : Reachable s f) (honce : s.InsertsOnce (f.log ++ [ws]))
    (hnamed : ∀ turn ∈ f.history, turn.task.isNamed = true)
    (hacc : f.Accepts f' place thread exchange ws) {seat : ι} {d : Dispatched} {next : Job}
    (htask : thread.task = .run seat d) (hmember : f.Descends first d.job.id)
    (huncancelled : ∀ id, f.Descends first id → ¬ f.HasCancelled id)
    (hgone : ∀ id, f.Descends first id → f'.store.jobs.find? id = none)
    (hins : .insert next ∈ ws) : f'.Conserves first := by
  have hearlier : f.history <+: f'.history := hacc.history ▸ List.prefix_append _ _
  have hbatch : Turn.batch? (⟨place, thread.task, exchange⟩ : Turn ι ε) = some ws := hacc.batch
  have hrecorded : ⟨place, thread.task, exchange⟩ ∈ f'.history :=
    hacc.history ▸ List.mem_append_right _ (List.mem_singleton_self _)
  obtain ⟨interval, uuid, now, hsucceeds⟩ := hacc.succeeds h honce htask hins
  -- Whatever the worker inserts is this run.
  have hnew : ∀ id, f'.Descends first id → f.Descends first id ∨ id = next.id := by
    intro id hid
    rcases hacc.descends_of_known hquiet h honce hnamed hid with
      hold | ⟨_, d', next', _, _, _, _, _, hname, hsucceeds'⟩
    · exact .inl hold
    · have hsame := hsucceeds.batch.symm.trans hsucceeds'.batch
      simp only [List.cons.injEq, Write.insert.injEq, and_true] at hsame
      exact .inr (hname ▸ congrArg Job.id hsame.2.symm)
  have halters := hacc.alters next.id
  rw [Accepts.free h honce hins] at halters
  cases hafter : f'.store.jobs.find? next.id with
  | none =>
    rw [hafter] at halters
    cases halters with
    | leaves untouched other =>
      have htouches := (untouched _ hins).1
      rw [Write.touches, beq_self_eq_true] at htouches
      cases htouches
  | some row =>
    have hname := JobTable.id_of_find? hafter
    refine .goesOn (hname ▸ .next (hmember.mono hearlier) hrecorded htask hbatch hins)
      (hname ▸ hafter) (fun id hid other hother => ?_) fun id hid hcancelled => ?_
    · rcases hnew id hid with hold | hnext
      · rw [hgone id hold] at hother
        cases hother
      · exact hnext.trans hname.symm
    · rcases hacc.hasCancelled_iff.1 hcancelled with hbefore | ⟨operator, hcancel⟩
      · rcases hnew id hid with hold | rfl
        · exact huncancelled id hold hbefore
        · -- Nobody has cancelled a job under a name that nobody knew.
          obtain ⟨birth, hbirth, hborn⟩ :=
            h.born_of_hasCancelled hquiet honce.of_append hnamed hbefore
          exact honce.newcomer_ne hbirth (List.mem_filterMap.2 ⟨_, hins, rfl⟩) hborn.symm
      · cases htask.symm.trans hcancel

omit hquiet in
/-- A name that a job had once and that is free stays free. -/
theorem Accepts.stays_free (hacc : f.Accepts f' place thread exchange ws)
    (honce : s.InsertsOnce (f.log ++ [ws])) (hborn : ∃ birth ∈ s.births f.log.flatten, birth.id = id)
    (hnone : f.store.jobs.find? id = none) : f'.store.jobs.find? id = none := by
  refine Option.eq_none_iff_forall_not_mem.2 fun row hrow => ?_
  obtain ⟨birth, hbirth, hname⟩ := hborn
  have halters := hacc.alters id
  rw [hnone, Option.mem_def.1 hrow] at halters
  obtain ⟨job, hjob, hjobName, -⟩ := halters.newcomer
  exact honce.newcomer_ne hbirth hjob (hjobName.trans hname.symm)

/-- A batch that leaves the stored run in the store conserves a recurring job. -/
theorem Conserves.of_kept (h : Reachable s f) (honce : s.InsertsOnce (f.log ++ [ws]))
    (hnamed : ∀ turn ∈ f.history, turn.task.isNamed = true)
    (hacc : f.Accepts f' place thread exchange ws) {row row' : Job}
    (member : f.Descends first row.id) (stored : f.store.jobs.find? row.id = some row)
    (sole : ∀ id, f.Descends first id → ∀ other, f.store.jobs.find? id = some other → id = row.id)
    (uncancelled : ∀ id, f.Descends first id → ¬ f.HasCancelled id)
    (hsole : ∀ id, f.Descends first id → ∀ other, f'.store.jobs.find? id = some other → id = row.id)
    (hafter : f'.store.jobs.find? row.id = some row') : f'.Conserves first := by
  have hearlier : f.history <+: f'.history := hacc.history ▸ List.prefix_append _ _
  have halters := hacc.alters row.id
  rw [stored, hafter] at halters
  -- The run is still there, so no worker has ended it.
  have hsame : ∀ id, f'.Descends first id → f.Descends first id := by
    intro id hid
    rcases hacc.descends_of_known hquiet h honce hnamed hid with
      hold | ⟨_, d, next, _, _, _, htask, hparent, _, hsucceeds⟩
    · exact hold
    · have hrow := sole _ hparent _ hsucceeds.stored
      have hbatch := hsucceeds.batch
      have hjob : d.job = row := Option.some.inj ((hrow ▸ hsucceeds.stored).symm.trans stored)
      rw [hjob] at hbatch
      subst hbatch
      cases halters.gone_of_succeeds htask rfl
  have hname := JobTable.id_of_find? hafter
  refine .goesOn (hname ▸ member.mono hearlier) (hname ▸ hafter) (fun id hid other hother => ?_)
    fun id hid hcancelled => ?_
  · exact (hsole id (hsame id hid) other hother).trans hname.symm
  · rcases hacc.hasCancelled_iff.1 hcancelled with hbefore | ⟨operator, htask⟩
    · exact uncancelled id (hsame id hid) hbefore
    · obtain ⟨hnone, before, hbefore⟩ := (hacc.alters id).of_cancel htask
      rw [sole id (hsame id hid) before hbefore, hafter] at hnone
      cases hnone

/-- A batch that is accepted conserves a recurring job. -/
theorem Conserves.of_accepts (hconserves : f.Conserves first) (h : Reachable s f)
    (honce : s.InsertsOnce (f.log ++ [ws])) (hnamed : ∀ turn ∈ f.history, turn.task.isNamed = true)
    (hacc : f.Accepts f' place thread exchange ws)
    (hborn : ∀ id, f.Descends first id → ∃ birth ∈ s.births f.log.flatten, birth.id = id)
    (hrecurs : ∀ row, f.Descends first row.id → f.store.jobs.find? row.id = some row →
      row.interval ≠ none) : f'.Conserves first := by
  have hearlier : f.history <+: f'.history := hacc.history ▸ List.prefix_append _ _
  -- A run that is gone stays so.
  have hgone : ∀ id, f.Descends first id → f.store.jobs.find? id = none →
      f'.store.jobs.find? id = none := fun id hid => hacc.stays_free honce (hborn id hid)
  cases hconserves with
  | isOver member cancelled gone =>
    refine .isOver (member.mono hearlier) (hacc.hasCancelled_iff.2 (.inl cancelled)) fun id hid => ?_
    rcases hacc.descends_of_known hquiet h honce hnamed hid with
      hold | ⟨_, d, _, _, _, _, _, hparent, _, hsucceeds⟩
    · exact hgone id hold (gone id hold)
    · exact nomatch hsucceeds.stored.symm.trans (gone _ hparent)
  | @goesOn row member stored sole uncancelled =>
    have hsole : ∀ id, f.Descends first id → ∀ other, f'.store.jobs.find? id = some other →
        id = row.id := by
      intro id hid other hother
      cases hbefore : f.store.jobs.find? id with
      | none => exact nomatch (hgone id hid hbefore).symm.trans hother
      | some before => exact sole id hid before hbefore
    cases hafter : f'.store.jobs.find? row.id with
    | some row' =>
      exact .of_kept hquiet h honce hnamed hacc member stored sole uncancelled hsole hafter
    | none =>
      have halters := hacc.alters row.id
      rw [stored, hafter] at halters
      have hnotStored : ∀ id, f.Descends first id → f'.store.jobs.find? id = none := by
        intro id hid
        refine Option.eq_none_iff_forall_not_mem.2 fun other hother => ?_
        rw [hsole id hid other hother, hafter] at hother
        cases hother
      rcases halters.of_gone with ⟨operator, htask⟩ | ⟨seat, d, now, completion, htask, rfl, hends⟩
      · refine .isOver (member.mono hearlier) (hacc.hasCancelled_iff.2 (.inr ⟨operator, htask⟩))
          fun id hid => ?_
        rcases hacc.descends_of_known hquiet h honce hnamed hid with
          hold | ⟨_, _, _, _, _, _, hrun, -⟩
        · exact hnotStored id hold
        · cases htask.symm.trans hrun
      · cases hends with
        | deleted once => exact absurd once (hrecurs d.job member stored)
        | @rescheduled interval recurs uuid =>
          exact .of_next hquiet h honce hnamed hacc htask member uncancelled hnotStored
            (List.mem_cons_of_mem _ List.mem_cons_self)

/-- A batch that stores a job under a new name stores its first run. -/
theorem Conserves.of_newcomer (h : Reachable s f) (honce : s.InsertsOnce (f.log ++ [ws]))
    (hnamed : ∀ turn ∈ f.history, turn.task.isNamed = true)
    (hacc : f.Accepts f' place thread exchange ws) {root : Job} (hins : .insert root ∈ ws) :
    f'.Conserves root.id := by
  have hne : ∀ birth ∈ s.births f.log.flatten, root.id ≠ birth.id :=
    fun birth hbirth => honce.newcomer_ne hbirth (List.mem_filterMap.2 ⟨_, hins, rfl⟩)
  -- Nobody has run the job so far.
  have honly : ∀ id, f'.Descends root.id id → id = root.id := by
    intro id hid
    induction hid with
    | first => rfl
    | @next turn seat d ws' job parent recorded task batch inserts ih =>
      rw [hacc.history] at recorded
      rcases List.mem_append.1 recorded with hold | hturn
      · obtain ⟨birth, hbirth, hborn, -⟩ :=
          h.born_of_turn hquiet honce.of_append hnamed hold task (batch ▸ rfl)
        exact absurd (ih.symm.trans hborn.symm) (hne birth hbirth)
      · obtain rfl := List.mem_singleton.1 hturn
        obtain ⟨birth, hbirth, hborn, -⟩ := h.born_of_run hquiet honce.of_append hnamed hacc.here task
        exact absurd (ih.symm.trans hborn.symm) (hne birth hbirth)
  have halters := hacc.alters root.id
  rw [Accepts.free h honce hins] at halters
  cases hafter : f'.store.jobs.find? root.id with
  | none =>
    rw [hafter] at halters
    cases halters with
    | leaves untouched other =>
      have htouches := (untouched _ hins).1
      rw [Write.touches, beq_self_eq_true] at htouches
      cases htouches
  | some row =>
    rw [hafter] at halters
    have hname := JobTable.id_of_find? hafter
    refine .goesOn (hname ▸ .first) (hname ▸ hafter)
      (fun id hid _ _ => (honly id hid).trans hname.symm) fun id hid hcancelled => ?_
    rw [honly id hid] at hcancelled
    rcases hacc.hasCancelled_iff.1 hcancelled with hbefore | ⟨operator, hcancel⟩
    · obtain ⟨birth, hbirth, hborn⟩ := h.born_of_hasCancelled hquiet honce.of_append hnamed hbefore
      exact hne birth hbirth hborn.symm
    · cases (halters.of_cancel hcancel).1

/-- Each recurring job is conserved from when it is stored first. -/
theorem Reachable.conserves (h : Reachable s f) (honce : s.InsertsOnce f.log)
    (hnamed : ∀ turn ∈ f.history, turn.task.isNamed = true) {root : Job}
    (hroot : root ∈ s.births f.log.flatten) (hrecurs : root.interval ≠ none) :
    f.Conserves root.id := by
  revert hroot
  refine h.induction_on_batches hquiet (P := fun f =>
    root ∈ s.births f.log.flatten → f.Conserves root.id) ?_ ?_ ?_ honce hnamed
  · intro hroot
    have hstored : s.jobs.find? root.id = some root := by
      rcases List.mem_append.1 hroot with hmem | hmem
      · exact JobTable.find?_eq_some_of_mem hmem
      · cases hmem
    refine .goesOn .first hstored (fun id hid _ _ => ?_) fun id _ hcancelled => ?_
    · cases hid with
      | first => rfl
      | next parent recorded task batch inserts => cases recorded
    · obtain ⟨turn, hturn, -⟩ := hcancelled
      cases hturn
  · intro f f' _ hrests ih hroot
    exact (ih (hrests.log_eq ▸ hroot)).of_rests hrests
  · intro f f' place thread exchange ws h honce hnamed hacc ih hroot
    rw [hacc.history, List.forall_mem_append] at hnamed
    rw [hacc.births_eq] at hroot
    rcases List.mem_append.1 hroot with hold | hnew
    · refine (ih hold).of_accepts hquiet h honce hnamed.1 hacc (fun id hid => ?_) fun row hid hrow => ?_
      · obtain ⟨birth, hbirth, hname, -⟩ :=
          h.born_of_descends hquiet honce.of_append hnamed.1 hold hid
        exact ⟨birth, hbirth, hname⟩
      · have hsame := h.definition_of_descends hquiet honce.of_append hnamed.1 hold hid hrow
        rwa [show row.interval = root.interval from congrArg Job.Definition.interval hsame]
    · obtain ⟨w, hw, hwrite⟩ := List.mem_filterMap.1 hnew
      cases w with
      | insert job =>
        cases hwrite
        exact .of_newcomer hquiet h honce hnamed.1 hacc hw
      | _ => cases hwrite

/-- What a worker inserts as it runs one of the runs is the next run, in the batch that deletes the
one before. -/
theorem Reachable.isNextRun (h : Reachable s f) (honce : s.InsertsOnce f.log)
    (hnamed : ∀ turn ∈ f.history, turn.task.isNamed = true) (hclock : f.readings.Pairwise (· ≤ ·))
    {root : Job} (hroot : root ∈ s.births f.log.flatten) {interval : Duration}
    (hrecurs : root.interval = some interval) (hpos : 0 < interval.nanos)
    {before after : List (Turn ι ε)} {turn : Turn ι ε} (hhistory : f.history = before ++ turn :: after)
    {seat : ι} {d : Dispatched} {next : Job} (htask : turn.task = .run seat d)
    (hdescends : f.Descends root.id d.job.id) (hbatch : turn.batch? = some ws)
    (hins : .insert next ∈ ws) :
    ws = [.delete d.job.id (.exactly d.job.revision), .insert next] ∧
      next.definition = root.definition ∧
      ∃ now, ((before.filter fun m => decide (m.place = turn.place)).map Turn.exchange).head? =
        some ⟨.clock, now⟩ ∧ next.IsNextRun d.job now := by
  have hturn : turn ∈ f.history := hhistory ▸ List.mem_append_right _ List.mem_cons_self
  obtain ⟨birth, hbirth, hborn, hdefinition⟩ :=
    h.born_of_turn hquiet honce hnamed hturn htask (hbatch ▸ rfl)
  obtain ⟨birth', hbirth', hborn', hdefinition'⟩ :=
    h.born_of_descends hquiet honce hnamed hroot hdescends
  obtain rfl := honce.birth_eq hbirth hbirth' (hborn.trans hborn'.symm)
  obtain ⟨g, g', thread, hg, rfl, hsame, honceCut, hacc⟩ :=
    h.cut_accepts hquiet honce hnamed hhistory hbatch
  have hearlier : g.history <+: f.history := hhistory ▸ List.prefix_append _ _
  have hthread : thread.task = .run seat d := hsame.trans htask
  obtain ⟨interval', uuid, now, hsucceeds⟩ := hacc.succeeds hg honceCut hthread hins
  have hinterval : d.job.interval = some interval := by
    rw [← hrecurs]
    exact congrArg Job.Definition.interval (hdefinition.symm.trans hdefinition')
  obtain rfl : interval' = interval := Option.some.inj (hsucceeds.recurs.symm.trans hinterval)
  have hdue : d.job.isDue now = true :=
    hg.due_of_run hquiet honceCut.of_append (fun turn hmem => hnamed turn (hearlier.mem hmem))
      (hclock.sublist (hearlier.filterMap _).sublist) hacc.here hthread
      (List.mem_of_mem_head? hsucceeds.clock)
  refine ⟨hsucceeds.batch, ?_, now, ?_, ?_⟩
  · rw [hsucceeds.made, Job.definition_nextRun, ← hdefinition, hdefinition']
  · obtain ⟨n, hplace⟩ := hg.exists_worker hacc.here hthread
    have htalk := hg.talk_of_worker (hplace ▸ hacc.here)
    rw [hplace, ← htalk]
    exact hsucceeds.clock
  · rw [hsucceeds.made]
    exact Job.isNextRun_nextRun _ hinterval hpos hdue

/-- From when a recurring job is stored, exactly one of its runs is stored at all times, as long as no
operator was told that one of them is cancelled; and from then on none is.  Each run but the first is
inserted in the batch that deletes the one before, which is its next run as of the time that the worker
has read first. -/
theorem Reachable.recurrence_conserved (h : Reachable s f) (honce : s.InsertsOnce f.log)
    (hnamed : ∀ turn ∈ f.history, turn.task.isNamed = true) (hclock : f.readings.Pairwise (· ≤ ·))
    {root : Job} (hroot : root ∈ s.births f.log.flatten) {interval : Duration}
    (hrecurs : root.interval = some interval) (hpos : 0 < interval.nanos) :
    ((∀ id, f.Descends root.id id → ¬ f.IsCancelled id) →
      ∃! id, f.Descends root.id id ∧ (f.store.jobs.find? id).isSome = true) ∧
    (∀ id, f.Descends root.id id → f.IsCancelled id →
      ∀ g, Relation.ReflTransGen Step f g → s.InsertsOnce g.log →
        (∀ turn ∈ g.history, turn.task.isNamed = true) →
        ∀ k, g.Descends root.id k → g.store.jobs.find? k = none) ∧
    ∀ before turn after seat d ws next, f.history = before ++ turn :: after →
      turn.task = .run seat d → f.Descends root.id d.job.id → turn.batch? = some ws →
      .insert next ∈ ws →
        ws = [.delete d.job.id (.exactly d.job.revision), .insert next] ∧
        next.definition = root.definition ∧
        ∃ now, ((before.filter fun m => decide (m.place = turn.place)).map Turn.exchange).head? =
          some ⟨.clock, now⟩ ∧ next.IsNextRun d.job now := by
  have hsome : root.interval ≠ none := by
    rw [hrecurs]
    exact Option.some_ne_none _
  refine ⟨fun huncancelled => ?_, fun id hid hcancelled g hsteps honceLater hnamedLater k hk => ?_,
    fun before turn after seat d ws next hhistory htask hdescends hbatch hins =>
      h.isNextRun hquiet honce hnamed hclock hroot hrecurs hpos hhistory htask hdescends hbatch hins⟩
  · cases h.conserves hquiet honce hnamed hroot hsome with
    | @goesOn row member stored sole uncancelled =>
      refine ⟨row.id, ⟨member, stored ▸ rfl⟩, ?_⟩
      rintro id ⟨hid, hstored⟩
      obtain ⟨other, hother⟩ := Option.isSome_iff_exists.1 hstored
      exact sole id hid other hother
    | isOver member cancelled gone =>
      exact absurd (h.isCancelled_iff.2 cancelled) (huncancelled _ member)
  · obtain ⟨hg, hearlier⟩ := h.steps hsteps
    obtain ⟨turn, hturn, hcancels⟩ := h.isCancelled_iff.1 hcancelled
    cases hg.conserves hquiet honceLater hnamedLater (births_subset s hearlier hroot) hsome with
    | goesOn member stored sole uncancelled =>
      exact absurd ⟨turn, hearlier.mem hturn, hcancels⟩ (uncancelled id (hid.mono hearlier))
    | isOver member cancelled gone => exact gone k hk

end

end Fleet

/-! ## A job that recurs -/

/-- A stored job that recurs every five milliseconds. -/
def Job.recurring (name : String) : Job := { Job.mail name with interval := some (.ofMillis 5) }

namespace Fleet

/-- The left engine has executed the first job, and the next run has taken its place. -/
def renewal : Fleet Engine.ofPair :=
  (start Engine.ofPair (.ofTwo (.recurring "first") (.mail "second"))).play
    [.begin (.cycle true) (.acquire true 1) rfl, .call (.cycle true) 12 .early,
      .call (.worker 8) 4 .early]

theorem one_run_stored_after_renewal :
    Reachable (.ofTwo (.recurring "first") (.mail "second")) renewal ∧
      (Store.ofTwo (.recurring "first") (.mail "second")).InsertsOnce renewal.log ∧
      (renewal.history.all fun turn => turn.task.isNamed && turn.task.seat?.isSome) = true ∧
      renewal.readings.Pairwise (· ≤ ·) ∧
      Job.recurring "first" ∈
        (Store.ofTwo (.recurring "first") (.mail "second")).births renewal.log.flatten ∧
      renewal.store.jobs.find? ⟨"first"⟩ = none ∧
      (renewal.store.jobs.find? (.ofUuid .nil)).map Job.due =
        some (some (Instant.epoch.afterOrLast (.ofMillis 5))) ∧
      ∃! id, renewal.Descends ⟨"first"⟩ id ∧ (renewal.store.jobs.find? id).isSome = true := by
  have hreachable : Reachable (.ofTwo (.recurring "first") (.mail "second")) renewal :=
    Reachable.start.play _
  have honce : (Store.ofTwo (.recurring "first") (.mail "second")).InsertsOnce renewal.log := by
    unfold Store.InsertsOnce
    decide +kernel
  have htasks :
      (renewal.history.all fun turn => turn.task.isNamed && turn.task.seat?.isSome) = true := by
    decide +kernel
  have hclock : renewal.readings.Pairwise (· ≤ ·) := by decide +kernel
  have hbirth : Job.recurring "first" ∈
      (Store.ofTwo (.recurring "first") (.mail "second")).births renewal.log.flatten := by
    decide +kernel
  have hall := fun turn hmem => Bool.and_eq_true_iff.1 (List.all_eq_true.1 htasks turn hmem)
  have hconserved := hreachable.recurrence_conserved (fun _ _ _ => Engine.stagesNothing_ofPair) honce
    (fun turn hmem => (hall turn hmem).1) hclock hbirth rfl (show 0 < (Duration.ofMillis 5).nanos by decide)
  refine ⟨hreachable, honce, htasks, hclock, hbirth, by decide +kernel, by decide +kernel,
    hconserved.1 fun id _ hcancelled => ?_⟩
  obtain ⟨turn, hturn, ⟨operator, htask⟩, -⟩ := hreachable.isCancelled_iff.1 hcancelled
  have hseat := (hall turn hturn).2
  rw [htask] at hseat
  cases hseat

end Fleet

end DeferredWork

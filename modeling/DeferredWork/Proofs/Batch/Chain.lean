import DeferredWork.Cluster.Session
import DeferredWork.Proofs.Batch.Step
import DeferredWork.Proofs.Job.Recurrence

set_option autoImplicit false

/-!
# A batch from its first step to its last

A node that nobody disturbs and that finds nothing but the job of a step of a batch executes that
step in its next turn, and leaves the job of the next step, or none after the last
(`World.turn_of_some`).  So in its turns it executes the steps of the batch each once and in their
order, and then there is nothing left to do (`World.batch_runs_each_step_once`).
-/

namespace DeferredWork

variable {ε : Type → Type} {σ : Type}

/-! ## Executions -/

/-- What comes of running a dispatched job: the rows that were read, the batches that the store took,
and how it ended. -/
structure Execution where
  told : List Job
  batches : List (List Write)
  outcome : Except String (Except TransactionError ExecutionOutcome)

/-- The execution of a step that was committed. -/
def Execution.completed (row : Job) (successor : Option Job) : Execution where
  told := [row]
  batches := [BatchStep.closing row successor]
  outcome := .ok (.ok (.committed .deleted))

namespace World

/-- The execution of a job by a worker of a node. -/
def execution (s : Surroundings ε σ) (seat : Nat) (engine : Engine ε) (d : Dispatched)
    (w : World σ) : Execution where
  told := (w.said s seat (engine.runJob d)).flatMap Exchange.told
  batches := (w.said s seat (engine.runJob d)).filterMap Exchange.batch?
  outcome := (w.run s seat (engine.runJob d)).1

/-- The executions while a node works through dispatched jobs. -/
def executions (s : Surroundings ε σ) (seat : Nat) (engine : Engine ε) :
    List Dispatched → World σ → List Execution
  | [], _ => []
  | d :: ds, w =>
    w.execution s seat engine d :: executions s seat engine ds (w.run s seat (engine.work d)).2

/-- The executions in the share of a node in a round. -/
def executed (s : Surroundings ε σ) (handlers : Registry (Handler ε)) (batch seat : Nat)
    (w : World σ) : List Execution :=
  match w.cluster.nodes[seat]? with
  | none => []
  | some node =>
    let engine := node.engine handlers
    let (result, w) := w.run s seat (engine.acquire batch)
    let (_, w) := w.noteCycle seat result
    let (jobs, w) := w.takeBacklog seat
    w.executions s seat engine jobs

/-- The turns of one node, with the number of jobs for which it polls in each. -/
def takeTurns (s : Surroundings ε σ) (handlers : Registry (Handler ε)) (seat : Nat) :
    List Nat → World σ → World σ
  | [], w => w
  | batch :: batches, w => takeTurns s handlers seat batches (w.nodeRound s handlers batch seat).2

/-- The executions in the turns of one node. -/
def executedIn (s : Surroundings ε σ) (handlers : Registry (Handler ε)) (seat : Nat) :
    List Nat → World σ → List Execution
  | [], _ => []
  | batch :: batches, w =>
    w.executed s handlers batch seat ++
      executedIn s handlers seat batches (w.nodeRound s handlers batch seat).2

end World

/-! ## Relays -/

/-- Steps are executed one after the other from the job of a name on.  Each execution reads its job,
which is told the step, and ends with one batch that deletes the job and, unless the step is the
last, inserts the job that the next execution reads. -/
inductive Relay (scope : Option ScopeId) (exclusive : Bool) :
    JobId → List BatchStep → List Execution → Prop where
  | stop (id : JobId) : Relay scope exclusive id [] []
  | last {row : Job} {step : BatchStep} (hstep : row.IsStep scope exclusive step)
      (hlast : step.next? = none) :
      Relay scope exclusive row.id [step] [.completed row none]
  | pass {row followUp : Job} {step next : BatchStep} {steps : List BatchStep}
      {executions : List Execution} (hstep : row.IsStep scope exclusive step)
      (hnext : step.next? = some next) (hfollows : followUp.IsStep scope exclusive next)
      (rest : Relay scope exclusive followUp.id steps executions) :
      Relay scope exclusive row.id (step :: steps) (.completed row (some followUp) :: executions)

/-! ## A turn -/

/-- A node can take on a job with a token at any time up to an instant: its pool is empty and has
room, its transactions are given time, its locks end at an instant, and the token is free. -/
structure Node.IsFitFor (node : Node) (token : Option ScopeId) (last : Instant) : Prop where
  idle : node.backlog = []
  room : 0 < node.capacity
  limit_ne : node.limit ≠ .zero
  lockable : ∀ now ≤ last, (now.after? node.lockDuration).isSome = true
  free : ∀ scope ∈ token, node.tokens.isHeld scope = false

theorem Node.IsFitFor.bare {node : Node} {token : Option ScopeId} {last : Instant}
    (h : node.IsFitFor token last) : node.bare.IsFitFor token last :=
  ⟨h.idle, h.room, h.limit_ne, h.lockable, h.free⟩

/-- There is the job of a step and no other, the node can take it on now, and the name that is drawn
next is not the job's. -/
structure Footing.Awaits (last : Instant) (scope : Option ScopeId) (exclusive : Bool)
    (step : BatchStep) (row : Job) (f : Footing) : Prop where
  holds : f.store.Holds (some row)
  isStep : row.IsStep scope exclusive step
  acquirable : row.isAcquirable f.clock = true
  within : f.clock ≤ last
  fit : f.node.IsFitFor (if exclusive then scope else none) last
  new : row.id ≠ .ofUuid (.drawn f.era (f.draws + 1))

/-- When a step has passed, the job of the next one is awaited. -/
theorem Footing.Awaits.next {last : Instant} {scope : Option ScopeId} {exclusive : Bool}
    {step : BatchStep} {row locked followUp : Job} {f f' : Footing}
    (h : f.Awaits last scope exclusive step row) (hlocked : locked.IsStep scope exclusive step)
    (hfits : step.Fits) (hpasses : step.Passes locked last f (some followUp) f') :
    ∃ next, step.next? = some next ∧ followUp.IsStep scope exclusive next ∧
      f'.Awaits last scope exclusive next followUp.inserted := by
  obtain ⟨next, hnext, hfollows, hname, hacquirable⟩ := hpasses.follows hlocked hfits
  refine ⟨next, hnext, hfollows, hpasses.holds, hfollows.inserted, hacquirable _,
    hpasses.within h.within, hpasses.node_eq ▸ h.fit, ?_⟩
  rw [hpasses.era_eq, hpasses.draws_eq]
  change followUp.id ≠ _
  rw [hname]
  exact Ne.symm (JobId.ofUuid_drawn_succ_ne _ _)

namespace World

variable {s : Surroundings ε σ} {handlers : Registry (Handler ε)} {last : Instant}
  {w w₁ : World σ} {batch seat : Nat} {node : Node} {f f₁ : Footing} {report : CycleReport}

theorem footing?_noteCycle (hf : w.footing? seat = some f)
    (result : Except String (Except AcquisitionError CycleReport)) :
    (w.noteCycle seat result).2.footing? seat = some f := by
  unfold noteCycle
  split <;> exact footing?_modifyNode (g := id) hf fun _ => rfl

/-- A turn in which the acquisition comes to an end works through what the pool holds then. -/
theorem nodeRound_of_run (hnode : w.cluster.nodes[seat]? = some node)
    {result : Except String (Except AcquisitionError CycleReport)}
    (hrun : w.run s seat ((node.engine handlers).acquire batch) = (result, w₁))
    (hf₁ : w₁.footing? seat = some f₁) :
    ∃ w₂ : World σ, w₂.footing? seat = some (f₁.onNode fun node => { node with backlog := [] }) ∧
      (w.nodeRound s handlers batch seat).2 =
        w₂.workThrough s seat (node.engine handlers) f₁.node.backlog ∧
      w.executed s handlers batch seat =
        w₂.executions s seat (node.engine handlers) f₁.node.backlog := by
  have hnoted := footing?_noteCycle hf₁ result
  obtain ⟨node₁, hnode₁, rfl⟩ := footing?_eq_some_iff.1 hnoted
  have hjobs : ((w₁.noteCycle seat result).2.takeBacklog seat).1 = node₁.backlog := by
    rw [takeBacklog, hnode₁]
    rfl
  refine ⟨((w₁.noteCycle seat result).2.takeBacklog seat).2,
    footing?_modifyNode hnoted fun _ => rfl, ?_, ?_⟩
  · simp only [nodeRound, hnode, hrun, hjobs]
    rfl
  · simp only [executed, hnode, hrun, hjobs]
    rfl

/-- A turn in which there is no job executes none. -/
theorem turn_of_none (handlers : Registry (Handler ε)) (hs : s.LetsTimePass last)
    (hf : w.footing? seat = some f) (hidle : f.node.backlog = []) (hstore : f.store.Holds none)
    (batch : Nat) :
    w.executed s handlers batch seat = [] ∧
      ∃ f', (w.nodeRound s handlers batch seat).2.footing? seat = some f' ∧ f.Waits last f' := by
  obtain ⟨node, hnode, rfl⟩ := footing?_eq_some_iff.1 hf
  have hcycle : ((node.engine handlers).runCycle batch).Attains (Footing.Replies last) _ _ :=
    Engine.attains_runCycle_of_none hstore batch
  have hacquire := Engine.attains_acquire hcycle
  obtain ⟨_, w₁, f₁, hrun, hf₁, rfl, hwaits⟩ := run_attained hs hf hacquire
  obtain ⟨w₂, hf₂, hround, hexecuted⟩ := nodeRound_of_run hnode hrun hf₁
  have hempty : f₁.node.backlog = [] := by rwa [hwaits.node_eq]
  rw [hempty] at hround hexecuted
  have hnode₁ : f₁.onNode (fun node => { node with backlog := [] }) = f₁ := by
    obtain ⟨t, -, -, rfl⟩ := hwaits
    simp only [Footing.onNode]
    rw [← hidle]
  refine ⟨hexecuted, f₁, ?_, hwaits⟩
  rw [hround, ← hnode₁]
  exact hf₂

/-- A worker whose execution ends leaves it at that. -/
theorem run_work {engine : Engine ε} {d : Dispatched} {outcome : ExecutionOutcome}
    (h : w.run s seat (engine.runJob d) = (.ok (.ok outcome), w₁)) :
    (w.run s seat (engine.work d)).2 = w₁ := by
  change (w.run s seat ((engine.runJob d).bind _)).2 = w₁
  rw [run_bind h]
  rfl

variable {scope : Option ScopeId} {exclusive : Bool} {step : BatchStep} {row : Job}

/-- A worker that runs the locked job of a step executes the step and gives the token back. -/
theorem execution_of_step (node : Node) (d : Dispatched) (hs : s.LetsTimePass last)
    (hf : w.footing? seat = some f) (hlimit : node.limit ≠ .zero)
    (hstore : f.store.Holds (some d.job)) (howner : d.job.isLockedBy node.owner = true)
    (hstep : d.job.IsStep scope exclusive step)
    (hnew : d.job.id ≠ .ofUuid (.drawn f.era (f.draws + 1))) :
    ∃ (successor : Option Job) (f' : Footing),
      w.execution s seat (node.engine stockHandlers) d = .completed d.job successor ∧
      (w.run s seat ((node.engine stockHandlers).work d)).2.footing? seat =
        some (f'.onNode fun node => { node with tokens := node.tokens.restored d.token }) ∧
      step.Passes d.job last f successor f' := by
  let engine : Engine ε := node.engine stockHandlers
  have hresolve : engine.handlers.resolve d.job.kind = some BatchStep.handler := by
    rw [hstep.kind]
    exact BatchStep.resolve_stock
  have hrunJob := engine.attains_runJob (Q := fun told batches f' => ∃ successor,
    told = [d.job] ∧ batches = [BatchStep.closing d.job successor] ∧
      step.Passes d.job last f successor f') hresolve
    (BatchStep.attains_executeStep hlimit hstore howner hstep hnew)
  obtain ⟨_, w₁, _, hrun, hf₁, rfl, f', ⟨successor, htold, hbatches, hpasses⟩, rfl⟩ :=
    run_attained hs hf hrunJob
  refine ⟨successor, f', ?_, ?_, hpasses⟩
  · rw [execution, Execution.completed, htold, hbatches, hrun]
  · rw [run_work hrun]
    exact hf₁

/-- The token that was taken for the dispatch comes back with the execution, and the pool is empty
again. -/
theorem passes_turn {token : Option ScopeId} {d : Dispatched} {held : Store} {locked : Job}
    {successor : Option Job} {f' : Footing} (hfit : f.node.IsFitFor token last)
    (hwaits : ((f.withStore held).dispatched token d).Waits last f₁)
    (hpasses : step.Passes locked last (f₁.onNode fun node => { node with backlog := [] })
      successor f') :
    step.Passes locked last f successor
      (f'.onNode fun node => { node with tokens := node.tokens.restored token }) := by
  obtain ⟨t, -, hwithin, rfl⟩ := hwaits
  refine ⟨hpasses.succeeds, hpasses.holds, hpasses.era_eq, hpasses.draws_eq, ?_,
    fun hclock => hpasses.within (hwithin hclock)⟩
  simp only [Footing.onNode, hpasses.node_eq, Footing.dispatched, Footing.withStore,
    ScopeTokens.restored_without hfit.free]
  rw [← hfit.idle]

/-- A turn in which there is the job of a step and no other executes the step, and the job of the
next step, or none, takes its place. -/
theorem turn_of_some (hs : s.LetsTimePass last) (hf : w.footing? seat = some f)
    (h : f.Awaits last scope exclusive step row) (batch : Nat) :
    ∃ (locked : Job) (successor : Option Job) (f' : Footing), locked.id = row.id ∧
      locked.IsStep scope exclusive step ∧
      w.executed s stockHandlers batch seat = [.completed locked successor] ∧
      (w.nodeRound s stockHandlers batch seat).2.footing? seat = some f' ∧
      step.Passes locked last f successor f' := by
  obtain ⟨node, hnode, rfl⟩ := footing?_eq_some_iff.1 hf
  have hfit := h.fit
  rw [← h.isStep.exclusivityScope_eq] at hfit
  have hroom : node.backlog.length < node.capacity := by
    rw [show node.backlog = [] from hfit.idle]
    exact hfit.room
  let engine : Engine ε := node.engine stockHandlers
  have hacquire := Engine.attains_acquire (engine.attains_runCycle_of_some hfit.limit_ne h.holds
    h.acquirable h.within hfit.lockable hroom hfit.free batch)
  obtain ⟨_, w₁, f₁, hrun, hf₁, rfl, time, locked, held, hlocks, hholds, hwaits⟩ :=
    run_attained hs hf hacquire
  obtain ⟨w₂, hf₂, hround, hexecuted⟩ := nodeRound_of_run hnode hrun hf₁
  have hbacklog : f₁.node.backlog = [⟨locked, row.exclusivityScope⟩] := by
    rw [hwaits.node_eq]
    change node.backlog ++ _ = _
    rw [show node.backlog = [] from hfit.idle]
    rfl
  rw [hbacklog] at hround hexecuted
  have hstore : f₁.store.Holds (some locked) := by
    rw [hwaits.store_eq]
    exact hholds
  have hnew : locked.id ≠ .ofUuid (.drawn f₁.era (f₁.draws + 1)) := by
    obtain ⟨t, -, -, rfl⟩ := hwaits
    rw [hlocks.id_eq]
    exact h.new
  have hlocked := h.isStep.of_locks hlocks
  obtain ⟨successor, f', hexecution, hf', hpasses⟩ := execution_of_step node
    ⟨locked, row.exclusivityScope⟩ hs hf₂ hfit.limit_ne hstore hlocks.isLockedBy hlocked hnew
  rw [workThrough, workThrough] at hround
  rw [← hround] at hf'
  refine ⟨locked, successor, _, hlocks.id_eq, hlocked, ?_, hf', passes_turn hfit hwaits hpasses⟩
  rw [hexecuted, executions, executions, hexecution]

/-! ## Turn after turn -/

/-- Where there is no job, turns execute none. -/
theorem turns_of_none (handlers : Registry (Handler ε)) (hs : s.LetsTimePass last)
    (hf : w.footing? seat = some f) (hidle : f.node.backlog = []) (hstore : f.store.Holds none)
    (batches : List Nat) :
    w.executedIn s handlers seat batches = [] ∧
      ∃ f', (w.takeTurns s handlers seat batches).footing? seat = some f' ∧ f'.store.Holds none := by
  induction batches generalizing w f with
  | nil => exact ⟨rfl, f, hf, hstore⟩
  | cons batch batches ih =>
    obtain ⟨hnone, f₁, hf₁, hwaits⟩ := turn_of_none handlers hs hf hidle hstore batch
    obtain ⟨hrest, f', hf', hstore'⟩ :=
      ih hf₁ (hwaits.node_eq.symm ▸ hidle) (hwaits.store_eq.symm ▸ hstore)
    exact ⟨by rw [executedIn, hnone, hrest, List.nil_append], f', hf', hstore'⟩

/-- Where the job of a step is awaited, each turn executes one step of the batch, until there is
none left. -/
theorem turns_of_awaits (hs : s.LetsTimePass last) (hf : w.footing? seat = some f)
    (h : f.Awaits last scope exclusive step row) (hfits : step.Fits) (batches : List Nat) :
    Relay scope exclusive row.id (step.onwards.take batches.length)
        (w.executedIn s stockHandlers seat batches) ∧
      ∃ left f', (w.takeTurns s stockHandlers seat batches).footing? seat = some f' ∧
        f'.store.Holds left ∧ (left = none ↔ step.onwards.length ≤ batches.length) := by
  induction batches generalizing w f step row with
  | nil =>
    refine ⟨.stop _, some row, f, hf, h.holds, ?_⟩
    exact iff_of_false (Option.some_ne_none row) (Nat.not_le.2 step.length_onwards_pos)
  | cons batch batches ih =>
    obtain ⟨locked, successor, f₁, hname, hlocked, hexecuted, hf₁, hpasses⟩ :=
      turn_of_some hs hf h batch
    rw [executedIn, hexecuted, List.singleton_append, ← hname]
    cases successor with
    | none =>
      have hlast := hpasses.next?_eq_none
      obtain ⟨hrest, f', hf', hstore'⟩ := turns_of_none stockHandlers hs hf₁
        (hpasses.node_eq.symm ▸ h.fit.idle) hpasses.holds batches
      rw [hrest, BatchStep.onwards_of_last hlast, List.length_cons, List.take_succ_cons,
        List.take_nil]
      exact ⟨.last hlocked hlast, none, f', hf', hstore',
        iff_of_true rfl (Nat.succ_le_succ (Nat.zero_le _))⟩
    | some followUp =>
      obtain ⟨next, hnext, hfollows, hawaits⟩ := h.next hlocked hfits hpasses
      obtain ⟨hrelay, left, f', hf', hholds, hleft⟩ := ih hf₁ hawaits (hfits.next hnext)
      rw [BatchStep.onwards_of_next hnext]
      refine ⟨.pass hlocked hnext hfollows hrelay, left, f', hf', hholds, ?_⟩
      rw [hleft, List.length_cons, List.length_cons, Nat.succ_le_succ_iff]

/-- **A batch runs each of its steps once.**  While nobody disturbs a node and there is nothing but the
job of a step that can be acquired, the turns of the node execute the steps of the batch from that
one on, each once and in their order, and pass the job on in the batch that deletes it.  There is no
job left exactly if there were turns enough.  What is written for a next step is read as that
step. -/
theorem batch_runs_each_step_once {job : Job} (hs : s.LetsTimePass last)
    (hstore : w.cluster.store.Holds (some job)) (hstep : job.IsStep scope exclusive step)
    (hfits : step.Fits) (hacquirable : job.isAcquirable w.cluster.clock = true)
    (hnew : job.id ≠ .ofUuid (.drawn w.cluster.era (w.cluster.draws + 1)))
    (hnode : w.cluster.nodes[seat]? = some node) (hfit : node.IsFitFor job.exclusivityScope last)
    (hclock : w.cluster.clock ≤ last) (batches : List Nat) :
    Relay scope exclusive job.id (step.onwards.take batches.length)
        (w.executedIn s stockHandlers seat batches) ∧
      ((w.takeTurns s stockHandlers seat batches).cluster.store.jobs.rows = [] ↔
        step.onwards.length ≤ batches.length) ∧
      ∀ other : BatchStep, other.Fits →
        ∀ next ∈ other.next?, BatchStep.read next.write = some next := by
  obtain ⟨f, hf⟩ : ∃ f, w.footing? seat = some f :=
    ⟨_, footing?_eq_some_iff.2 ⟨node, hnode, rfl⟩⟩
  have hawaits : f.Awaits last scope exclusive step job := by
    obtain ⟨node', hnode', rfl⟩ := footing?_eq_some_iff.1 hf
    obtain rfl := Option.some.inj (hnode.symm.trans hnode')
    rw [hstep.exclusivityScope_eq] at hfit
    exact ⟨hstore, hstep, hacquirable, hclock, hfit.bare, hnew⟩
  obtain ⟨hrelay, left, f', hf', hholds, hleft⟩ := turns_of_awaits hs hf hawaits hfits batches
  refine ⟨hrelay, ?_, fun other hother next hnext =>
    BatchStep.read_write (hother.next hnext)⟩
  obtain ⟨_, -, rfl⟩ := footing?_eq_some_iff.1 hf'
  rw [← hleft, hholds.rows_eq, Option.toList_eq_nil_iff]

/-! ### The end of an import -/

/-- The fourth of five steps. -/
def fourthImport : BatchStep := { batch := "nightly \"import\"", step := 3, total := 5 }

/-- The job of the fourth step. -/
def importJob : Job :=
  { Job.new ⟨"fourth"⟩ batchKind .epoch with
    payload := some fourthImport.write
    scope := some ⟨"tenant"⟩ }

/-- A node with room for one job. -/
def importer : Node where
  name := "left"
  owner := ⟨"left"⟩
  lockDuration := .ofMillis 5
  limit := .ofMillis 1
  backoff _ := .zero
  capacity := 1

/-- The node at the start of 1970, when it finds the job. -/
def importing : World Unit where
  cluster :=
    { store :=
        { Store.empty with
          jobs := { rows := [importJob], sorted := List.pairwise_singleton _ _ } }
      clock := .epoch
      wall := .epoch
      nodes := [importer] }
  scene := ()

/-- In three turns the last two steps of the import are executed, and nothing is left. -/
theorem import_ends_with_its_steps :
    Relay (some ⟨"tenant"⟩) true ⟨"fourth"⟩ [fourthImport, { fourthImport with step := 4 }]
        (importing.executedIn NoQuestion.surroundings stockHandlers 0 [1, 4, 2]) ∧
      (importing.takeTurns NoQuestion.surroundings stockHandlers 0
        [1, 4, 2]).cluster.store.jobs.rows = [] := by
  have hquiet : NoQuestion.surroundings.LetsTimePass importing.cluster.clock :=
    Surroundings.quiet_letsTimePass fun q => nomatch q
  have hstore : importing.cluster.store.Holds (some importJob) := ⟨rfl, rfl⟩
  have hfits : fourthImport.Fits := ⟨by decide, by decide⟩
  have hstep : importJob.IsStep (some ⟨"tenant"⟩) true fourthImport :=
    { kind := rfl
      told := (Option.bind_some _ _).trans (BatchStep.read_write hfits)
      once := rfl
      scope_eq := rfl
      exclusive_eq := rfl }
  have hnode : importing.cluster.nodes[0]? = some importer := rfl
  have hfit : importer.IsFitFor importJob.exclusivityScope importing.cluster.clock :=
    { idle := rfl
      room := by decide
      limit_ne := by decide
      lockable := fun now hnow => Instant.isSome_after? hnow (by decide)
      free := fun _ _ => rfl }
  obtain ⟨hrelay, hleft, -⟩ := batch_runs_each_step_once hquiet hstore hstep hfits rfl
    (by decide +kernel) hnode hfit (Int.le_refl _) [1, 4, 2]
  exact ⟨hrelay, hleft.2 (by decide)⟩

end World

end DeferredWork

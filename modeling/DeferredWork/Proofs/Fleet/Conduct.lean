import DeferredWork.Proofs.Engine.Acquiring
import DeferredWork.Proofs.Engine.Executing
import DeferredWork.Proofs.Fleet.Basic

set_option autoImplicit false

/-!
# The conduct of a fleet

Each task of a fleet has a conduct of its own, and a task is orderly if it is sure to keep it: every
task of an operator, every acquisition cycle, and every run of a job by an engine whose handlers are
fair (`Task.keeps`).  What a task has said is on the record (`Fleet.Reachable.recorded`).  So whatever
a task asks in a fleet that is sure to keep a conduct, the conduct allows, given what the task has
been told so far (`Fleet.Reachable.allowed_of`).
-/

namespace DeferredWork

variable {ι : Type} {ε : Type → Type} {β : Type} {engine : ι → Engine ε}

namespace Task

/-- How the doer of a task conducts itself. -/
def conduct (engine : ι → Engine ε) (scopesFixed : Prop) : Task ι ε → Conduct ε
  | .acquire seat _ => Engine.acquiring (engine seat).owner
  | .run seat d => (engine seat).executing (Write.IsFair (.lenient scopesFixed) none) d
  | _ => Operator.conduct (.lenient scopesFixed)

/-- The task is sure to be done by the rules. -/
def IsOrderly (engine : ι → Engine ε) (scopesFixed : Prop) : Task ι ε → Prop
  | .run seat _ => (engine seat).HasFairHandlers (.lenient scopesFixed)
  | .transact _ _ => False
  | _ => True

/-- The task is one of an engine, or a call of an operator that has a name. -/
def isNamed : Task ι ε → Bool
  | .transact _ _ => false
  | _ => true

theorem keeps {scopesFixed : Prop} {task : Task ι ε} (h : task.IsOrderly engine scopesFixed) :
    (task.routine engine).Keeps (task.conduct engine scopesFixed).rules (fun _ _ => True) [] := by
  cases task with
  | acquire seat batch => exact ((engine seat).keeps_acquire batch).mono fun _ _ _ => trivial
  | run seat d =>
    exact (Engine.keeps_runJob (carries_isFair (.lenient scopesFixed) none) h).mono
      fun _ _ _ => trivial
  | schedule operator job => exact operator.keeps_schedule trivial []
  | cancel operator id => exact operator.keeps_cancel trivial id []
  | setRetries operator id retries => exact operator.keeps_setRetries id retries []
  | suspend operator id => exact operator.keeps_suspend id []
  | activate operator id => exact operator.keeps_activate id []
  | transact limit command => exact h.elim

/-- The job that an engine is at work on, after a conversation: the one whose lock a cycle has in
hand, or the one that a worker runs. -/
def charge (engine : ι → Engine ε) : Task ι ε → List (Exchange (Call ε)) → Option Charge
  | .acquire seat _, talk =>
    (Grip.ofCycle talk).lock.map fun grant => ⟨(engine seat).owner, grant.id⟩
  | .run seat d, _ => some ⟨(engine seat).owner, d.job.id⟩
  | _, _ => none

/-- An acquisition cycle takes a lock on a row that it was told of before it read the clock. -/
inductive TakesLock (engine : ι → Engine ε) :
    Task ι ε → List (Exchange (Call ε)) → List Write → Prop
  | mk {seat : ι} {batch : Nat} {earlier : List (Exchange (Call ε))} {row : Job}
      {expiry now : Instant} (told : row ∈ earlier.flatMap Exchange.told)
      (token : (Grip.ofCycle earlier).token = row.exclusivityScope) :
      TakesLock engine (.acquire seat batch) (earlier ++ [⟨.clock, now⟩])
        [.lock row.id row.revision (engine seat).owner expiry now]

theorem TakesLock.exists_grant {task : Task ι ε} {talk : List (Exchange (Call ε))}
    {ws : List Write} (h : task.TakesLock engine talk ws) : ∃ grant, Grant.ofBatch ws = some grant := by
  cases h with
  | mk told token => exact ⟨_, rfl⟩

/-- An orderly task hands in a lock, or writes that are fair to everybody but the job that it is at
work on. -/
theorem takesLock_or_isFair {scopesFixed : Prop} {task : Task ι ε}
    {talk : List (Exchange (Call ε))} {ws : List Write}
    (h : (task.conduct engine scopesFixed).apply talk ws) :
    task.TakesLock engine talk ws ∨
      ∀ w ∈ ws,
        w.IsFair (.lenient scopesFixed) (task.charge engine talk) (talk.flatMap Exchange.told) := by
  cases task with
  | acquire seat batch =>
    cases h with
    | lock polled token => exact .inl (.mk polled.mem_told token)
    | release holds told named owned =>
      right
      rw [charge, holds.lock, Option.map_some, ← named]
      exact List.forall_mem_singleton.2 (Write.isFair_unlocked told owned rfl rfl rfl)
  | run seat d => exact .inr (h.concludes.isFair (Terms.renews_lenient scopesFixed))
  | _ => exact .inr h

/-- The task is an acquisition cycle. -/
def isAcquisition : Task ι ε → Bool
  | .acquire _ _ => true
  | _ => false

theorem IsOrderly.of_isAcquisition {scopesFixed : Prop} {task : Task ι ε}
    (h : task.isAcquisition = true) : task.IsOrderly engine scopesFixed := by
  cases task with
  | acquire seat batch => trivial
  | _ => cases h

end Task

namespace Fleet

variable [DecidableEq ι] {s : Store} {f : Fleet engine}

/-- What a task has said and been told is on the record. -/
theorem Reachable.recorded (h : Reachable s f) {p : Place ι} {thread : Thread engine}
    (hp : f.threads p = some thread) {exchange : Exchange (Call ε)}
    (hmem : exchange ∈ thread.talk) : ⟨p, thread.task, exchange⟩ ∈ f.history := by
  revert exchange
  refine h.induction_on_threads
    (P := fun _ history p thread => ∀ {exchange}, exchange ∈ thread.talk →
      (⟨p, thread.task, exchange⟩ : Turn ι ε) ∈ history) ?_ ?_ ?_ ?_ p thread hp
  · intro f place task _ _ _ exchange hmem
    cases hmem
  · intro f place thread β call next answer s' _ _ asks _ ih exchange hmem
    rcases List.mem_append.1 hmem with hmem | hmem
    · exact List.mem_append_left _ (ih hmem)
    · obtain rfl := List.mem_singleton.1 hmem
      exact List.mem_append_right _ (List.mem_singleton_self _)
  · intro f place p thread other β call next answer s' _ _ _ _ _ _ ih exchange hmem
    exact List.mem_append_left _ (ih hmem)
  · intro f place thread seat batch d next _ _ _ _ _ exchange hmem
    cases hmem

/-- A time that a task has read is one that a clock has shown. -/
theorem Reachable.mem_readings (h : Reachable s f) {p : Place ι} {thread : Thread engine}
    (hp : f.threads p = some thread) {now : Instant}
    (hclock : (⟨.clock, now⟩ : Exchange (Call ε)) ∈ thread.talk) : now ∈ f.readings :=
  List.mem_filterMap.2 ⟨_, h.recorded hp hclock, rfl⟩

/-- Tasks are done where they belong. -/
theorem Reachable.suits (h : Reachable s f) {p : Place ι} {thread : Thread engine}
    (hp : f.threads p = some thread) : p.Suits thread.task :=
  h.induction_on_threads (P := fun _ _ p thread => p.Suits thread.task)
    (fun _ suits _ => suits) (fun _ _ _ _ ih => ih) (fun _ _ _ _ _ _ ih => ih)
    (fun _ _ _ _ _ => trivial) p thread hp

/-- A cycle is where its engine acquires. -/
theorem Reachable.place_eq (h : Reachable s f) {p : Place ι} {thread : Thread engine}
    (hp : f.threads p = some thread) {seat : ι} {batch : Nat}
    (htask : thread.task = .acquire seat batch) : p = .cycle seat := by
  have hsuits := h.suits hp
  rw [htask] at hsuits
  cases p with
  | cycle k => rw [show k = seat from hsuits]
  | _ => exact hsuits.elim

/-- A worker is at a place of its own. -/
theorem Reachable.exists_worker (h : Reachable s f) {p : Place ι} {thread : Thread engine}
    (hp : f.threads p = some thread) {seat : ι} {d : Dispatched}
    (htask : thread.task = .run seat d) : ∃ n, p = .worker n := by
  have hsuits := h.suits hp
  rw [htask] at hsuits
  cases p with
  | worker n => exact ⟨n, rfl⟩
  | _ => exact hsuits.elim

/-- The calls of a fleet are answered as is possible. -/
theorem Reachable.plausible (h : Reachable s f) :
    ∀ turn ∈ f.history, turn.exchange.IsPlausible := by
  induction h with
  | start => exact List.forall_mem_nil _
  | step h hstep ih =>
    cases hstep with
    | enter suits vacant => exact ih
    | turn here asks replies =>
      exact List.forall_mem_append.2 ⟨ih, List.forall_mem_singleton.2 replies.answered.plausible⟩
    | reach value => exact ih

theorem Reachable.plausible_talk (h : Reachable s f) {p : Place ι} {thread : Thread engine}
    (hp : f.threads p = some thread) : ∀ exchange ∈ thread.talk, exchange.IsPlausible :=
  fun _ hmem => h.plausible _ (h.recorded hp hmem)

/-- A task that is sure to keep a conduct goes on to keep it. -/
theorem Reachable.keeps_of (h : Reachable s f) {p : Place ι} {thread : Thread engine}
    (hp : f.threads p = some thread) {conduct : Conduct ε}
    {post : List (Exchange (Call ε)) → thread.task.Result → Prop}
    (hkeeps : (thread.task.routine engine).Keeps conduct.rules post []) :
    thread.rest.Keeps conduct.rules post thread.talk :=
  (hkeeps.of_leads thread.leads (h.plausible_talk hp)).1

/-- What such a task asks is allowed after what it has been told. -/
theorem Reachable.allowed_of (h : Reachable s f) {p : Place ι} {thread : Thread engine}
    (hp : f.threads p = some thread) {conduct : Conduct ε}
    {post : List (Exchange (Call ε)) → thread.task.Result → Prop}
    (hkeeps : (thread.task.routine engine).Keeps conduct.rules post [])
    {call : Call ε β} {next : β → Routine ε thread.task.Result}
    (asks : thread.rest = .ask call next) : conduct.rules.allows thread.talk call := by
  have hrest := h.keeps_of hp hkeeps
  rw [asks] at hrest
  exact hrest.1

variable {scopesFixed : Prop}

/-- What an orderly task asks is allowed after what it has been told. -/
theorem Reachable.allowed (h : Reachable s f) {p : Place ι} {thread : Thread engine}
    (hp : f.threads p = some thread) (horderly : thread.task.IsOrderly engine scopesFixed)
    {call : Call ε β} {next : β → Routine ε thread.task.Result}
    (asks : thread.rest = .ask call next) :
    (thread.task.conduct engine scopesFixed).rules.allows thread.talk call :=
  h.allowed_of hp (Task.keeps horderly) asks

/-- What a cycle dispatches, it dispatches by the rules. -/
theorem Reachable.dispatches (h : Reachable s f) {p : Place ι} {thread : Thread engine} {seat : ι}
    {batch : Nat} {d : Dispatched} {next : Bool → Routine ε thread.task.Result}
    (hp : f.threads p = some thread) (htask : thread.task = .acquire seat batch)
    (asks : thread.rest = .ask (.dispatch d) next) :
    Engine.Dispatches (engine seat).owner thread.talk d := by
  have horderly : thread.task.IsOrderly engine True := by
    rw [htask]
    trivial
  have hallowed := h.allowed hp horderly asks
  rw [htask] at hallowed
  exact hallowed

end Fleet

end DeferredWork

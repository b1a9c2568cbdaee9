import Mathlib.Logic.Function.Basic
import DeferredWork.Engine.Acquisition
import DeferredWork.Engine.Execution
import DeferredWork.Engine.Tokens
import DeferredWork.Operator
import DeferredWork.Proofs.Transaction.Service

set_option autoImplicit false

/-!
# Fleets at work

Engines and operators work side by side on one store, one call at a time.  Each engine goes through
one acquisition cycle after the other; each job that its pool accepts gets a worker of its own, which
may start at any time and runs next to everything else; operators call whenever they like.  At each
step a new cycle or call begins, or some task that is under way makes its next call, or the store
goes out of reach or comes back (`Fleet.Step`).  The store answers for itself and each engine has
its own tokens; clocks, pools and whatever else is asked may answer anything.  A fleet remembers all
its calls in order (`Fleet.history`), and what was accepted in them is the history of the store
(`Fleet.Reachable.commits`).
-/

namespace DeferredWork

variable {ι : Type} {ε : Type → Type} {α β : Type}

/-! ## What is done -/

/-- What an engine at some seat, or an operator, is set to do. -/
inductive Task (ι : Type) (ε : Type → Type) : Type 1 where
  /-- One acquisition cycle. -/
  | acquire (seat : ι) (batch : Nat)
  | run (seat : ι) (dispatched : Dispatched)
  | schedule (operator : Operator) (job : Job)
  | cancel (operator : Operator) (id : JobId)
  | setRetries (operator : Operator) (id : JobId) (retries : Nat)
  | suspend (operator : Operator) (id : JobId)
  | activate (operator : Operator) (id : JobId)
  /-- Any other command, as one transaction. -/
  | transact {α : Type} (limit : Duration) (command : Command ε α)

namespace Task

/-- What comes out of a task. -/
def Result : Task ι ε → Type
  | .acquire _ _ => Except AcquisitionError CycleReport
  | .run _ _ => Except TransactionError ExecutionOutcome
  | .schedule _ _ => Except TransactionError JobId
  | .cancel _ _ => Except TransactionError Bool
  | .setRetries _ _ _ => Except TransactionError Job
  | .suspend _ _ => Except TransactionError Job
  | .activate _ _ => Except TransactionError Job
  | @transact _ _ α _ _ => Except TransactionError α

/-- How a task is done. -/
def routine (engine : ι → Engine ε) : (task : Task ι ε) → Routine ε task.Result
  | .acquire seat batch => (engine seat).acquire batch
  | .run seat dispatched => (engine seat).runJob dispatched
  | .schedule operator job => operator.schedule job
  | .cancel operator id => operator.cancel id
  | .setRetries operator id retries => operator.setRetries id retries
  | .suspend operator id => operator.suspend id
  | .activate operator id => operator.activate id
  | .transact limit command => Transaction.run limit command

/-- The seat of the engine that does a task. -/
def seat? : Task ι ε → Option ι
  | .acquire seat _ => some seat
  | .run seat _ => some seat
  | _ => none

end Task

/-- Where a task is done. -/
inductive Place (ι : Type) where
  /-- Where an engine goes through its acquisition cycles, one after the other. -/
  | cycle (seat : ι)
  /-- The worker for a dispatched job. -/
  | worker (number : Nat)
  /-- A call of an operator. -/
  | call (number : Nat)
  deriving DecidableEq

/-- Which tasks are done where. -/
def Place.Suits : Place ι → Task ι ε → Prop
  | .cycle here, .acquire seat _ => here = seat
  | .worker _, .run _ _ => True
  | .call _, .acquire _ _ => False
  | .call _, .run _ _ => False
  | .call _, _ => True
  | _, _ => False

/-- A task that is under way: what was said, and how it goes on. -/
structure Thread (engine : ι → Engine ε) : Type 1 where
  task : Task ι ε
  talk : List (Exchange (Call ε))
  rest : Routine ε task.Result
  leads : (task.routine engine).Leads talk rest

namespace Thread

variable {engine : ι → Engine ε}

/-- A task that begins. -/
def start (engine : ι → Engine ε) (task : Task ι ε) : Thread engine where
  task := task
  talk := []
  rest := task.routine engine
  leads := .stop _

/-- The task after its next call was answered. -/
def goOn (thread : Thread engine) {call : Call ε β} {next : β → Routine ε thread.task.Result}
    (asks : thread.rest = .ask call next) (answer : β) : Thread engine where
  task := thread.task
  talk := thread.talk ++ [⟨call, answer⟩]
  rest := next answer
  leads := by
    refine thread.leads.append ?_
    rw [asks]
    exact .ask (.stop _)

/-- The task makes no more calls. -/
def isOver (thread : Thread engine) : Bool := thread.rest.isOver

end Thread

/-- A call that was made, by which task and where. -/
structure Turn (ι : Type) (ε : Type → Type) : Type 1 where
  place : Place ι
  task : Task ι ε
  exchange : Exchange (Call ε)

namespace Turn

/-- The batch that was accepted. -/
def batch? (turn : Turn ι ε) : Option (List Write) := Event.batch? (.own turn.exchange)

/-- The time that the clock showed. -/
def reading? (turn : Turn ι ε) : Option Instant :=
  match turn.exchange with
  | ⟨.clock, now⟩ => some now
  | _ => none

/-- The job that the pool of an engine accepted, with the engine's seat. -/
def accepted? (turn : Turn ι ε) : Option (ι × Dispatched) :=
  match turn.task, turn.exchange with
  | .acquire seat _, ⟨.dispatch d, true⟩ => some (seat, d)
  | _, _ => none

theorem accepted?_eq_some_iff {turn : Turn ι ε} {seat : ι} {d : Dispatched} :
    turn.accepted? = some (seat, d) ↔
      ∃ batch, turn.task = .acquire seat batch ∧ turn.exchange = ⟨.dispatch d, true⟩ := by
  obtain ⟨place, task, question, answer⟩ := turn
  constructor
  · intro h
    unfold accepted? at h
    split at h
    · rename_i htask hexchange
      cases h
      exact ⟨_, htask, hexchange⟩
    · cases h
  · rintro ⟨batch, htask, hexchange⟩
    dsimp only at htask hexchange
    rw [accepted?, htask, hexchange]

end Turn

/-! ## Fleets -/

/-- The tokens of an engine after one of its calls. -/
def ScopeTokens.after (tokens : ScopeTokens) : Exchange (Call ε) → ScopeTokens
  | ⟨.takeToken scope, true⟩ => (tokens.take? scope).getD tokens
  | ⟨.giveToken scope, _⟩ => tokens.giveBack scope
  | _ => tokens

/-- Engines and operators at work on one store. -/
structure Fleet (engine : ι → Engine ε) : Type 1 where
  store : Store
  tokens : ι → ScopeTokens
  threads : Place ι → Option (Thread engine)
  /-- All calls that were made, in order. -/
  history : List (Turn ι ε)

namespace Fleet

variable {engine : ι → Engine ε}

/-- A fleet before anybody has done anything. -/
def start (engine : ι → Engine ε) (s : Store) : Fleet engine where
  store := s
  tokens _ := .allFree
  threads _ := none
  history := []

/-- The batches that the store accepted. -/
def log (f : Fleet engine) : List (List Write) := f.history.filterMap Turn.batch?

/-- The times that clocks showed. -/
def readings (f : Fleet engine) : List Instant := f.history.filterMap Turn.reading?

/-- The jobs that pools accepted, each with the seat of the engine. -/
def accepted (f : Fleet engine) : List (ι × Dispatched) := f.history.filterMap Turn.accepted?

/-- A task may begin here. -/
def isVacant (f : Fleet engine) (place : Place ι) : Bool :=
  match place, f.threads place with
  | .cycle _, some thread => thread.isOver
  | .cycle _, none => true
  | .worker _, _ => false
  | .call _, some _ => false
  | .call _, none => true

/-- A call of the engine at a seat, or of an operator, may be answered like this, and leave this
store. -/
def Replies (f : Fleet engine) (seat : Option ι) : {β : Type} → Call ε β → β → Store → Prop
  | _, .takeToken scope, answer, s' =>
    s' = f.store ∧ ∀ i ∈ seat, answer = !(f.tokens i).isHeld scope
  | _, call, answer, s' => call.Answered f.store answer s'

variable [DecidableEq ι]

/-- The fleet when a task begins. -/
def enter (f : Fleet engine) (place : Place ι) (task : Task ι ε) : Fleet engine :=
  { f with threads := Function.update f.threads place (some (.start engine task)) }

/-- The tasks after a call: a job that a pool accepted gets a worker. -/
def hire (threads : Place ι → Option (Thread engine)) (number : Nat) :
    Option (ι × Dispatched) → Place ι → Option (Thread engine)
  | none => threads
  | some (seat, d) =>
    Function.update threads (.worker number) (some (.start engine (.run seat d)))

/-- The tokens after a call. -/
def passTokens (tokens : ι → ScopeTokens) (exchange : Exchange (Call ε)) :
    Option ι → ι → ScopeTokens
  | none => tokens
  | some seat => Function.update tokens seat ((tokens seat).after exchange)

/-- The fleet after a call, which leaves a task and a store. -/
def advance (f : Fleet engine) (turn : Turn ι ε) (thread : Thread engine) (s' : Store) :
    Fleet engine where
  store := s'
  tokens := passTokens f.tokens turn.exchange turn.task.seat?
  threads :=
    hire (Function.update f.threads turn.place (some thread)) f.history.length turn.accepted?
  history := f.history ++ [turn]

/-- One step of a fleet. -/
inductive Step : Fleet engine → Fleet engine → Prop
  | enter {f : Fleet engine} {place : Place ι} {task : Task ι ε} (suits : place.Suits task)
      (vacant : f.isVacant place = true) : Step f (f.enter place task)
  | turn {f : Fleet engine} {place : Place ι} {thread : Thread engine} {β : Type}
      {call : Call ε β} {next : β → Routine ε thread.task.Result} {answer : β} {s' : Store}
      (here : f.threads place = some thread) (asks : thread.rest = .ask call next)
      (replies : f.Replies thread.task.seat? call answer s') :
      Step f (f.advance ⟨place, thread.task, ⟨call, answer⟩⟩ (thread.goOn asks answer) s')
  | reach {f : Fleet engine} (value : Bool) :
      Step f { f with store := { f.store with available := value } }

/-- The fleets that come about from a store. -/
inductive Reachable (s : Store) : Fleet engine → Prop
  | start : Reachable s (.start engine s)
  | step {f f' : Fleet engine} (h : Reachable s f) (hstep : Step f f') : Reachable s f'

variable {s : Store} {f f' : Fleet engine}

/-! ## Calls and their answers -/

omit [DecidableEq ι] in
theorem Replies.answered {seat : Option ι} {call : Call ε β} {answer : β} {s' : Store}
    (h : f.Replies seat call answer s') : call.Answered f.store answer s' := by
  cases call with
  | takeToken scope => exact h.1
  | _ => exact h

theorem log_advance (f : Fleet engine) (turn : Turn ι ε) (thread : Thread engine) (s' : Store) :
    (f.advance turn thread s').log = f.log ++ turn.batch?.toList := by
  rw [log, advance, List.filterMap_append, log]
  cases h : turn.batch? with
  | none => simp [h]
  | some batch => simp [h]

theorem accepted_advance (f : Fleet engine) (turn : Turn ι ε) (thread : Thread engine)
    (s' : Store) : (f.advance turn thread s').accepted = f.accepted ++ turn.accepted?.toList := by
  rw [accepted, advance, List.filterMap_append, accepted]
  cases h : turn.accepted? with
  | none => simp [h]
  | some job => simp [h]

theorem readings_advance (f : Fleet engine) (turn : Turn ι ε) (thread : Thread engine)
    (s' : Store) : (f.advance turn thread s').readings = f.readings ++ turn.reading?.toList := by
  rw [readings, advance, List.filterMap_append, readings]
  cases h : turn.reading? with
  | none => simp [h]
  | some now => simp [h]

/-- The log is the history of the store. -/
theorem Reachable.commits (h : Reachable s f) : s.Commits f.log f.store := by
  induction h with
  | start => exact .none _
  | step h hstep ih =>
    cases hstep with
    | enter suits vacant => exact ih
    | turn here asks replies =>
      rw [log_advance]
      exact ih.append replies.answered.commits
    | reach value =>
      have hreach := ih.append (.reach value (.none _))
      rwa [List.append_nil] at hreach

/-- At this point the next call of some task may be answered like this, and leave this store. -/
inductive Takes (f : Fleet engine) : Turn ι ε → Store → Prop
  | mk {place : Place ι} {thread : Thread engine} {β : Type} {call : Call ε β}
      {next : β → Routine ε thread.task.Result} {answer : β} {s' : Store}
      (here : f.threads place = some thread) (asks : thread.rest = .ask call next)
      (replies : f.Replies thread.task.seat? call answer s') :
      f.Takes ⟨place, thread.task, ⟨call, answer⟩⟩ s'

/-- A history can be cut before each of its calls. -/
theorem Reachable.cut (h : Reachable s f) {before after : List (Turn ι ε)} {turn : Turn ι ε}
    (hhistory : f.history = before ++ turn :: after) :
    ∃ (g : Fleet engine) (s' : Store), Reachable s g ∧ g.history = before ∧ g.Takes turn s' := by
  induction h generalizing after with
  | start => cases (List.append_eq_nil_iff.1 hhistory.symm).2
  | @step f f' h hstep ih =>
    cases hstep with
    | enter suits vacant => exact ih hhistory
    | @turn place thread _ call next answer s' here asks replies =>
      rcases List.eq_nil_or_concat after with rfl | ⟨after, last, rfl⟩
      · obtain ⟨rfl, hturn⟩ := List.append_inj' hhistory rfl
        obtain rfl := (List.cons.inj hturn).1
        exact ⟨f, s', h, rfl, .mk here asks replies⟩
      · rw [List.concat_eq_append, ← List.cons_append, ← List.append_assoc] at hhistory
        exact ih (List.append_inj' hhistory rfl).1
    | reach value => exact ih hhistory

/-! ## Places -/

theorem threads_enter (f : Fleet engine) (place p : Place ι) (task : Task ι ε) :
    (f.enter place task).threads p =
      if p = place then some (.start engine task) else f.threads p :=
  Function.update_apply f.threads place (some (.start engine task)) p

theorem threads_advance (f : Fleet engine) (turn : Turn ι ε) (thread : Thread engine) (s' : Store)
    {p : Place ι} {found : Thread engine} (h : (f.advance turn thread s').threads p = some found) :
    (∃ seat d, turn.accepted? = some (seat, d) ∧ p = .worker f.history.length ∧
      found = .start engine (.run seat d)) ∨
    (p = turn.place ∧ found = thread) ∨ (p ≠ turn.place ∧ f.threads p = some found) := by
  have hold : ∀ {threads}, threads = Function.update f.threads turn.place (some thread) →
      threads p = some found →
      (p = turn.place ∧ found = thread) ∨ (p ≠ turn.place ∧ f.threads p = some found) := by
    rintro threads rfl hp
    rw [Function.update_apply] at hp
    split at hp
    · rename_i hplace
      exact .inl ⟨hplace, (Option.some.inj hp).symm⟩
    · rename_i hplace
      exact .inr ⟨hplace, hp⟩
  rw [advance] at h
  cases hacc : turn.accepted? with
  | none =>
    rw [hacc] at h
    exact .inr (hold rfl h)
  | some job =>
    obtain ⟨seat, d⟩ := job
    rw [hacc] at h
    dsimp only [hire] at h
    rw [Function.update_apply] at h
    split at h
    · rename_i hplace
      exact .inl ⟨seat, d, rfl, hplace, (Option.some.inj h).symm⟩
    · exact .inr (hold rfl h)

/-- What holds of each task when it begins and after each call of any task, of its own or of
another's, holds of all tasks at all times. -/
theorem Reachable.induction_on_threads
    {P : JobTable → List (Turn ι ε) → Place ι → Thread engine → Prop}
    (henter : ∀ {f : Fleet engine} {place : Place ι} {task : Task ι ε}, Reachable s f →
      place.Suits task → f.isVacant place = true →
      P f.store.jobs f.history place (.start engine task))
    (hown : ∀ {f : Fleet engine} {place : Place ι} {thread : Thread engine} {β : Type}
      {call : Call ε β} {next : β → Routine ε thread.task.Result} {answer : β} {s' : Store},
      Reachable s f → f.threads place = some thread →
      ∀ asks : thread.rest = .ask call next, f.Replies thread.task.seat? call answer s' →
      P f.store.jobs f.history place thread →
      P s'.jobs (f.history ++ [⟨place, thread.task, ⟨call, answer⟩⟩]) place
        (thread.goOn asks answer))
    (hother : ∀ {f : Fleet engine} {place p : Place ι} {thread other : Thread engine} {β : Type}
      {call : Call ε β} {next : β → Routine ε thread.task.Result} {answer : β} {s' : Store},
      Reachable s f → f.threads place = some thread → thread.rest = .ask call next →
      f.Replies thread.task.seat? call answer s' → p ≠ place → f.threads p = some other →
      P f.store.jobs f.history p other →
      P s'.jobs (f.history ++ [⟨place, thread.task, ⟨call, answer⟩⟩]) p other)
    (hhire : ∀ {f : Fleet engine} {place : Place ι} {thread : Thread engine} {seat : ι}
      {batch : Nat} {d : Dispatched} {next : Bool → Routine ε thread.task.Result},
      Reachable s f → f.threads place = some thread → thread.task = .acquire seat batch →
      thread.rest = .ask (.dispatch d) next → P f.store.jobs f.history place thread →
      P f.store.jobs (f.history ++ [⟨place, thread.task, ⟨.dispatch d, true⟩⟩])
        (.worker f.history.length) (.start engine (.run seat d)))
    (h : Reachable s f) :
    ∀ p thread, f.threads p = some thread → P f.store.jobs f.history p thread := by
  induction h with
  | start => exact fun p thread hp => nomatch hp
  | @step f f' h hstep ih =>
    cases hstep with
    | @enter place task suits vacant =>
      intro p thread hp
      rw [threads_enter] at hp
      split at hp
      · rename_i hplace
        subst hplace
        cases hp
        have hnew := henter h suits vacant
        exact hnew
      · exact ih p thread hp
    | @turn place thread _ call next answer s' here asks replies =>
      intro p found hp
      rcases threads_advance f _ _ s' hp with ⟨seat, d, hacc, rfl, rfl⟩ | ⟨rfl, rfl⟩ | ⟨hne, hp⟩
      · obtain ⟨batch, htask, hexchange⟩ := Turn.accepted?_eq_some_iff.1 hacc
        cases hexchange
        obtain rfl : s' = f.store := replies.answered
        exact hhire h here htask asks (ih _ thread here)
      · exact hown h here asks replies (ih _ thread here)
      · exact hother h here asks replies hne hp (ih p found hp)
    | reach value => exact ih

end Fleet

end DeferredWork

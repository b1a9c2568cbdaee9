import DeferredWork.Engine.GuardedPool
set_option autoImplicit false

/-!
# The workers of a pool

A pool consists of workers that take turns in receiving jobs from a bounded channel, and of two
counters that the submitter and the workers move by themselves.  A submission counts the job as
queued, sends it, and takes the count back if the channel refuses it; a worker counts the job that it
has received as active and no longer queued, runs it, and counts it as no longer active.  A channel
without capacity passes a job on only to a worker that is receiving.  The module says which steps are
possible at each moment, and when nothing moves by itself.
-/

namespace DeferredWork

/-- A job and the token that it carries. -/
abbrev Parcel (α : Type) : Type := α × Option ScopeId

/-- Where a worker stands in its loop. -/
inductive Worker (α : Type) where
  /-- It waits for its turn to receive. -/
  | free
  /-- It has the receiver, and waits for a job. -/
  | receiving
  /-- It has received a job; no counter has been moved. -/
  | received (parcel : Parcel α)
  /-- The job counts as active, and still as queued. -/
  | counted (parcel : Parcel α)
  | running (parcel : Parcel α)
  /-- The job is over, and still counts as active. -/
  | ended
  /-- It has left the pool. -/
  | gone
  deriving DecidableEq

namespace Worker

variable {α : Type}

/-- The job that a worker has. -/
def parcel? : Worker α → Option (Parcel α)
  | .received parcel => some parcel
  | .counted parcel => some parcel
  | .running parcel => some parcel
  | _ => none

/-- The job that a worker runs. -/
def running? : Worker α → Option (Parcel α)
  | .running parcel => some parcel
  | _ => none

/-- The worker has the receiver. -/
def isReceiving : Worker α → Bool
  | .receiving => true
  | _ => false

/-- The worker has counted a job as active. -/
def isActive : Worker α → Bool
  | .counted _ => true
  | .running _ => true
  | .ended => true
  | _ => false

/-- The job of the worker still counts as queued. -/
def isQueued : Worker α → Bool
  | .received _ => true
  | .counted _ => true
  | _ => false

end Worker

/-- Where the last submission stands. -/
inductive Submission (α : Type) where
  /-- There was none so far. -/
  | none
  /-- The job counts as queued, and is about to be sent. -/
  | offered (parcel : Parcel α)
  /-- The channel has refused the job, which still counts as queued. -/
  | refused (parcel : Parcel α)
  /-- The pool has taken the job. -/
  | taken
  /-- The job was handed back, and given up by the submitter. -/
  | handedBack (parcel : Parcel α)
  deriving DecidableEq

namespace Submission

variable {α : Type}

/-- The job that is being submitted. -/
def parcel? : Submission α → Option (Parcel α)
  | .offered parcel => some parcel
  | .refused parcel => some parcel
  | _ => Option.none

/-- The answer to the submission. -/
def isTaken : Submission α → Bool
  | .taken => true
  | _ => false

end Submission

/-- The workers of a pool, their channel and their counters, with what has become of the jobs so
far. -/
structure Workers (α : Type) where
  size : Nat
  /-- How many jobs the channel holds. -/
  capacity : Nat
  workers : List (Worker α)
  channel : List (Parcel α) := []
  /-- Jobs can be sent. -/
  isOpen : Bool := true
  /-- The counter of jobs that workers have. -/
  active : Int := 0
  /-- The counter of jobs that were submitted and are in no worker's hands. -/
  queued : Int := 0
  submission : Submission α := .none
  tokens : ScopeTokens := .allFree
  /-- The jobs that were taken, in their order. -/
  accepted : List (Parcel α) := []
  /-- The jobs that workers have received, in their order. -/
  started : List (Parcel α) := []
  finished : List (Parcel α) := []
  /-- The jobs that were handed back. -/
  rejected : List (Parcel α) := []
  deriving DecidableEq

namespace Workers

variable {α : Type}

/-- At least one worker, and no jobs. -/
def start (workers capacity : Nat) : Workers α where
  size := max workers 1
  capacity := capacity
  workers := List.replicate (max workers 1) .free

/-- The jobs that run. -/
def running (m : Workers α) : List (Parcel α) := m.workers.filterMap Worker.running?

/-- What the counters say of the jobs per worker, at most one. -/
def utilization (m : Workers α) : Float :=
  let load := Float.ofInt (m.active + m.queued) / Float.ofNat m.size
  if load < 1 then load else 1

/-! ## Calls -/

/-- A job is submitted, with the token of a scope if it is free.  Workers that receive no more hand it
back at once. -/
def submit (m : Workers α) (job : α) (scope : Option ScopeId) : Workers α :=
  let (token, tokens) := GuardedPool.takeToken m.tokens scope
  if m.isOpen then
    { m with tokens := tokens, queued := m.queued + 1, submission := .offered (job, token) }
  else
    { m with
      tokens := GuardedPool.release tokens (job, token)
      submission := .handedBack (job, token)
      rejected := m.rejected ++ [(job, token)] }

/-- No more jobs can be sent. -/
def close (m : Workers α) : Workers α := { m with isOpen := false }

/-! ## Steps -/

/-- What a submission does, one step at a time. -/
inductive Sends (m : Workers α) : Workers α → Prop
  /-- The channel has room for the job. -/
  | send {parcel : Parcel α} (offered : m.submission = .offered parcel)
      (room : m.channel.length < m.capacity) :
      Sends m
        { m with
          channel := m.channel ++ [parcel]
          submission := .taken
          accepted := m.accepted ++ [parcel] }
  /-- A channel without capacity passes the job on. -/
  | handOver {parcel : Parcel α} {front back : List (Worker α)}
      (offered : m.submission = .offered parcel) (rendezvous : m.capacity = 0)
      (worker : m.workers = front ++ .receiving :: back) :
      Sends m
        { m with
          workers := front ++ .received parcel :: back
          submission := .taken
          accepted := m.accepted ++ [parcel]
          started := m.started ++ [parcel] }
  /-- The channel is full, and nobody takes the job over. -/
  | refuse {parcel : Parcel α} (offered : m.submission = .offered parcel)
      (full : ¬ m.channel.length < m.capacity)
      (unattended : m.capacity = 0 → Worker.receiving ∉ m.workers) :
      Sends m { m with submission := .refused parcel }
  /-- The job is handed back; its submitter gives it up. -/
  | handBack {parcel : Parcel α} (refused : m.submission = .refused parcel) :
      Sends m
        { m with
          queued := m.queued - 1
          submission := .handedBack parcel
          tokens := GuardedPool.release m.tokens parcel
          rejected := m.rejected ++ [parcel] }

/-- What a worker does by itself, one step at a time. -/
inductive Works (m : Workers α) : Workers α → Prop
  /-- A free worker gets the receiver. -/
  | turn {front back : List (Worker α)} (worker : m.workers = front ++ .free :: back)
      (nobody : Worker.receiving ∉ m.workers) :
      Works m { m with workers := front ++ .receiving :: back }
  /-- The first job in the channel is received. -/
  | receive {parcel : Parcel α} {rest : List (Parcel α)} {front back : List (Worker α)}
      (worker : m.workers = front ++ .receiving :: back) (first : m.channel = parcel :: rest) :
      Works m
        { m with
          workers := front ++ .received parcel :: back
          channel := rest
          started := m.started ++ [parcel] }
  | count {parcel : Parcel α} {front back : List (Worker α)}
      (worker : m.workers = front ++ .received parcel :: back) :
      Works m { m with workers := front ++ .counted parcel :: back, active := m.active + 1 }
  | run {parcel : Parcel α} {front back : List (Worker α)}
      (worker : m.workers = front ++ .counted parcel :: back) :
      Works m { m with workers := front ++ .running parcel :: back, queued := m.queued - 1 }
  | rest {front back : List (Worker α)} (worker : m.workers = front ++ .ended :: back) :
      Works m { m with workers := front ++ .free :: back, active := m.active - 1 }
  /-- There is no job left, and there will be no more. -/
  | leave {front back : List (Worker α)} (worker : m.workers = front ++ .receiving :: back)
      (empty : m.channel = []) (closed : m.isOpen = false) :
      Works m { m with workers := front ++ .gone :: back }

/-- What happens by itself, one step at a time. -/
inductive Step (m m' : Workers α) : Prop
  | sends (sends : m.Sends m')
  | works (works : m.Works m')

/-- A job that runs comes to its end, and its token goes back. -/
inductive Ends (m : Workers α) (parcel : Parcel α) : Workers α → Prop
  | mk {front back : List (Worker α)} (worker : m.workers = front ++ .running parcel :: back) :
      Ends m parcel
        { m with
          workers := front ++ .ended :: back
          tokens := GuardedPool.release m.tokens parcel
          finished := m.finished ++ [parcel] }

/-- Nothing moves by itself. -/
def IsSettled (m : Workers α) : Prop := ∀ m', ¬ m.Step m'

/-- Step by step, everything comes to rest. -/
inductive Settles : Workers α → Workers α → Prop
  | settled {m : Workers α} (settled : m.IsSettled) : Settles m m
  | step {m m₁ m' : Workers α} (step : m.Step m₁) (settles : m₁.Settles m') : Settles m m'

/-- While jobs come to their ends, all workers leave. -/
inductive Drains : Workers α → Workers α → Prop
  | drained {m : Workers α} (gone : ∀ worker ∈ m.workers, worker = .gone) : Drains m m
  | step {m m₁ m' : Workers α} (step : m.Step m₁) (drains : m₁.Drains m') : Drains m m'
  | ends {m m₁ m' : Workers α} {parcel : Parcel α} (ends : m.Ends parcel m₁)
      (drains : m₁.Drains m') : Drains m m'

end Workers

/-! ## Runs -/

/-- What a pool is asked to do, and what it answers. -/
inductive PoolEvent (α : Type) where
  /-- A job was submitted, and taken or handed back. -/
  | submitted (job : α) (scope : Option ScopeId) (taken : Bool)
  /-- A job that ran has ended. -/
  | finished (parcel : Parcel α)
  | shutDown
  deriving DecidableEq

namespace PoolEvent

variable {α : Type}

/-- The job that was taken. -/
def accepted? : PoolEvent α → Option α
  | .submitted job _ true => some job
  | _ => none

/-- The job that was handed back. -/
def rejected? : PoolEvent α → Option α
  | .submitted job _ false => some job
  | _ => none

/-- The job that has ended. -/
def finished? : PoolEvent α → Option (Parcel α)
  | .finished parcel => some parcel
  | _ => none

end PoolEvent

/-- What workers at rest do on an event, until they are at rest again. -/
inductive Workers.Does {α : Type} (m : Workers α) : PoolEvent α → Workers α → Prop
  | submit {m' : Workers α} (job : α) (scope : Option ScopeId)
      (settles : (m.submit job scope).Settles m') :
      Does m (.submitted job scope m'.submission.isTaken) m'
  | finish {m₁ m' : Workers α} {parcel : Parcel α} (ends : m.Ends parcel m₁)
      (settles : m₁.Settles m') : Does m (.finished parcel) m'
  | shutdown {m' : Workers α} (drains : m.close.Drains m') : Does m .shutDown m'

/-- The workers of a new pool come to rest in this state after these events. -/
inductive Workers.Runs {α : Type} (workers capacity : Nat) :
    List (PoolEvent α) → Workers α → Prop
  | start {m : Workers α} (settles : (Workers.start workers capacity).Settles m) :
      Runs workers capacity [] m
  | event {events : List (PoolEvent α)} {event : PoolEvent α} {m m' : Workers α}
      (before : Runs workers capacity events m) (does : m.Does event m') :
      Runs workers capacity (events ++ [event]) m'

/-- What a pool at rest does on an event. -/
inductive GuardedPool.Does {α : Type} (g : GuardedPool α) : PoolEvent α → GuardedPool α → Prop
  | submit (job : α) (scope : Option ScopeId) :
      Does g (.submitted job scope (g.submit job scope).1) (g.submit job scope).2
  | finish (i : Fin g.pool.running.length) : Does g (.finished (g.pool.running.get i)) (g.finish i)
  | shutdown : Does g .shutDown g.shutdown

/-- A new pool is in this state after these events. -/
inductive GuardedPool.Runs {α : Type} (workers capacity : Nat) :
    List (PoolEvent α) → GuardedPool α → Prop
  | start : Runs workers capacity [] (.start workers capacity)
  | event {events : List (PoolEvent α)} {event : PoolEvent α} {g g' : GuardedPool α}
      (before : Runs workers capacity events g) (does : g.Does event g') :
      Runs workers capacity (events ++ [event]) g'

end DeferredWork

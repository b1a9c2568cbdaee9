import DeferredWork.Handler
import DeferredWork.Json.Reader
import DeferredWork.Json.Record
set_option autoImplicit false

/-!
# Batches and other stock handlers

A batch is worked off step by step: the handler of a step schedules the next one in the transaction
that ends the step.  The module also holds the other handlers that come with an engine, which do
nothing, and the jobs with which a fresh engine can be tried out.
-/

namespace DeferredWork

/-- What a step of a batch is told. -/
structure BatchStep where
  batch : String
  step : Nat
  total : Nat
  deriving DecidableEq, Repr

namespace BatchStep

/-- The fields of a step, in order. -/
def shape : RecordShape := { names := ["batch", "step", "total"] }

/-- The JSON form of a step. -/
def toJson (s : BatchStep) : Json :=
  .object [("batch", .string s.batch), ("step", .ofNat s.step), ("total", .ofNat s.total)]

/-- The step that a JSON value stands for. -/
def ofJson? (j : Json) : Option BatchStep := do
  match ← j.fields? shape with
  | [batch, step, total] => do
    let batch ← Json.required Json.text? batch
    let step ← Json.required (Json.natOfBits? 32) step
    let total ← Json.required (Json.natOfBits? 32) total
    some { batch, step, total }
  | _ => none

/-- The payload of a step. -/
def write (s : BatchStep) : String := s.toJson.text

/-- The step that a payload stands for. -/
def read (payload : String) : Option BatchStep := do
  let j ← Json.read payload
  ofJson? j

/-- The step after this one, unless this is the last. -/
def next? (s : BatchStep) : Option BatchStep :=
  if s.step + 1 < s.total then some { s with step := s.step + 1 } else none

end BatchStep

/-! ## Kinds of jobs -/

/-- The kind of a timer. -/
def timerKind : String := "timer-fire"

/-- The kind of a continuation of a process. -/
def continuationKind : String := "async-continuation"

/-- The kind of a step of a batch. -/
def batchKind : String := "batch-step"

/-! ## Handlers -/

variable {ε : Type → Type}

/-- Schedules the step after the one that a job is told, in the job's scope. -/
def BatchStep.follow (job : Job) (step : BatchStep) : Command ε Unit := do
  match step.next? with
  | none => return ()
  | some next =>
    let id ← Command.ask .draw
    let created ← Command.ask .wallClock
    Command.stage <| .insert
      { Job.new (.ofUuid id) batchKind created with
        payload := some next.write
        scope := job.scope
        exclusive := job.exclusive }

/-- The handler of a step.  What the details say of a payload that is no step is left open; `json`
stands for it. -/
def BatchStep.handler : Handler ε where
  handle job :=
    match job.payload with
    | none => throw { message := "batch-step without configuration" }
    | some payload =>
      match BatchStep.read payload with
      | none => throw { message := "invalid batch-step configuration", details := some "json" }
      | some step => (step.follow job).toHandling

/-- The handlers that come with an engine. -/
def stockHandlers : Registry (Handler ε) :=
  ((Registry.empty.register timerKind .idle).register continuationKind .idle).register batchKind
    BatchStep.handler

/-! ## Jobs to start with -/

/-- Four jobs for a fresh engine, one of them recurring and one the first step of a batch; `stamp`
gives the name and the creation time of each. -/
def seedJobs (retries : Nat) (stamp : Nat → JobId × Instant) : List Job :=
  let make (i : Nat) (kind : String) : Job :=
    (Job.new (stamp i).1 kind (stamp i).2).withRetries retries
  let import₀ : BatchStep := { batch := "nightly-import", step := 0, total := 5 }
  [{ make 0 timerKind with interval := some (.ofSeconds 1) },
    { make 1 continuationKind with scope := some ⟨"order-4711"⟩ },
    { make 2 continuationKind with scope := some ⟨"order-4711"⟩ },
    { make 3 batchKind with payload := some import₀.write, scope := some ⟨"nightly-import"⟩ }]

end DeferredWork

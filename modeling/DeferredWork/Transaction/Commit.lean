import DeferredWork.Engine.Routine
import DeferredWork.Transaction.Body
set_option autoImplicit false

/-!
# Running a transaction

A transaction runs its body at one time, gathers what the body stages, and commits all of it as one
batch or nothing at all.  A job that the body read keeps the revision of its first reading: an update
or deletion of it commits only if that is still its revision.  A body that fails, breaks off or takes
too long has no effect.
-/

namespace DeferredWork

/-- What a transaction has gathered so far. -/
structure Context where
  /-- The time of the transaction. -/
  now : Instant
  /-- The revision at which each job was first read. -/
  observed : List (JobId × Nat) := []
  writes : List Write := []
  raised : List Incident := []
  spent : Duration := .zero

namespace Context

/-- The revision at which a job was first read. -/
def observed? (ctx : Context) (id : JobId) : Option Nat :=
  (ctx.observed.find? fun o => o.1 == id).map Prod.snd

/-- Notes the revision of a job that was read, unless it was read before. -/
def observe (ctx : Context) (job : Job) : Context :=
  match ctx.observed? job.id with
  | some _ => ctx
  | none => { ctx with observed := ctx.observed ++ [(job.id, job.revision)] }

/-- The revision that a write of a job relies on: that of its first reading, or else the one the job
itself carries. -/
def guard (ctx : Context) (job : Job) : Expected :=
  .exactly ((ctx.observed? job.id).getD job.revision)

/-- The write that a staged change stands for. -/
def writeOf (ctx : Context) : Staged → Write
  | .insert job => .insert job
  | .update job => .update job (ctx.guard job)
  | .delete job => .delete job.id (ctx.guard job)
  | .forceDelete id => .delete id .any
  | .lock job owner expiry => .lock job.id job.revision owner expiry ctx.now
  | .raise incident => .raise incident
  | .resolve id => .resolve id ctx.now

/-- The incidents that a staged change raises. -/
def raisedBy : Staged → List Incident
  | .raise incident => [incident]
  | _ => []

/-- Adds a staged change. -/
def stage (ctx : Context) (change : Staged) : Context :=
  { ctx with
    writes := ctx.writes ++ [ctx.writeOf change]
    raised := ctx.raised ++ raisedBy change }

/-- Adds time that the body took. -/
def spend (ctx : Context) (time : Duration) : Context := { ctx with spent := ctx.spent.plus time }

/-- The body took longer than the limit.  No body is fast enough for a limit of zero. -/
def exceeds (ctx : Context) (limit : Duration) : Bool := limit = .zero || limit < ctx.spent

end Context

namespace Transaction

variable {ε : Type → Type} {α : Type}

/-- Commits what was gathered; with nothing to write the store is not called. -/
def commit (ctx : Context) (a : α) : Routine ε (Except TransactionError α) :=
  match ctx.writes with
  | [] => (Routine.notifyAll ctx.raised).bind fun _ => .done (.ok a)
  | writes =>
    (Routine.callStore (.apply writes)).bind fun
      | .error e => .done (.error (.ofStore e))
      | .ok _ => (Routine.notifyAll ctx.raised).bind fun _ => .done (.ok a)

/-- Runs a body from what it has gathered so far, and commits. -/
def runFrom (limit : Duration) :
    Interaction (Request ε) (Except TransactionError α) → Context →
      Routine ε (Except TransactionError α)
  | .done (.error e), _ => .done (.error e)
  | .done (.ok a), ctx => if ctx.exceeds limit then .done (.error (.timedOut limit)) else commit ctx a
  | .abort reason, _ => .done (.error (.failed (.ofAbort reason)))
  | .ask (.find id) next, ctx =>
    .ask (.store (.get id)) fun
      | .ok none => runFrom limit (next (.ok none)) ctx
      | .ok (some job) => runFrom limit (next (.ok (some job))) (ctx.observe job)
      | .error (.refused e) => runFrom limit (next (.error (.ofStore e))) ctx
      | .error (.crashed reason) => .done (.error (.failed (.ofAbort reason)))
  | .ask .now next, ctx => runFrom limit (next ctx.now) ctx
  | .ask .hasPending next, ctx => runFrom limit (next (!ctx.writes.isEmpty)) ctx
  | .ask (.stage change) next, ctx => runFrom limit (next ()) (ctx.stage change)
  | .ask .draw next, ctx => .ask .draw fun id => runFrom limit (next id) ctx
  | .ask .wallClock next, ctx => .ask .wallClock fun t => runFrom limit (next t) ctx
  | .ask (.spend time) next, ctx => runFrom limit (next ()) (ctx.spend time)
  | .ask (.foreign q) next, ctx =>
    .ask (.foreign q) fun
      | .ok b => runFrom limit (next b) ctx
      | .error reason => .done (.error (.failed (.ofAbort reason)))

/-- Runs a command as one transaction with a limit on the time of its body. -/
def run (limit : Duration) (command : Command ε α) : Routine ε (Except TransactionError α) :=
  .ask .clock fun now => runFrom limit command.run { now := now }

end Transaction

end DeferredWork

import DeferredWork.Batch
import DeferredWork.Cluster.Fleet
import DeferredWork.Engine.Pacing
import DeferredWork.Json.Traverse
import DeferredWork.Operator
import DeferredWork.Settings.Node
import DeferredWork.Store.Report
set_option autoImplicit false

/-!
# Sessions

In a session one engine with the stock handlers works on a store of its own, which starts with the
seed jobs.  The session is told the time and says how long to wait before it wants to be told again.
-/

namespace DeferredWork

/-- Handlers that ask nothing beyond their requests. -/
inductive NoQuestion : Type → Type

/-- The surroundings of a session, which leave it alone. -/
def NoQuestion.surroundings : Surroundings NoQuestion Unit :=
  .quiet Unit fun question _ => nomatch question

/-- One engine at work on a store of its own. -/
structure Session where
  settings : Settings
  /-- How the program was built. -/
  overflow : Overflow := .wraps
  world : World Unit
  pacing : Pacing

namespace Session

/-- The place of the session's engine among the nodes. -/
def seat : Nat := 0

/-- A session with an empty store. -/
def start (settings : Settings) (clock : Instant) : Session :=
  let cluster : Cluster :=
    { clock := clock, wall := clock, era := (clock.nanos / 1000000).toNat }
  { settings := settings
    world := ⟨settings.addNodes settings.retryPolicy.delay 1 cluster, ()⟩
    pacing := .start settings.backpressure settings.batch settings.pollInterval settings.maxIdle }

/-- The session after its operator scheduled jobs, up to the first that is refused. -/
def schedule (session : Session) : List Job → Except TransactionError Session
  | [] => .ok session
  | job :: jobs =>
    let operator : Operator := ⟨session.settings.limit, session.settings.defaultRetries⟩
    match session.world.run NoQuestion.surroundings seat (operator.schedule job) with
    | (.ok (.error e), _) => .error e
    | (_, world) => schedule { session with world := world } jobs

/-- The session after the seed jobs were scheduled. -/
def seeded (session : Session) : Except TransactionError Session :=
  let cluster := session.world.cluster
  let stamp (i : Nat) : JobId × Instant :=
    (.ofUuid (.drawn cluster.era (cluster.draws + 1 + i)), (cluster.wall.shift? i).getD cluster.wall)
  let jobs := seedJobs session.settings.defaultRetries stamp
  let cluster :=
    { cluster with
      draws := cluster.draws + jobs.length
      wall := (cluster.wall.shift? jobs.length).getD cluster.wall }
  { session with world := ⟨cluster, ()⟩ }.schedule jobs

/-- Whether a wake-up was pending, and the session without it. -/
def receive (session : Session) : Bool × Session :=
  let (pending, trigger) := session.world.cluster.trigger.receive
  (pending, { session with world := session.world.modify fun c => { c with trigger := trigger } })

/-- The session after the wait that an acquisition cycle asks for was cut short by a wake-up, if one
is pending. -/
def afterWait (wait : Duration) (session : Session) : Duration × Session :=
  if wait = .zero then (wait, session)
  else
    match session.receive with
    | (true, session) => (.zero, { session with pacing := session.pacing.woken })
    | (false, session) => (wait, session)

/-- One acquisition cycle at an instant, the work that it found, and the wait before the next; no wait
if the engine has broken off. -/
def cycle (session : Session) (now : Instant) (elapsed : Nat) : Option Duration × Session :=
  let world := session.world.modify fun c => { c with clock := now, wall := if c.wall < now then now else c.wall }
  match world.cluster.nodes[seat]? with
  | none => (some .zero, session)
  | some node =>
    let engine := node.engine stockHandlers
    let (result, world) := world.run NoQuestion.surroundings seat
      (engine.acquire session.pacing.pressure.batch)
    let (_, world) := world.noteCycle seat result
    let (jobs, world) := world.takeBacklog seat
    let world := world.workThrough NoQuestion.surroundings seat engine jobs
    let session := { session with world := world }
    let paced :=
      match result with
      | .ok (.ok report) => session.pacing.afterCycle session.overflow report 0 elapsed
      | _ => some session.pacing.afterFailure
    match paced with
    | none => (none, session)
    | some (wait, pacing) =>
      let (wait, session) := afterWait wait { session with pacing := pacing }
      (some wait, session)

/-- What a session has done and left. -/
def report (session : Session) : Except StoreError Json := do
  let cluster := session.world.cluster
  let stats ← cluster.store.stats cluster.clock
  let metrics := (cluster.nodes[seat]?.map Node.metrics).getD {}
  return (Json.object [("metrics", metrics.toJson), ("jobs", stats.toJson)]).ordered

end Session

end DeferredWork

import DeferredWork.Cluster.Run
import DeferredWork.Engine.Acquisition
import DeferredWork.Engine.Execution
set_option autoImplicit false

/-!
# Fleets

A fleet is a cluster whose nodes acquire and execute by themselves.  It works in rounds: in a round
each node in turn goes through one acquisition cycle and then works off what its pool holds.  A fleet
is at rest when a round dispatches nothing.
-/

namespace DeferredWork.World

variable {σ : Type} {ε : Type → Type}

/-- Notes how the acquisition cycle of a node ended, and how many jobs it dispatched. -/
def noteCycle (seat : Nat) (w : World σ) :
    Except String (Except AcquisitionError CycleReport) → Nat × World σ
  | .ok (.ok report) =>
    (report.dispatched,
      w.modify fun c => c.modifyNode seat fun node => { node with health := node.health.succeeded })
  | _ =>
    (0, w.modify fun c => c.modifyNode seat fun node => { node with health := node.health.failed })

/-- Takes the jobs out of a node's pool. -/
def takeBacklog (seat : Nat) (w : World σ) : List Dispatched × World σ :=
  ((w.cluster.nodes[seat]?.map Node.backlog).getD [],
    w.modify fun c => c.modifyNode seat fun node => { node with backlog := [] })

/-- Runs dispatched jobs on a node, one after the other. -/
def workThrough (s : Surroundings ε σ) (seat : Nat) (engine : Engine ε) :
    List Dispatched → World σ → World σ
  | [], w => w
  | job :: jobs, w => workThrough s seat engine jobs (w.run s seat (engine.work job)).2

/-- The share of one node in a round, and how many jobs it dispatched. -/
def nodeRound (s : Surroundings ε σ) (handlers : Registry (Handler ε)) (batch seat : Nat)
    (w : World σ) : Nat × World σ :=
  match w.cluster.nodes[seat]? with
  | none => (0, w)
  | some node =>
    let engine := node.engine handlers
    let (result, w) := w.run s seat (engine.acquire batch)
    let (dispatched, w) := w.noteCycle seat result
    let (jobs, w) := w.takeBacklog seat
    (dispatched, w.workThrough s seat engine jobs)

/-- One round of all nodes, and how many jobs it dispatched. -/
def round (s : Surroundings ε σ) (handlers : Registry (Handler ε)) (batch : Nat) (w : World σ) :
    Nat × World σ :=
  (List.range w.cluster.nodes.length).foldl
    (fun (n, w) seat =>
      let (m, w) := w.nodeRound s handlers batch seat
      (n + m, w))
    (0, w)

/-- A number of rounds. -/
def rounds (s : Surroundings ε σ) (handlers : Registry (Handler ε)) (batch : Nat) :
    Nat → World σ → World σ
  | 0, w => w
  | n + 1, w => rounds s handlers batch n (w.round s handlers batch).2

/-- Rounds until the fleet is at rest, but no more than a number of them: a recurring job with an
interval of no time keeps a fleet busy for ever. -/
def settle (s : Surroundings ε σ) (handlers : Registry (Handler ε)) (batch : Nat) :
    Nat → World σ → World σ
  | 0, w => w
  | n + 1, w =>
    match w.round s handlers batch with
    | (0, w) => w
    | (_ + 1, w) => settle s handlers batch n w

end DeferredWork.World

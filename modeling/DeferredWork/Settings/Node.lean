import DeferredWork.Cluster.Basic
import DeferredWork.Settings.Basic
set_option autoImplicit false

/-!
# Nodes from settings

What settings say about the engine of a node, and about the operators of its jobs.
-/

namespace DeferredWork.Settings

/-- The health of an engine with these settings that does not run yet. -/
def health (s : Settings) : Health := .new s.failureThreshold

/-- The control loop of an engine with these settings. -/
def pressure (s : Settings) : Backpressure := .start s.backpressure s.batch s.pollInterval

/-- A node with these settings whose engine runs. -/
def node (s : Settings) (name : String) (owner : Owner) (backoff : Backoff) : Node where
  name := name
  owner := owner
  lockDuration := s.lockDuration
  limit := s.limit
  backoff := backoff
  capacity := s.workers + s.queue
  health := s.health.started

/-- The cluster with more nodes whose engines run with these settings.  The first has the name that
the settings say, the others have their number behind it; each draws its owner's name. -/
def addNodes (s : Settings) (backoff : Backoff) (count : Nat) (c : Cluster) : Cluster :=
  (List.range count).foldl
    (fun c i =>
      let name := if i = 0 then s.name else s!"{s.name}{i}"
      let (id, c) := c.draw
      { c with nodes := c.nodes ++ [s.node name (.ofUuid name id) backoff] })
    c

end DeferredWork.Settings

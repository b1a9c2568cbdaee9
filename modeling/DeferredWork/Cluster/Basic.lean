import DeferredWork.Engine.Pacing
import DeferredWork.Engine.Tokens
import DeferredWork.Job.Draft
set_option autoImplicit false

/-!
# Clusters

A cluster is a store that is shared by several nodes, with one clock and one trigger.  Each node has
what one engine has of its own: its tokens, its counters and the jobs that its pool holds.
-/

namespace DeferredWork

/-- One engine's share of a cluster. -/
structure Node where
  name : String
  owner : Owner
  lockDuration : Duration
  limit : Duration
  backoff : Backoff
  /-- How many jobs the pool holds. -/
  capacity : Nat
  /-- The end of each execution wakes the acquisition up. -/
  wakes : Bool := true
  health : Health := Health.new 1
  tokens : ScopeTokens := .allFree
  metrics : Metrics := {}
  phase : CyclePhase := .idle
  /-- The jobs that the pool holds, in the order of their arrival. -/
  backlog : List Dispatched := []

/-- The engine of a node. -/
def Node.engine {ε : Type → Type} (node : Node) (handlers : Registry (Handler ε)) : Engine ε where
  owner := node.owner
  lockDuration := node.lockDuration
  limit := node.limit
  backoff := node.backoff
  handlers := handlers
  wakes := node.wakes

/-- A store, the nodes that share it, and what they have in common. -/
structure Cluster where
  store : Store := .empty
  /-- The shared clock. -/
  clock : Instant
  /-- The time on the wall. -/
  wall : Instant
  /-- The milliseconds since the start of 1970 with which drawn identifiers begin. -/
  era : Nat := 0
  /-- How many identifiers have been drawn. -/
  draws : Nat := 0
  /-- The incidents that the operators were told of, if somebody writes them down. -/
  notices : Option (List Incident) := some []
  trigger : Trigger := {}
  nodes : List Node := []

namespace Cluster

/-- Draws an identifier. -/
def draw (c : Cluster) : Uuid × Cluster :=
  (Uuid.drawn c.era (c.draws + 1), { c with draws := c.draws + 1 })

/-- Reads the time off the wall, which never shows the same time twice. -/
def readWall (c : Cluster) : Instant × Cluster :=
  (c.wall, { c with wall := (c.wall.shift? 1).getD Instant.last })

/-- Makes the job of a draft. -/
def make (c : Cluster) (draft : JobDraft) : Job × Cluster :=
  let (id, c) :=
    match draft.id with
    | some id => (id, c)
    | none =>
      let (uuid, c) := c.draw
      (JobId.ofUuid uuid, c)
  let (created, c) :=
    match draft.created with
    | some created => (created, c)
    | none => c.readWall
  (draft.build id created, c)

/-- Puts the store in or out of reach. -/
def setAvailable (c : Cluster) (value : Bool) : Cluster :=
  { c with store := { c.store with available := value } }

/-- Tells the operators of an incident. -/
def notify (c : Cluster) (incident : Incident) : Cluster :=
  { c with notices := c.notices.map (· ++ [incident]) }

/-- Changes a node. -/
def modifyNode (c : Cluster) (seat : Nat) (change : Node → Node) : Cluster :=
  { c with nodes := c.nodes.modify seat change }

/-- Takes the token of a scope from a node. -/
def takeToken (c : Cluster) (seat : Nat) (scope : ScopeId) : Bool × Cluster :=
  match c.nodes[seat]?.bind fun node => node.tokens.take? scope with
  | some tokens => (true, c.modifyNode seat fun node => { node with tokens := tokens })
  | none => (false, c)

/-- Gives the token of a scope back to a node. -/
def giveToken (c : Cluster) (seat : Nat) (scope : ScopeId) : Cluster :=
  c.modifyNode seat fun node => { node with tokens := node.tokens.giveBack scope }

/-- Hands a job to the pool of a node. -/
def dispatch (c : Cluster) (seat : Nat) (job : Dispatched) : Bool × Cluster :=
  match c.nodes[seat]? with
  | some node =>
    if node.backlog.length < node.capacity then
      (true, c.modifyNode seat fun node => { node with backlog := node.backlog ++ [job] })
    else (false, c)
  | none => (false, c)

/-- Takes a job out of the pool of a node: the one of a name, or the first. -/
def takeJob (c : Cluster) (seat : Nat) (id : Option JobId) : Option (Dispatched × Cluster) := do
  let node ← c.nodes[seat]?
  let i ← node.backlog.findIdx? fun d => id.all fun id => d.job.id == id
  let job ← node.backlog[i]?
  some (job, c.modifyNode seat fun node => { node with backlog := node.backlog.eraseIdx i })

end Cluster

end DeferredWork

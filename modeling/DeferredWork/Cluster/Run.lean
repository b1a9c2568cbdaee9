import DeferredWork.Cluster.Basic
set_option autoImplicit false

/-!
# Running routines in a cluster

A routine of one node is run in a cluster to its end.  The surroundings may act before and after each
call of the store, may make the call fail, and answer what handlers ask beyond their requests; they
have a state of their own.
-/

namespace DeferredWork

/-- A cluster and the state of its surroundings. -/
structure World (σ : Type) where
  cluster : Cluster
  scene : σ

/-- What happens around a routine. -/
structure Surroundings (ε : Type → Type) (σ : Type) where
  /-- Acts before a call of the store; a fault takes the place of the call. -/
  before : StorePoint → World σ → Except Fault Unit × World σ
  /-- Acts after a call of the store that succeeded; a fault takes the place of its answer. -/
  after : StorePoint → World σ → Except Fault Unit × World σ
  /-- Answers a question of a handler, or makes the handler break off. -/
  answer : {β : Type} → ε β → World σ → Except String β × World σ

/-- Surroundings that do nothing. -/
def Surroundings.quiet (σ : Type) {ε : Type → Type}
    (answer : {β : Type} → ε β → World σ → Except String β × World σ) : Surroundings ε σ where
  before _ w := (.ok (), w)
  after _ w := (.ok (), w)
  answer := answer

namespace World

variable {σ : Type} {ε : Type → Type} {α β : Type}

/-- Changes the cluster and keeps an answer. -/
def onCluster (w : World σ) (change : Cluster → α × Cluster) : α × World σ :=
  let (a, cluster) := change w.cluster
  (a, { w with cluster := cluster })

/-- Changes the cluster. -/
def modify (w : World σ) (change : Cluster → Cluster) : World σ :=
  { w with cluster := change w.cluster }

/-- Calls the store, with the surroundings before and after it. -/
def callStore (s : Surroundings ε σ) (call : StoreCall β) (w : World σ) :
    Except Fault β × World σ :=
  match s.before call.point w with
  | (.error fault, w) => (.error fault, w)
  | (.ok (), w) =>
    match w.cluster.store.perform call with
    | (.error e, store) => (.error (.refused e), w.modify fun c => { c with store := store })
    | (.ok b, store) =>
      match s.after call.point (w.modify fun c => { c with store := store }) with
      | (.error fault, w) => (.error fault, w)
      | (.ok (), w) => (.ok b, w)

/-- Answers a call of the routine of a node. -/
def answer (s : Surroundings ε σ) (seat : Nat) (w : World σ) : Call ε β → β × World σ
  | .store call => w.callStore s call
  | .clock => (w.cluster.clock, w)
  | .draw => w.onCluster Cluster.draw
  | .wallClock => w.onCluster Cluster.readWall
  | .takeToken scope => w.onCluster fun c => c.takeToken seat scope
  | .giveToken scope => ((), w.modify fun c => c.giveToken seat scope)
  | .dispatch job => w.onCluster fun c => c.dispatch seat job
  | .enter phase => ((), w.modify fun c => c.modifyNode seat fun node => { node with phase := phase })
  | .count counter n =>
    ((), w.modify fun c => c.modifyNode seat fun node =>
      { node with metrics := node.metrics.add n counter })
  | .notify incident => ((), w.modify fun c => c.notify incident)
  | .wake => ((), w.modify fun c => { c with trigger := c.trigger.fire })
  | .foreign question => s.answer question w

/-- Runs the routine of a node to its end.  An error is the reason for which it broke off. -/
def run (s : Surroundings ε σ) (seat : Nat) : Routine ε α → World σ → Except String α × World σ
  | .done a, w => (.ok a, w)
  | .abort reason, w => (.error reason, w)
  | .ask call next, w =>
    let (b, w) := w.answer s seat call
    run s seat (next b) w

end World

end DeferredWork

import DeferredWork.Cluster.Run
import DeferredWork.Engine.Basic
import DeferredWork.Rehearsal.Script
set_option autoImplicit false

/-!
# The stage of a rehearsal

On the stage of a rehearsal a cluster runs under scripts.  Other writers act when a script says so,
or by hooks: a hook waits for a call of the store of a certain kind and lets another writer act right
before or after it.
-/

namespace DeferredWork

/-- A moment at which a hook can strike. -/
structure Moment where
  point : StorePoint
  /-- After the call, and not before it. -/
  isAfter : Bool
  deriving DecidableEq, Repr

/-- Another writer who waits for a moment. -/
structure Hook where
  moment : Moment
  /-- How many such moments pass before it strikes. -/
  skip : Nat
  acts : List OutsideAct

/-- The state of a rehearsal beside its cluster. -/
structure Scene where
  /-- What was noted, in order. -/
  entries : List Entry := []
  /-- How often each handler was called for each job. -/
  calls : List ((String × JobId) × Nat) := []
  vars : Variables := []
  /-- The hooks that have not struck yet, the oldest first. -/
  hooks : List Hook := []

/-- A cluster on the stage of a rehearsal. -/
abbrev Stage : Type := World Scene

/-! ## Other writers -/

/-- The cluster after a write, or as it was if the write is refused. -/
def Cluster.tryWrite {α : Type} (c : Cluster) (write : Store → Except StoreError (α × Store)) :
    Cluster :=
  match write c.store with
  | .ok (_, store) => { c with store := store }
  | .error _ => c

/-- Moves the clock by a number of milliseconds, if the calendar reaches so far. -/
def Cluster.advance? (c : Cluster) (millis : Int) : Option Cluster :=
  (c.clock.shift? (millis * 1000000)).map fun clock => { c with clock := clock }

namespace OutsideAct

/-- Does what another writer does. -/
def perform (c : Cluster) : OutsideAct → Except Fault Unit × Cluster
  | .save id edits =>
    match c.store.get id with
    | .ok (some job) => (.ok (), c.tryWrite fun s => s.save (job.edit edits))
    | _ => (.ok (), c)
  | .delete id => (.ok (), c.tryWrite fun s => (s.delete id .any).map fun s => ((), s))
  | .lock id owner expiry =>
    match c.store.get id with
    | .ok (some job) => (.ok (), c.tryWrite fun s => s.tryLock id job.revision owner expiry c.clock)
    | _ => (.ok (), c)
  | .insert draft =>
    let (job, c) := c.make draft
    (.ok (), c.tryWrite fun s => s.insert job)
  | .available value => (.ok (), c.setAvailable value)
  | .advance millis =>
    match c.advance? millis with
    | some c => (.ok (), c)
    | none => (.error (.crashed Instant.overflow), c)
  | .fail error => (.error (.refused error), c)

/-- Does what another writer does, in turn and up to the first fault. -/
def performAll : List OutsideAct → Cluster → Except Fault Unit × Cluster
  | [], c => (.ok (), c)
  | act :: acts, c =>
    match act.perform c with
    | (.ok (), c) => performAll acts c
    | (.error fault, c) => (.error fault, c)

end OutsideAct

/-! ## Hooks -/

/-- What strikes at a moment, and the hooks that are left: the oldest hook that waits for the moment
strikes, unless it lets the moment pass. -/
def Hook.strike (moment : Moment) : List Hook → List OutsideAct × List Hook
  | [] => ([], [])
  | hook :: hooks =>
    if hook.moment = moment then
      match hook.skip with
      | 0 => (hook.acts, hooks)
      | skip + 1 => ([], { hook with skip := skip } :: hooks)
    else
      let (acts, rest) := strike moment hooks
      (acts, hook :: rest)

namespace Scene

/-- Notes something. -/
def note (scene : Scene) (entry : Entry) : Scene := { scene with entries := scene.entries ++ [entry] }

/-- Counts a call of a handler for a job. -/
def countCall (scene : Scene) (pattern : String) (id : JobId) : Nat × Scene :=
  let n := (scene.calls.lookup (pattern, id)).getD 0 + 1
  (n, { scene with calls := ((pattern, id), n) :: scene.calls.filter fun e => e.1 != (pattern, id) })

end Scene

namespace Stage

/-- Lets another writer act. -/
def letAct (acts : List OutsideAct) (stage : Stage) : Except Fault Unit × Stage :=
  stage.onCluster (OutsideAct.performAll acts)

/-- Lets the hook strike that waits for a moment. -/
def reach (moment : Moment) (stage : Stage) : Except Fault Unit × Stage :=
  let (acts, hooks) := Hook.strike moment stage.scene.hooks
  letAct acts { stage with scene := { stage.scene with hooks := hooks } }

/-- Follows a cue. -/
def follow {β : Type} (cue : Cue β) (stage : Stage) : Except String β × Stage :=
  match cue with
  | .note entry => (.ok (), { stage with scene := stage.scene.note entry })
  | .countCall pattern id =>
    let (n, scene) := stage.scene.countCall pattern id
    (.ok n, { stage with scene := scene })
  | .keep vars => (.ok (), { stage with scene := { stage.scene with vars := vars } })
  | .outside acts =>
    match stage.letAct acts with
    | (.ok (), stage) => (.ok none, stage)
    | (.error (.refused error), stage) => (.ok (some error), stage)
    | (.error (.crashed reason), stage) => (.error reason, stage)

/-- The surroundings of a rehearsal. -/
def surroundings : Surroundings Cue Scene where
  before point := reach ⟨point, false⟩
  after point := reach ⟨point, true⟩
  answer := follow

/-- Fills or empties a variable. -/
def setVar (stage : Stage) (name : String) (job : Option Job) : Stage :=
  { stage with scene := { stage.scene with vars := stage.scene.vars.set name job } }

/-- Arms a hook. -/
def arm (stage : Stage) (hook : Hook) : Stage :=
  { stage with scene := { stage.scene with hooks := stage.scene.hooks ++ [hook] } }

/-- Takes what was noted so far. -/
def takeEntries (stage : Stage) : List Entry × Stage :=
  (stage.scene.entries, { stage with scene := { stage.scene with entries := [] } })

/-- Makes the job of a draft. -/
def make (stage : Stage) (draft : JobDraft) : Job × Stage := stage.onCluster fun c => c.make draft

/-- Runs the routine of a node. -/
def play {α : Type} (stage : Stage) (seat : Nat) (routine : Routine Cue α) :
    Except String α × Stage :=
  stage.run surroundings seat routine

/-- Runs a routine that belongs to no node. -/
def operate {α : Type} (stage : Stage) (routine : Routine Cue α) : Except String α × Stage :=
  stage.play stage.cluster.nodes.length routine

/-- The command of a body that follows a script outside of any handler, with the variables of the
stage. -/
def body (stage : Stage) (actions : List Action) : Command Cue Unit :=
  Action.performAll "" true stage.scene.vars actions

/-- Writes to the store past all hooks. -/
def write {α : Type} (stage : Stage) (change : Store → Except StoreError (α × Store)) :
    Except StoreError α × Stage :=
  match change stage.cluster.store with
  | .ok (a, store) => (.ok a, stage.modify fun c => { c with store := store })
  | .error e => (.error e, stage)

end Stage

end DeferredWork

import DeferredWork.Proofs.Fleet.Play
import DeferredWork.Proofs.Routine.Solitude

set_option autoImplicit false

/-!
# Playing a routine alone

A routine that is alone with the store can be played to its end, with clocks, draws and pools
answering as the circumstances say.  What comes about can be computed, and is a run
(`Routine.runs_play`).
-/

namespace DeferredWork

variable {ε : Type → Type} {α β : Type}

/-- The answer to a call of a routine with no engine and no operator around, and the store after
it. -/
def Circumstances.answer (circumstances : Circumstances) (s : Store) (call : Call ε β) :
    β × Store :=
  (Fleet.start (nofun : Empty → Engine ε) s).reply none circumstances call

theorem Circumstances.answered (circumstances : Circumstances) (s : Store) (call : Call ε β) :
    call.Answered s (circumstances.answer s call).1 (circumstances.answer s call).2 :=
  (Fleet.replies_reply _ none circumstances call).answered

namespace Routine

/-- What is said in a routine that is played alone, what it comes to unless it breaks off, and the
store after it. -/
def play (circumstances : Circumstances) :
    Routine ε α → Store → List (Exchange (Call ε)) × Option α × Store
  | .done a, s => ([], some a, s)
  | .abort _, s => ([], none, s)
  | .ask call next, s =>
    let (answer, s₁) := circumstances.answer s call
    let (talk, outcome, s') := play circumstances (next answer) s₁
    (⟨call, answer⟩ :: talk, outcome, s')

/-- What is played is a run that nobody disturbs. -/
theorem runs_play (circumstances : Circumstances) {r : Routine ε α} {s : Store} {a : α}
    (h : (r.play circumstances s).2.1 = some a) :
    Runs s r ((r.play circumstances s).1.map Event.own) (r.play circumstances s).2.2 (.done a) := by
  induction r generalizing s with
  | done b =>
    obtain rfl : b = a := Option.some.inj h
    exact .stop s _
  | abort reason => cases h
  | ask call next ih => exact .own (circumstances.answered s call) (ih _ h)

theorem own?_own (talk : List (Exchange (Call ε))) :
    (talk.map Event.own).filterMap Event.own? = talk := by
  rw [List.filterMap_map]
  exact List.filterMap_some

theorem others?_own (talk : List (Exchange (Call ε))) :
    (talk.map Event.own).filterMap Event.others? = [] := by
  rw [List.filterMap_map, List.filterMap_eq_nil_iff]
  exact fun _ _ => rfl

end Routine

/-! ## An engine for mail -/

/-- An engine with the name of the left one, and with a handler for jobs of the kind "mail". -/
def Engine.ofMail (handler : Handler fun _ => Empty) : Engine fun _ => Empty :=
  { Engine.ofPair true with handlers := Registry.empty.register "mail" handler }

/-- A job of the kind "mail" that the left engine has locked. -/
def Job.lockedMail : Job :=
  { (Job.mail "first").lockedBy (Engine.ofPair true).owner earlyExpiry with revision := 2 }

end DeferredWork

import DeferredWork.Proofs.Cluster.Fairness

set_option autoImplicit false

/-!
# What a routine has in hand

The token that an engine's routine carries and the lock that it has taken and not yet passed on can
be told from its conversation (`Grip.after`).  A worker starts with what was dispatched to it
(`Grip.ofDispatched`).
-/

namespace DeferredWork

variable {ε : Type → Type} {β : Type}

/-- A lock that was taken on a job, up to an instant. -/
structure Grant where
  id : JobId
  expiry : Instant
  deriving DecidableEq

/-- The lock that a batch takes, if that is all it does. -/
def Grant.ofBatch : List Write → Option Grant
  | [.lock id _ _ expiry _] => some ⟨id, expiry⟩
  | _ => none

/-- What a routine has in hand. -/
structure Grip where
  token : Option ScopeId := none
  lock : Option Grant := none
  deriving DecidableEq

namespace Grip

/-- What is in hand after one more exchange.  A batch takes a lock, or uses the one in hand up; a
dispatched job takes token and lock with it; with a new token the routine turns to another job. -/
def after (grip : Grip) : Exchange (Call ε) → Grip
  | ⟨.store (.apply ws), .ok _⟩ => { grip with lock := Grant.ofBatch ws }
  | ⟨.takeToken scope, true⟩ => { token := some scope }
  | ⟨.giveToken _, _⟩ => { grip with token := none }
  | ⟨.dispatch _, true⟩ => {}
  | _ => grip

/-- What is in hand after a conversation. -/
def through (grip : Grip) (talk : List (Exchange (Call ε))) : Grip := talk.foldl after grip

@[simp]
theorem through_append_singleton (grip : Grip) (talk : List (Exchange (Call ε)))
    (exchange : Exchange (Call ε)) :
    grip.through (talk ++ [exchange]) = (grip.through talk).after exchange :=
  List.foldl_concat after grip exchange talk

theorem after_of_isInner {call : Call ε β} (h : call.isInner = true) (grip : Grip) (answer : β) :
    grip.after ⟨call, answer⟩ = grip := by
  cases call with
  | store call =>
    cases call with
    | get id => rfl
    | _ => cases h
  | dispatch _ | takeToken _ | giveToken _ => cases h
  | _ => rfl

/-- No batch of fair writes takes a lock. -/
theorem ofBatch_eq_none {terms : Terms} {charge : Option Charge} {known : List Job}
    {ws : List Write} (h : ∀ w ∈ ws, w.IsFair terms charge known) :
    Grant.ofBatch ws = none := by
  unfold Grant.ofBatch
  split
  · exact (h _ (List.mem_singleton_self _)).elim
  · rfl

/-- What a worker has in hand at first. -/
def ofDispatched (d : Dispatched) : Grip where
  token := d.token
  lock := d.job.lockedUntil.map fun expiry => ⟨d.job.id, expiry⟩

end Grip

end DeferredWork

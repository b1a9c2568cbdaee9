import DeferredWork.Engine.Pool
import DeferredWork.Engine.Tokens
set_option autoImplicit false

/-!
# Pools of jobs with tokens

A job on its way to a pool may carry the token of its scope.  The token travels with the job and comes
back when the job ends or when the pool hands it back.
-/

namespace DeferredWork

/-- A pool of jobs, each with the token it carries, and the tokens that are given out. -/
structure GuardedPool (α : Type) where
  pool : Pool (α × Option ScopeId)
  tokens : ScopeTokens

namespace GuardedPool

variable {α : Type}

/-- A pool without jobs; all tokens are free. -/
def start (workers capacity : Nat) : GuardedPool α := ⟨.start workers capacity, .allFree⟩

/-- Takes the token of a scope, if one is asked for and free. -/
def takeToken (tokens : ScopeTokens) : Option ScopeId → Option ScopeId × ScopeTokens
  | none => (none, tokens)
  | some scope =>
    match tokens.take? scope with
    | some tokens => (some scope, tokens)
    | none => (none, tokens)

/-- The tokens after a job gave back the one it carried. -/
def release (tokens : ScopeTokens) (job : α × Option ScopeId) : ScopeTokens :=
  match job.2 with
  | some scope => tokens.giveBack scope
  | none => tokens

/-- Hands a job to the pool, with the token of a scope if it is free; `false` if the pool hands the
job back. -/
def submit (g : GuardedPool α) (job : α) (scope : Option ScopeId) : Bool × GuardedPool α :=
  let (token, tokens) := takeToken g.tokens scope
  match g.pool.submit? (job, token) with
  | some pool => (true, ⟨pool, tokens⟩)
  | none => (false, ⟨g.pool, release tokens (job, token)⟩)

/-- Ends the `i`-th running job. -/
def finish (g : GuardedPool α) (i : Fin g.pool.running.length) : GuardedPool α :=
  ⟨g.pool.finish i, release g.tokens g.pool.running[i]⟩

/-- Ends the first running job of a kind; `none` if there is no such job. -/
def finishFirst (g : GuardedPool α) (isMeant : α → Bool) : Option (GuardedPool α) :=
  (g.pool.running.findFinIdx? fun job => isMeant job.1).map g.finish

/-- Shuts the pool down. -/
def shutdown (g : GuardedPool α) : GuardedPool α :=
  ⟨g.pool.shutdown, (g.pool.running ++ g.pool.waiting).foldl release g.tokens⟩

end GuardedPool

end DeferredWork

import DeferredWork.Store.Write
set_option autoImplicit false

/-!
# Failures of handlers and transactions

A handler fails for a reason of its own.  A transaction fails because its body failed, because it
took too long, or because the store did not take its writes; a refusal that only means that another
writer was faster is kept apart, since it is nobody's fault.
-/

namespace DeferredWork

/-- Why a handler failed. -/
structure HandlerError where
  message : String
  details : Option String := none
  deriving DecidableEq, Repr

/-- The failure of a handler that broke off. -/
def HandlerError.ofAbort (reason : String) : HandlerError :=
  { message := s!"handler panicked: {reason}" }

/-- Why a transaction had no effect. -/
inductive TransactionError where
  /-- Another writer was faster. -/
  | contention (reason : String)
  /-- The body failed. -/
  | failed (error : HandlerError)
  /-- The body took longer than the limit. -/
  | timedOut (limit : Duration)
  /-- The store was out of reach. -/
  | storeUnavailable (reason : String)
  /-- The store refused for a reason that is no contention. -/
  | rejected (error : StoreError)
  deriving DecidableEq

namespace TransactionError

/-- The wording of a failure.  The time that was measured is left out, so that equal runs give equal
texts. -/
def message : TransactionError → String
  | .contention reason => s!"optimistic locking failure: {reason}"
  | .failed error => s!"command failed: {error.message}"
  | .timedOut limit => s!"transaction timed out after _ (limit {limit.describe})"
  | .storeUnavailable reason => s!"job store unavailable: {reason}"
  | .rejected error => s!"job store rejected the commit: {error.message}"

/-- The failure means that another writer was faster. -/
def isContention : TransactionError → Bool
  | .contention _ => true
  | _ => false

/-- The failure of a transaction that the store refused. -/
def ofStore (error : StoreError) : TransactionError :=
  if error.isContention then .contention error.message
  else match error with
    | .unavailable reason => .storeUnavailable reason
    | error => .rejected error

/-- The failure of a handler that a failed transaction step ends. -/
def toHandlerError : TransactionError → HandlerError
  | .failed error => error
  | error => { message := error.message }

end TransactionError

end DeferredWork

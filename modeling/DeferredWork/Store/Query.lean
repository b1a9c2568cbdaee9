import DeferredWork.Job.Order
import DeferredWork.Store.Basic
set_option autoImplicit false

/-!
# Questions to the store

Reading single jobs, polling for due ones, and listing jobs and incidents.  A store out of reach
answers none of them.  The poll leaves out jobs of a scope whose exclusive work is running, so
that it offers only what can be locked.
-/

namespace DeferredWork

namespace JobTable

/-- The scopes whose exclusive work is running, in the order in which a walk through the rows meets
them. -/
def busyScopesIn (order : Visiting) (t : JobTable) (now : Instant) : List ScopeId :=
  ((order.rows t.rows).filter fun job => job.hasLiveLock now).filterMap Job.exclusivityScope

/-- The scopes whose exclusive work is running. -/
def busyScopes (t : JobTable) (now : Instant) : List ScopeId := t.busyScopesIn .asKept now

/-- The job can be acquired, and its scope is not among the busy ones. -/
def isEligibleAmong (busy : List ScopeId) (now : Instant) (job : Job) : Bool :=
  job.isAcquirable now &&
    match job.exclusivityScope with
    | none => true
    | some scope => !busy.contains scope

/-- The job can be acquired and its scope is free. -/
def isEligible (t : JobTable) (now : Instant) (job : Job) : Bool :=
  isEligibleAmong (t.busyScopes now) now job

/-- The best eligible jobs, at most `limit` of them, in the order of polling; the walk for the busy
scopes and the one for the jobs visit the rows in the given orders. -/
def pollIn (scopes jobs : Visiting) (t : JobTable) (now : Instant) (limit : Nat) : List Job :=
  (((jobs.rows t.rows).filter (isEligibleAmong (t.busyScopesIn scopes now) now)).mergeSort
    Job.isPolledBefore).take limit

/-- The best eligible jobs, at most `limit` of them, in the order of polling. -/
def poll (t : JobTable) (now : Instant) (limit : Nat) : List Job :=
  t.pollIn .asKept .asKept now limit

theorem poll_eq (t : JobTable) (now : Instant) (limit : Nat) :
    t.poll now limit =
      ((t.rows.filter (t.isEligible now)).mergeSort Job.isPolledBefore).take limit := rfl

end JobTable

namespace Store

/-- An answer, unless the store is out of reach. -/
def answer {α : Type} (s : Store) (a : α) : Except StoreError α :=
  if s.available then .ok a else .error outOfReach

/-- The job of a name. -/
def get (s : Store) (id : JobId) : Except StoreError (Option Job) := s.answer (s.jobs.find? id)

/-- The best eligible jobs, at most `limit` of them; walks through the rows visit in the given
orders. -/
def findDueIn (scopes jobs : Visiting) (s : Store) (now : Instant) (limit : Nat) :
    Except StoreError (List Job) :=
  s.answer (s.jobs.pollIn scopes jobs now limit)

/-- The best eligible jobs, at most `limit` of them. -/
def findDue (s : Store) (now : Instant) (limit : Nat) : Except StoreError (List Job) :=
  s.findDueIn .asKept .asKept now limit

theorem findDue_eq (s : Store) (now : Instant) (limit : Nat) :
    s.findDue now limit = s.answer (s.jobs.poll now limit) := rfl

/-- All jobs in the order of their names. -/
def allJobs (s : Store) : Except StoreError (List Job) := s.answer s.jobs.rows

/-- The open incidents, the oldest first. -/
def openIncidents (s : Store) : Except StoreError (List Incident) :=
  s.answer ((s.incidents.filter Incident.isOpen).mergeSort fun a b => decide (a.created ≤ b.created))

/-- The incidents of a job, in the order in which they were first raised. -/
def incidentsFor (s : Store) (id : JobId) : Except StoreError (List Incident) :=
  s.answer (s.incidents.filter fun i => i.jobId == id)

end Store

end DeferredWork

set_option autoImplicit false

/-!
# Execution pools

A pool has a fixed number of workers and a bounded queue.  It takes a job if a worker is idle or the
queue has room, hands it back otherwise, and starts jobs in the order in which it took them.  A pool
that is shut down takes no more jobs and runs those it has to their end.  Main statement: the pool
never runs more jobs than it has workers.
-/

namespace DeferredWork

/-- A pool at rest: no job waits while a worker is idle. -/
structure Pool (α : Type) where
  /-- How many jobs run at a time. -/
  size : Nat
  /-- How many jobs may wait. -/
  capacity : Nat
  running : List α
  /-- The jobs that wait, in the order of their arrival. -/
  waiting : List α
  finished : List α
  /-- The pool takes jobs. -/
  isOpen : Bool
  size_pos : 0 < size
  running_le : running.length ≤ size
  settled : waiting ≠ [] → running.length = size

namespace Pool

variable {α : Type}

/-- A pool with at least one worker and without jobs. -/
def start (workers capacity : Nat) : Pool α where
  size := max workers 1
  capacity := capacity
  running := []
  waiting := []
  finished := []
  isOpen := true
  size_pos := by omega
  running_le := Nat.zero_le _
  settled := fun h => absurd rfl h

/-- The pool takes one more job. -/
def hasRoom (p : Pool α) : Bool :=
  p.isOpen && (decide (p.running.length < p.size) || decide (p.waiting.length < p.capacity))

/-- The pool after it takes a job: a worker starts it, or it waits. -/
def submit? (p : Pool α) (job : α) : Option (Pool α) :=
  if p.hasRoom then
    if h : p.running.length < p.size then
      some
        { p with
          running := p.running ++ [job]
          running_le := by rw [List.length_append]; exact h
          settled := fun hw => absurd (p.settled hw) (Nat.ne_of_lt h) }
    else
      some
        { p with
          waiting := p.waiting ++ [job]
          settled := fun _ => Nat.le_antisymm p.running_le (Nat.le_of_not_lt h) }
  else none

/-- The pool after the `i`-th running job ends; the first waiting job takes its place. -/
def finish (p : Pool α) (i : Fin p.running.length) : Pool α :=
  match h : p.waiting with
  | [] =>
    { p with
      running := p.running.eraseIdx i
      waiting := []
      finished := p.finished ++ [p.running[i]]
      running_le := Nat.le_trans (List.length_eraseIdx_le ..) p.running_le
      settled := fun hw => absurd rfl hw }
  | next :: rest =>
    { p with
      running := p.running.eraseIdx i ++ [next]
      waiting := rest
      finished := p.finished ++ [p.running[i]]
      running_le := by
        have := p.running_le
        have := i.isLt
        simp only [List.length_append, List.length_eraseIdx, List.length_singleton]
        split <;> omega
      settled := fun _ => by
        have := p.settled (by simp [h])
        have := i.isLt
        simp only [List.length_append, List.length_eraseIdx, List.length_singleton]
        split <;> omega }

/-- The pool after it is shut down: all its jobs have ended. -/
def shutdown (p : Pool α) : Pool α :=
  { p with
    running := []
    waiting := []
    finished := p.finished ++ p.running ++ p.waiting
    isOpen := false
    running_le := Nat.zero_le _
    settled := fun h => absurd rfl h }

/-- How many jobs run. -/
def active (p : Pool α) : Nat := p.running.length

/-- How many jobs wait. -/
def queued (p : Pool α) : Nat := p.waiting.length

/-- No job runs or waits. -/
def isIdle (p : Pool α) : Bool := p.active == 0 && p.queued == 0

/-- Jobs per worker, at most one. -/
def utilization (p : Pool α) : Float :=
  let load := Float.ofNat (p.active + p.queued) / Float.ofNat p.size
  if load < 1 then load else 1

end Pool

end DeferredWork

import DeferredWork.Store.View
set_option autoImplicit false

/-!
# Staged rows

While a batch is checked, what it writes is staged over the table: a staged row stands before the
table's row of its name, and a name that is staged without a row is gone.  The table changes only
when the whole batch was accepted.  Staged rows and table rows are kept without an order of their
own, so that walks through them take an order of visiting.
-/

namespace DeferredWork

/-- The order in which a walk visits what it goes through. -/
structure Visiting where
  rows : List Job → List Job
  staged : List (JobId × Option Job) → List (JobId × Option Job)
  rows_perm : ∀ jobs, (rows jobs).Perm jobs
  staged_perm : ∀ entries, (staged entries).Perm entries

/-- Visits everything in the order in which it is kept. -/
def Visiting.asKept : Visiting := ⟨id, id, fun _ => .refl _, fun _ => .refl _⟩

/-- The rows of a table under those that a batch has staged. -/
structure Overlay where
  base : JobTable
  /-- What becomes of each name that the batch has written. -/
  staged : List (JobId × Option Job)
  nodup : (staged.map Prod.fst).Nodup
  named : ∀ entry ∈ staged, ∀ row, entry.2 = some row → row.id = entry.1

namespace Overlay

/-- The rows of a table with nothing staged. -/
def unstaged (base : JobTable) : Overlay := ⟨base, [], .nil, fun _ h => nomatch h⟩

/-- What the batch has staged for a name: nothing, the end of its row, or a row. -/
def stagedFor? (o : Overlay) (id : JobId) : Option (Option Job) := o.staged.lookup id

/-- The row of a name. -/
def find? (o : Overlay) (id : JobId) : Option Job :=
  match o.stagedFor? id with
  | some row => row
  | none => o.base.find? id

/-- The rows with one more entry staged, in place of the one of its name. -/
def stage (o : Overlay) (id : JobId) (row : Option Job) (h : ∀ job, row = some job → job.id = id) :
    Overlay where
  base := o.base
  staged := (id, row) :: o.staged.filter fun entry => entry.1 != id
  nodup := by
    refine List.nodup_cons.2 ⟨?_, o.nodup.sublist (List.filter_sublist.map _)⟩
    simp
  named := by
    intro entry hmem job hrow
    rcases List.mem_cons.1 hmem with rfl | hmem
    · exact h job hrow
    · exact o.named entry (List.mem_filter.1 hmem).1 job hrow

/-- The rows after a change. -/
def change (o : Overlay) : Change → Overlay
  | .put row => o.stage row.id (some row) (by simp)
  | .erase id => o.stage id none (by simp)
  | .keep => o

/-- Another exclusive job of the scope holds a live lock: a staged one, or one of the table for
whose name nothing is staged. -/
def isScopeBusy (o : Overlay) (order : Visiting) (scope : ScopeId) (except : JobId)
    (now : Instant) : Bool :=
  ((order.staged o.staged).any fun entry => entry.2.any fun job => job.occupies scope except now) ||
    (order.rows o.base.rows).any fun job =>
      (o.stagedFor? job.id).isNone && job.occupies scope except now

/-- The rows as the next write of the batch sees them. -/
def view (o : Overlay) (order : Visiting) : View := ⟨o.find?, o.isScopeBusy order⟩

/-- The rows after all writes of a batch, and the rows that the writes leave, in order.  The walks
made while `n` writes are still to come visit in the order `orders n`. -/
def writeAll (orders : Nat → Visiting) (o : Overlay) :
    List Write → Except StoreError (Overlay × List Job)
  | [] => .ok (o, [])
  | w :: ws =>
    match (o.view (orders ws.length)).judge w with
    | .error e => .error e
    | .ok change =>
      match (o.change change).writeAll orders ws with
      | .error e => .error e
      | .ok (o, rows) => .ok (o, change.row?.toList ++ rows)

/-- What a staged entry does to the table. -/
def settle : JobId × Option Job → Change
  | (_, some row) => .put row
  | (id, none) => .erase id

/-- The table after everything staged took effect. -/
def commit (o : Overlay) (order : Visiting) : JobTable :=
  ((order.staged o.staged).map settle).foldl JobTable.change o.base

end Overlay

end DeferredWork

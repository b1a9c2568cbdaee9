import DeferredWork.Job.Basic
set_option autoImplicit false

/-!
# The order of polling

Jobs are polled by priority, the higher first; of one priority by due date, a job without one first;
then by creation; and last by name, so that no two jobs with different names are level.
-/

namespace DeferredWork

namespace Job

/-- Compares the places of two jobs in a poll. -/
def pollOrder : Job → Job → Ordering :=
  compareLex (compareOn fun job => -job.priority) <|
    compareLex (compareOn due) <|
      compareLex (compareOn created) (compareOn id)

instance : Std.TransCmp pollOrder :=
  inferInstanceAs (Std.TransCmp (compareLex _ (compareLex _ (compareLex _ _))))

/-- The first job is polled before the second, or they are level. -/
def isPolledBefore (a b : Job) : Bool := (pollOrder a b).isLE

theorem isPolledBefore_trans (a b c : Job) (h₁ : a.isPolledBefore b = true)
    (h₂ : b.isPolledBefore c = true) : a.isPolledBefore c = true :=
  Std.TransCmp.isLE_trans h₁ h₂

theorem isPolledBefore_total (a b : Job) : (a.isPolledBefore b || b.isPolledBefore a) = true := by
  rw [isPolledBefore, isPolledBefore, @Std.OrientedCmp.eq_swap Job pollOrder _ b a]
  cases pollOrder a b <;> rfl

theorem id_eq_of_level {a b : Job} (h : pollOrder a b = .eq) : a.id = b.id := by
  simp only [pollOrder, compareLex_eq_eq] at h
  exact Std.LawfulEqCmp.eq_of_compare h.2.2.2

end Job

end DeferredWork

import DeferredWork.Entries
import DeferredWork.Text.Quoted
import DeferredWork.Transaction.Body
set_option autoImplicit false

/-!
# Handlers

A handler interprets the jobs of one kind.  It runs inside a transaction, so that what it stages is
committed together with the end of the job.  When it fails it may shorten the retries that are left
and may choose the wait before the next attempt.

A registry finds the handler of a kind of job by patterns.  An exact name comes first, then the
longest category (`p.*` covers the kinds that start with `p.`), then `*`.  Handlers may be of any
type.  Main statements: a registration replaces the one under the same pattern and leaves all others
alone, no two patterns of a registry are equal, and the best category is the longest one.
-/

namespace DeferredWork

/-- What interprets the jobs of one kind.  Its work on a job takes time and can break off; what it says
of the retries and of the wait after a failure, it says always and at once. -/
structure Handler (ε : Type → Type) : Type 1 where
  /-- Does the work of a job. -/
  handle : Job → Handling ε
  /-- The retries left after a failure; a larger number than the usual one does not count. -/
  retriesAfter : Job → Nat := fun job => job.retries - 1
  /-- The wait before the next attempt, if the handler chooses one. -/
  delayAfter : Job → HandlerError → Option Duration := fun _ _ => none

/-- A handler that does nothing and succeeds. -/
def Handler.idle {ε : Type → Type} : Handler ε where
  handle _ := pure ()

/-! ## Registries -/

/-- Handlers under patterns, no two of which are equal. -/
structure Registry (H : Type 1) : Type 1 where
  entries : List (String × H)
  nodup : (entries.map Prod.fst).Nodup

namespace Registry

variable {H : Type 1}

/-- A registry without handlers. -/
def empty : Registry H := ⟨[], .nil⟩

/-- The entries after a handler is put under a pattern. -/
def putEntry (pattern : String) (handler : H) : List (String × H) → List (String × H)
  | [] => [(pattern, handler)]
  | e :: es => if e.1 = pattern then (pattern, handler) :: es else e :: putEntry pattern handler es

theorem map_fst_putEntry (pattern : String) (handler : H) (entries : List (String × H)) :
    (putEntry pattern handler entries).map Prod.fst =
      if pattern ∈ entries.map Prod.fst then entries.map Prod.fst
      else entries.map Prod.fst ++ [pattern] := by
  induction entries with
  | nil => simp [putEntry]
  | cons e es ih =>
    by_cases h : e.1 = pattern
    · simp [putEntry, h]
    · simp only [putEntry, h, if_false, List.map_cons, ih, List.mem_cons, Ne.symm h, false_or]
      split <;> rfl

theorem nodup_putEntry {pattern : String} {handler : H} {entries : List (String × H)}
    (h : (entries.map Prod.fst).Nodup) : ((putEntry pattern handler entries).map Prod.fst).Nodup := by
  rw [map_fst_putEntry]
  split
  · exact h
  · next hn =>
    refine List.nodup_append.2 ⟨h, List.nodup_cons.2 ⟨List.not_mem_nil, .nil⟩, ?_⟩
    intro p hp q hq
    rw [List.mem_singleton.1 hq]
    exact fun e => hn (e ▸ hp)

/-- Puts a handler under a pattern, in the place of the one that is there. -/
def register (r : Registry H) (pattern : String) (handler : H) : Registry H :=
  ⟨putEntry pattern handler r.entries, nodup_putEntry r.nodup⟩

/-- The handler under a pattern. -/
def get? (r : Registry H) (pattern : String) : Option H := r.entries.lookup pattern

theorem lookup_putEntry (pattern p : String) (handler : H) (entries : List (String × H)) :
    (putEntry pattern handler entries).lookup p =
      if p = pattern then some handler else entries.lookup p := by
  induction entries with
  | nil =>
    by_cases h : p = pattern
    · simp [putEntry, h]
    · simp [putEntry, List.lookup_cons, h, beq_eq_false_iff_ne.2 h]
  | cons e es ih =>
    obtain ⟨k, a⟩ := e
    by_cases hk : k = pattern
    · subst hk
      by_cases h : p = k
      · simp [putEntry, h]
      · simp [putEntry, List.lookup_cons, h, beq_eq_false_iff_ne.2 h]
    · by_cases h : p = k
      · subst h
        simp [putEntry, hk]
      · simp [putEntry, hk, List.lookup_cons, beq_eq_false_iff_ne.2 h, ih]

@[simp]
theorem get?_register (r : Registry H) (pattern p : String) (handler : H) :
    (r.register pattern handler).get? p = if p = pattern then some handler else r.get? p :=
  lookup_putEntry pattern p handler r.entries

/-- A pattern has the handler of its entry. -/
theorem get?_eq_some_iff {r : Registry H} {pattern : String} {handler : H} :
    r.get? pattern = some handler ↔ (pattern, handler) ∈ r.entries :=
  lookup_eq_some_iff_mem r.nodup

/-! ## Categories -/

/-- The part of a category pattern before `.*`. -/
def category? (pattern : String) : Option (List Char) :=
  match pattern.toList.reverse with
  | '*' :: '.' :: rest => some rest.reverse
  | _ => none

/-- The kind lies in the category: it starts with the category's name and a point. -/
def isWithin (kind : String) (category : List Char) : Bool :=
  (category ++ ['.']).isPrefixOf kind.toList

/-- The length of the category that a pattern stands for, if the kind lies in it. -/
def coverage? (kind pattern : String) : Option Nat :=
  match category? pattern with
  | some category => if isWithin kind category then some category.length else none
  | none => none

/-- The better of two candidates: the one of the longer category. -/
def longer (a b : Option (Nat × H)) : Option (Nat × H) :=
  match a, b with
  | some (m, h), some (n, k) => if m < n then some (n, k) else some (m, h)
  | some a, none => some a
  | none, b => b

theorem longer_eq_none_iff {a b : Option (Nat × H)} :
    longer a b = none ↔ a = none ∧ b = none := by
  cases a <;> cases b <;> grind [longer]

/-- The longer of two candidates is one of them, and neither is longer than it. -/
theorem of_longer_eq_some {a b : Option (Nat × H)} {best : Nat × H} (h : longer a b = some best) :
    (a = some best ∨ b = some best) ∧
      ∀ candidate, a = some candidate ∨ b = some candidate → candidate.1 ≤ best.1 := by
  cases a <;> cases b <;> grind [longer]

/-- The handler of the longest category in which a kind lies. -/
def bestCategory (kind : String) : List (String × H) → Option (Nat × H)
  | [] => none
  | (pattern, handler) :: es =>
    longer ((coverage? kind pattern).map fun n => (n, handler)) (bestCategory kind es)

theorem bestCategory_eq_none_iff {kind : String} {entries : List (String × H)} :
    bestCategory kind entries = none ↔ ∀ e ∈ entries, coverage? kind e.1 = none := by
  induction entries with
  | nil => simp [bestCategory]
  | cons e es ih =>
    rw [List.forall_mem_cons, ← ih, bestCategory, longer_eq_none_iff, Option.map_eq_none_iff]

/-- The best category is that of an entry, and no entry covers the kind by a longer one. -/
theorem of_bestCategory_eq_some {kind : String} {entries : List (String × H)} {n : Nat}
    {handler : H} (h : bestCategory kind entries = some (n, handler)) :
    (∃ pattern, (pattern, handler) ∈ entries ∧ coverage? kind pattern = some n) ∧
      ∀ e ∈ entries, ∀ m, coverage? kind e.1 = some m → m ≤ n := by
  induction entries generalizing n handler with
  | nil => cases h
  | cons e es ih =>
    obtain ⟨pattern, first⟩ := e
    obtain ⟨hfrom, hlongest⟩ := of_longer_eq_some h
    constructor
    · rcases hfrom with hfirst | hrest
      · obtain ⟨m, hcovers, hsame⟩ := Option.map_eq_some_iff.1 hfirst
        cases hsame
        exact ⟨pattern, List.mem_cons_self, hcovers⟩
      · obtain ⟨p, hp, hcovers⟩ := (ih hrest).1
        exact ⟨p, List.mem_cons_of_mem _ hp, hcovers⟩
    · intro e he m hcovers
      rcases List.mem_cons.1 he with rfl | he
      · exact hlongest (m, first) (.inl (Option.map_eq_some_iff.2 ⟨m, hcovers, rfl⟩))
      · cases hbest : bestCategory kind es with
        | none =>
          rw [bestCategory_eq_none_iff.1 hbest e he] at hcovers
          cases hcovers
        | some best => exact Nat.le_trans ((ih hbest).2 e he m hcovers) (hlongest best (.inr hbest))

/-- The handler of a kind. -/
def resolve (r : Registry H) (kind : String) : Option H :=
  match r.get? kind with
  | some handler => some handler
  | none =>
    match bestCategory kind r.entries with
    | some (_, handler) => some handler
    | none => r.get? "*"

/-- The handler of a kind is one that was registered. -/
theorem exists_mem_of_resolve {r : Registry H} {kind : String} {handler : H}
    (h : r.resolve kind = some handler) : ∃ p, (p, handler) ∈ r.entries := by
  unfold resolve at h
  split at h
  · rename_i found hfound
    cases h
    exact ⟨kind, get?_eq_some_iff.1 hfound⟩
  · split at h
    · rename_i hbest
      cases h
      obtain ⟨pattern, hmem, -⟩ := (of_bestCategory_eq_some hbest).1
      exact ⟨pattern, hmem⟩
    · exact ⟨"*", get?_eq_some_iff.1 h⟩

/-- How many patterns have a handler. -/
def size (r : Registry H) : Nat := r.entries.length

/-- The patterns in order. -/
def patterns (r : Registry H) : List String :=
  (r.entries.map Prod.fst).mergeSort fun a b => decide (a ≤ b)

/-- The registry for a reader: its patterns, in order and quoted. -/
def describe (r : Registry H) : String :=
  "HandlerRegistry \x7b patterns: [" ++ ", ".intercalate (r.patterns.map Text.quoted) ++ "] \x7d"

end Registry

end DeferredWork

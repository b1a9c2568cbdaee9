set_option autoImplicit false

/-!
# Lists of entries

Values under keys, kept in a list.  While no two keys are equal, a look-up finds exactly the entries
of the list, and their order does not matter to it.
-/

namespace DeferredWork

universe u v

variable {α : Type u} {β : Type v} [BEq α] [LawfulBEq α] {entries entries' : List (α × β)}

/-- An entry of a list in which each key occurs once is what a look-up of its key finds. -/
theorem lookup_eq_some_iff_mem (hnodup : (entries.map Prod.fst).Nodup) {key : α} {value : β} :
    entries.lookup key = some value ↔ (key, value) ∈ entries := by
  induction entries with
  | nil => simp
  | cons entry rest ih =>
    obtain ⟨k, found⟩ := entry
    obtain ⟨hk, hrest⟩ := List.nodup_cons.1 hnodup
    rw [List.lookup_cons, List.mem_cons]
    by_cases h : key = k
    · subst h
      have hnot : (key, value) ∉ rest := fun hmem => hk (List.mem_map.2 ⟨_, hmem, rfl⟩)
      simp [hnot, eq_comm]
    · have hne : (key == k) = false := beq_eq_false_iff_ne.2 h
      simp [hne, h, ih hrest]

/-- A look-up does not depend on the order of the entries. -/
theorem lookup_eq_of_perm (hnodup : (entries.map Prod.fst).Nodup) (hperm : entries.Perm entries')
    (key : α) : entries.lookup key = entries'.lookup key := by
  have hnodup' : (entries'.map Prod.fst).Nodup := (hperm.map Prod.fst).nodup_iff.1 hnodup
  refine Option.ext fun value => ?_
  rw [lookup_eq_some_iff_mem hnodup, lookup_eq_some_iff_mem hnodup', hperm.mem_iff]

end DeferredWork

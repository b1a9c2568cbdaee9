import DeferredWork.Identifier
import DeferredWork.Proofs.Text.Digits

set_option autoImplicit false

/-!
# Reading identifiers that were written

A universally unique identifier is read back from its five groups of digits (`read?_write`), so
identifiers that are drawn one after the other give different names (`JobId.ofUuid_drawn_succ_ne`).
-/

namespace DeferredWork

namespace Uuid

open Text

/-- Five groups with hyphens between them are read as their digits. -/
theorem ofGroups?_groups {a b c d e : List Char} (ha : a.length = 8) (hb : b.length = 4)
    (hc : c.length = 4) (hd : d.length = 4) (he : e.length = 12) :
    ofGroups? (a ++ '-' :: (b ++ '-' :: (c ++ '-' :: (d ++ '-' :: e)))) =
      ofDigits? (a ++ b ++ c ++ d ++ e) := by
  simp [ofGroups?, ha, hb, hc, hd, he, List.drop_append, List.drop_eq_nil_of_le]

theorem ofDigits?_hexPadded (u : Uuid) : ofDigits? (hexPadded 32 u.bits) = some u := by
  have hread : ofHex? 0 (hexPadded 32 u.bits) = some u.bits :=
    ofHex?_hexPadded (by have := u.bits_lt; omega)
  simp [ofDigits?, length_hexPadded, hread, u.bits_lt]

theorem length_write (u : Uuid) : u.write.length = 36 := by
  simp [write, length_hexPadded]

/-- Cutting digits into groups loses none. -/
theorem groups_append (ds : List Char) :
    ds.take 8 ++ (ds.drop 8).take 4 ++ (ds.drop 12).take 4 ++ (ds.drop 16).take 4 ++ ds.drop 20 =
      ds := by
  have hgroup : ∀ i, (ds.drop i).take 4 ++ ds.drop (i + 4) = ds.drop i := fun i => by
    rw [← List.drop_drop, List.take_append_drop]
  rw [List.append_assoc, hgroup 16, List.append_assoc, hgroup 12, List.append_assoc, hgroup 8,
    List.take_append_drop]

theorem ofGroups?_write (u : Uuid) : ofGroups? u.write = some u := by
  have hlength := length_hexPadded 32 u.bits
  simp only [write, List.append_assoc, List.cons_append]
  rw [ofGroups?_groups, groups_append, ofDigits?_hexPadded] <;> simp [hlength]

theorem read?_write (u : Uuid) : read? u.write = some u := by
  simp [read?, length_write, ofGroups?_write]

/-- Identifiers of one text are the same. -/
theorem eq_of_text_eq {u v : Uuid} (h : u.text = v.text) : u = v := by
  have hwrite : u.write = v.write := String.ofList_injective h
  have hread : read? u.write = some v := by rw [hwrite, read?_write]
  rw [read?_write] at hread
  exact Option.some.inj hread

theorem drawn_succ_ne (era n : Nat) : drawn era (n + 1) ≠ drawn era n := by
  intro h
  have hbits := congrArg Uuid.bits h
  simp only [drawn] at hbits
  omega

end Uuid

theorem JobId.ofUuid_drawn_succ_ne (era n : Nat) :
    ofUuid (.drawn era (n + 1)) ≠ ofUuid (.drawn era n) := fun h =>
  Uuid.drawn_succ_ne era n (Uuid.eq_of_text_eq (congrArg JobId.text h))

end DeferredWork

import DeferredWork.Settings.Basic

set_option autoImplicit false

/-!
# What settings have to keep

Settings are accepted exactly if they keep all rules (`Settings.validate_eq_ok_iff`), and otherwise
the first of the rules that they break is reported (`Settings.flaw?_eq_some_iff`).
-/

namespace DeferredWork

/-! ## The first in a list -/

section

variable {α : Type} {p : α → Prop} {l : List α} {a b : α}

/-- The first member of a list that is so. -/
def FirstIn (p : α → Prop) (l : List α) (a : α) : Prop :=
  ∃ earlier later, l = earlier ++ a :: later ∧ p a ∧ ∀ b ∈ earlier, ¬ p b

theorem not_firstIn_nil : ¬ FirstIn p [] a := by
  rintro ⟨earlier, later, h, -, -⟩
  exact absurd h.symm (List.append_ne_nil_of_right_ne_nil earlier (List.cons_ne_nil a later))

theorem firstIn_cons : FirstIn p (b :: l) a ↔ p b ∧ b = a ∨ ¬ p b ∧ FirstIn p l a := by
  constructor
  · rintro ⟨earlier, later, hl, ha, hearlier⟩
    cases earlier with
    | nil =>
      obtain ⟨rfl, rfl⟩ := List.cons.inj hl
      exact .inl ⟨ha, rfl⟩
    | cons c earlier =>
      obtain ⟨rfl, rfl⟩ := List.cons.inj hl
      obtain ⟨hb, hearlier⟩ := List.forall_mem_cons.1 hearlier
      exact .inr ⟨hb, earlier, later, rfl, ha, hearlier⟩
  · rintro (⟨hb, rfl⟩ | ⟨hb, earlier, later, rfl, ha, hearlier⟩)
    · exact ⟨[], l, rfl, hb, nofun⟩
    · exact ⟨b :: earlier, later, rfl, ha, List.forall_mem_cons.2 ⟨hb, hearlier⟩⟩

theorem FirstIn.mem (h : FirstIn p l a) : a ∈ l := by
  obtain ⟨earlier, later, rfl, -, -⟩ := h
  simp

theorem FirstIn.holds (h : FirstIn p l a) : p a := by
  obtain ⟨_, _, -, ha, -⟩ := h
  exact ha

/-- If a member is so, there is a first one. -/
theorem exists_firstIn (ha : a ∈ l) (h : p a) : ∃ b, FirstIn p l b := by
  induction l with
  | nil => cases ha
  | cons c l ih =>
    by_cases hc : p c
    · exact ⟨c, firstIn_cons.2 (.inl ⟨hc, rfl⟩)⟩
    · have hmem : a ∈ l := (List.mem_cons.1 ha).resolve_left fun hac => hc (hac ▸ h)
      obtain ⟨b, hb⟩ := ih hmem
      exact ⟨b, firstIn_cons.2 (.inr ⟨hc, hb⟩)⟩

/-- Only one member is the first. -/
theorem FirstIn.unique (ha : FirstIn p l a) (hb : FirstIn p l b) : a = b := by
  induction l with
  | nil => exact absurd ha not_firstIn_nil
  | cons c l ih =>
    rcases firstIn_cons.1 ha with ⟨hc, rfl⟩ | ⟨hc, ha⟩ <;>
      rcases firstIn_cons.1 hb with ⟨hc', rfl⟩ | ⟨hc', hb⟩
    · rfl
    · exact absurd hc hc'
    · exact absurd hc' hc
    · exact ih ha hb

end

/-! ## Rules -/

namespace Settings

/-- The settings keep every rule. -/
structure IsSound (s : Settings) : Prop where
  name_visible : Text.isBlankText s.name = false
  batch_pos : 0 < s.batch
  workers_pos : 0 < s.workers
  /-- A lock lasts longer than a transaction may take. -/
  limit_lt_lock : s.limit < s.lockDuration
  base_le_cap : s.retryPolicy.base ≤ s.retryPolicy.cap
  jitter_share : 0 ≤ s.retryPolicy.jitter ∧ s.retryPolicy.jitter ≤ 1
  interval_le_idle : s.pollInterval ≤ s.maxIdle
  lowWater_share : 0 ≤ s.backpressure.lowWater ∧ s.backpressure.lowWater ≤ 1

theorem not_isShare_eq_false_iff {x : Float} : (!isShare x) = false ↔ 0 ≤ x ∧ x ≤ 1 := by
  simp [isShare]

/-- No flaw is found by a check before others exactly if it passes and they find none. -/
theorem check_eq_none_iff {broken : Prop} [Decidable broken] {flaw : SettingsFlaw}
    {others : Option SettingsFlaw} :
    (if broken then some flaw else others) = none ↔ ¬ broken ∧ others = none := by
  split
  · rename_i h
    exact ⟨nofun, fun hpassed => absurd h hpassed.1⟩
  · rename_i h
    exact ⟨fun hothers => ⟨h, hothers⟩, And.right⟩

theorem flaw?_eq_none_iff {s : Settings} : s.flaw? = none ↔ s.IsSound := by
  unfold flaw?
  simp only [check_eq_none_iff, not_isShare_eq_false_iff, Bool.not_eq_true, Duration.le_def,
    Duration.lt_def, Nat.not_le, Nat.not_lt, ← Nat.pos_iff_ne_zero, and_true]
  constructor
  · rintro ⟨hname, hbatch, hworkers, hlock, hcap, hjitter, hidle, hlow⟩
    exact ⟨hname, hbatch, hworkers, hlock, hcap, hjitter, hidle, hlow⟩
  · rintro ⟨hname, hbatch, hworkers, hlock, hcap, hjitter, hidle, hlow⟩
    exact ⟨hname, hbatch, hworkers, hlock, hcap, hjitter, hidle, hlow⟩

/-- Settings are accepted exactly if they keep every rule. -/
theorem validate_eq_ok_iff {s : Settings} : s.validate = .ok () ↔ s.IsSound := by
  rw [← flaw?_eq_none_iff, validate]
  cases s.flaw? <;> simp

/-- The settings break the rule that a flaw names. -/
def Breaks (s : Settings) : SettingsFlaw → Prop
  | .blankName => ∀ c ∈ s.name.toList, Text.isBlank c = true
  | .emptyBatch => s.batch = 0
  | .noWorkers => s.workers = 0
  | .lockTooShort _ _ => s.lockDuration ≤ s.limit
  | .capBelowBase => s.retryPolicy.cap < s.retryPolicy.base
  | .jitterOutOfRange => ¬ (0 ≤ s.retryPolicy.jitter ∧ s.retryPolicy.jitter ≤ 1)
  | .idleBelowInterval => s.maxIdle < s.pollInterval
  | .lowWaterOutOfRange => ¬ (0 ≤ s.backpressure.lowWater ∧ s.backpressure.lowWater ≤ 1)

/-- All rules, in the order in which they are checked. -/
def rules (s : Settings) : List SettingsFlaw :=
  [.blankName, .emptyBatch, .noWorkers, .lockTooShort s.lockDuration s.limit, .capBelowBase,
    .jitterOutOfRange, .idleBelowInterval, .lowWaterOutOfRange]

theorem check_eq_some_iff {broken : Prop} [Decidable broken] {flaw found : SettingsFlaw}
    {others : Option SettingsFlaw} :
    (if broken then some flaw else others) = some found ↔
      broken ∧ flaw = found ∨ ¬ broken ∧ others = some found := by
  split
  · rename_i h
    simp [h]
  · rename_i h
    simp [h]

/-- The first rule in order that the settings break is the flaw that is found. -/
theorem flaw?_eq_some_iff {s : Settings} {flaw : SettingsFlaw} :
    s.flaw? = some flaw ↔ FirstIn s.Breaks s.rules flaw := by
  have hname : Text.isBlankText s.name = true ↔ s.Breaks .blankName := List.all_eq_true
  have hshare : ∀ x : Float, (!isShare x) = true ↔ ¬ (0 ≤ x ∧ x ≤ 1) := fun x => by
    rw [← not_isShare_eq_false_iff, Bool.not_eq_false]
  unfold flaw? rules
  simp only [check_eq_some_iff, firstIn_cons, hname, hshare, Breaks, reduceCtorEq]
  simp only [not_firstIn_nil, iff_self]

end Settings

end DeferredWork

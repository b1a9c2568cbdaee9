import DeferredWork.Json.Record
import DeferredWork.Proofs.Json.Reading
import DeferredWork.Proofs.Time.Timestamp

set_option autoImplicit false

/-!
# Reading records that were written

The fields of a record are found again in the object that names them (`fields?_zip`), and each simple
type reads back what it wrote: what may be absent, numbers of the size that the field reserves,
durations, and instants outside the inserted seconds.
-/

namespace DeferredWork

namespace Json

/-! ## Fields -/

/-- A name that occurs once has the one value that stands beside it. -/
theorem valuesOf_of_mem {members : List (String × Json)} {m : String × Json}
    (hnames : (members.map Prod.fst).Nodup) (hm : m ∈ members) : valuesOf m.1 members = [m.2] := by
  induction members with
  | nil => exact absurd hm List.not_mem_nil
  | cons n ms ih =>
    obtain ⟨hn, hms⟩ := List.nodup_cons.1 hnames
    rcases List.mem_cons.1 hm with rfl | hm
    · have hothers : valuesOf m.1 ms = [] := by
        refine List.filterMap_eq_nil_iff.2 fun n hmem => if_neg fun heq => hn ?_
        rw [← heq]
        exact List.mem_map_of_mem hmem
      rw [valuesOf, List.filterMap_cons, if_pos rfl]
      exact congrArg (m.2 :: ·) hothers
    · have hne : ¬ n.1 = m.1 := fun heq => hn (heq ▸ List.mem_map_of_mem hm)
      rw [valuesOf, List.filterMap_cons, if_neg hne]
      exact ih hms hm

theorem mapM_names {f : String → Option (Option Json)} {names : List String} {values : List Json}
    (hlength : names.length = values.length) (h : ∀ m ∈ names.zip values, f m.1 = some (some m.2)) :
    names.mapM f = some (values.map some) := by
  induction names generalizing values with
  | nil =>
    rw [List.length_eq_zero_iff.1 hlength.symm]
    rfl
  | cons name names ih =>
    cases values with
    | nil => cases hlength
    | cons v vs =>
      have hhead := h (name, v) List.mem_cons_self
      have htail := ih (Nat.succ.inj hlength) fun m hm => h m (List.mem_cons_of_mem _ hm)
      simp [List.mapM_cons, hhead, htail]

/-- Each field of a record has the value that was written for it. -/
theorem fields?_zip {shape : RecordShape} {values : List Json} (hnames : shape.names.Nodup)
    (hlength : shape.names.length = values.length) :
    fields? shape (.object (shape.names.zip values)) = some (values.map some) := by
  have hfst : (shape.names.zip values).map Prod.fst = shape.names :=
    List.map_fst_zip (Nat.le_of_eq hlength)
  have hknown : (shape.names.zip values).any (fun m => !shape.names.contains m.1) = false := by
    refine List.any_eq_false.2 fun m hm => ?_
    have hmem : m.1 ∈ shape.names := (List.of_mem_zip hm).1
    simpa using hmem
  rw [fields?, hknown, Bool.and_false, if_neg Bool.false_ne_true]
  refine mapM_names hlength fun m hm => ?_
  rw [valuesOf_of_mem (hfst.symm ▸ hnames) hm]

/-- What may be absent is read back, as whatever the reader makes of it. -/
theorem optional_ofOption {α β : Type} {write : α → Json} {read : Json → Option β} {make : α → β}
    {o : Option α} (hnull : ∀ a, write a ≠ .null) (hread : ∀ a ∈ o, read (write a) = some (make a)) :
    optional read (some (ofOption write o)) = some (o.map make) := by
  cases o with
  | none => rfl
  | some a =>
    rw [ofOption, optional, hread a rfl]
    · rfl
    · exact hnull a

theorem optional_ofOption_self {α : Type} {write : α → Json} {read : Json → Option α} {o : Option α}
    (hnull : ∀ a, write a ≠ .null) (hread : ∀ a ∈ o, read (write a) = some a) :
    optional read (some (ofOption write o)) = some o := by
  have h := @optional_ofOption α α write read id o hnull hread
  rwa [Option.map_id] at h

/-! ## Numbers -/

theorem natOfBits?_ofNat {bits n : Nat} (h : n < 2 ^ bits) : natOfBits? bits (ofNat n) = some n := by
  have hbounds : (0 : Int) ≤ n ∧ (n : Int) ≤ (Nat.pow 2 bits - 1 : Nat) := by
    have hpow : 2 ^ bits = Nat.pow 2 bits := rfl
    omega
  simp only [natOfBits?, ofNat, ofInt, intWithin?, Numeral.int?_ofInt, Option.bind_eq_bind,
    Option.bind_some, if_pos hbounds, Option.map_some, Int.toNat_natCast]

theorem intOfBits?_ofInt {bits : Nat} {i : Int} (hlow : -(2 ^ (bits - 1) : Nat) ≤ i)
    (hhigh : i < (2 ^ (bits - 1) : Nat)) : intOfBits? bits (ofInt i) = some i := by
  have hbounds : -(Nat.pow 2 (bits - 1) : Nat) ≤ i ∧ i ≤ (Nat.pow 2 (bits - 1) - 1 : Nat) := by
    have hpow : 2 ^ (bits - 1) = Nat.pow 2 (bits - 1) := rfl
    omega
  simp only [intOfBits?, ofInt, intWithin?, Numeral.int?_ofInt, Option.bind_eq_bind,
    Option.bind_some, if_pos hbounds]

/-! ## Plain values -/

theorem isPlain_ofInt (i : Int) : IsPlain (ofInt i) := .number (Numeral.isWellFormed_ofInt i)

theorem isPlain_ofOption {α : Type} {write : α → Json} (h : ∀ a, IsPlain (write a)) (o : Option α) :
    IsPlain (ofOption write o) := by
  cases o with
  | none => exact .null
  | some a => exact h a

/-- A record of plain values is plain. -/
theorem isPlain_zip {names : List String} {values : List Json} (h : ∀ j ∈ values, IsPlain j) :
    IsPlain (.object (names.zip values)) :=
  .object fun _ hm => h _ (List.of_mem_zip hm).2

end Json

/-! ## Durations and instants -/

theorem Duration.ofParts?_parts (d : Duration) : ofParts? d.seconds d.subsecond = some d := by
  have hsum : d.seconds * 1000000000 + d.subsecond = d.nanos := by
    rw [seconds, subsecond]
    omega
  simp only [ofParts?, hsum]
  rw [dif_pos d.nanos_le]

theorem Duration.seconds_lt (d : Duration) : d.seconds < 2 ^ 64 := by
  have hmax := d.nanos_le
  rw [maxNanos] at hmax
  rw [seconds]
  omega

theorem Duration.ofJson?_toJson (d : Duration) : Duration.ofJson? d.toJson = some d := by
  have hfields : d.toJson.fields? shape = some [some (.ofNat d.seconds), some (.ofNat d.subsecond)] :=
    @Json.fields?_zip shape [.ofNat d.seconds, .ofNat d.subsecond] (by decide) rfl
  have hsecs : Json.natOfBits? 64 (.ofNat d.seconds) = some d.seconds :=
    Json.natOfBits?_ofNat d.seconds_lt
  have hnanos : Json.natOfBits? 32 (.ofNat d.subsecond) = some d.subsecond :=
    Json.natOfBits?_ofNat (by rw [subsecond]; omega)
  rw [ofJson?, Text.bind_part _ hfields]
  dsimp only
  rw [Json.required, Text.bind_part _ hsecs, Json.required, Text.bind_part _ hnanos,
    d.ofParts?_parts]

theorem Duration.isPlain_toJson (d : Duration) : d.toJson.IsPlain := by
  refine .object fun m hm => ?_
  rcases List.mem_cons.1 hm with rfl | hm
  · exact Json.isPlain_ofInt _
  · rw [List.mem_singleton.1 hm]
    exact Json.isPlain_ofInt _

theorem Instant.ofJson?_toJson {t : Instant} (h : t.isInserted = false) :
    Instant.ofJson? t.toJson = some t := by
  simp [toJson, ofJson?, Json.text?, Timestamp.read_write h]

theorem Instant.toJson_ne_null (t : Instant) : t.toJson ≠ .null := nofun

theorem Instant.isPlain_toJson (t : Instant) : t.toJson.IsPlain := .string _

namespace Json

/-! ## Fields of each type -/

theorem required_text (s : String) : required text? (some (.string s)) = some s := rfl

theorem required_bool (b : Bool) : required bool? (some (.bool b)) = some b := rfl

theorem required_nat {bits n : Nat} (h : n < 2 ^ bits) :
    required (natOfBits? bits) (some (ofNat n)) = some n := natOfBits?_ofNat h

theorem required_instant {t : Instant} (h : t.isInserted = false) :
    required Instant.ofJson? (some t.toJson) = some t := Instant.ofJson?_toJson h

theorem optional_text (o : Option String) :
    optional text? (some (ofOption .string o)) = some o :=
  optional_ofOption_self nofun fun _ _ => rfl

theorem optional_instant {o : Option Instant} (h : ∀ t ∈ o, t.isInserted = false) :
    optional Instant.ofJson? (some (ofOption Instant.toJson o)) = some o :=
  optional_ofOption_self Instant.toJson_ne_null fun t ht => Instant.ofJson?_toJson (h t ht)

theorem optional_duration (o : Option Duration) :
    optional Duration.ofJson? (some (ofOption Duration.toJson o)) = some o :=
  optional_ofOption_self nofun fun d _ => d.ofJson?_toJson

end Json

end DeferredWork

import DeferredWork.Json.Number
import DeferredWork.Time.Timestamp
set_option autoImplicit false

/-!
# Records in JSON

A record is written as an object with one member per field, and can be read from such an object or
from an array of the fields in order.  This module fixes how fields are found, which values each
simple type admits, and the JSON forms of durations and instants.
-/

namespace DeferredWork

/-- The fields of a record and how forgiving its reader is. -/
structure RecordShape where
  names : List String
  /-- A member with a name of its own is an error; otherwise it is skipped. -/
  closed : Bool := false
  /-- An array may end before the last field. -/
  mayBeShort : Bool := false

namespace Json

/-- The values of the members with a given name. -/
def valuesOf (name : String) (members : List (String × Json)) : List Json :=
  members.filterMap fun m => if m.1 = name then some m.2 else none

/-- The value of each field, in order, `none` for a field that is missing.  A field given twice is
an error. -/
def fields? (shape : RecordShape) : Json → Option (List (Option Json))
  | .object members =>
    if shape.closed && members.any (fun m => !shape.names.contains m.1) then none
    else shape.names.mapM fun name =>
      match valuesOf name members with
      | [] => some none
      | [j] => some (some j)
      | _ => none
  | .array items =>
    if items.length = shape.names.length || (shape.mayBeShort && items.length < shape.names.length) then
      some (items.map some ++ List.replicate (shape.names.length - items.length) none)
    else none
  | _ => none

/-! ## Fields -/

/-- A field that has to be there. -/
def required {α : Type} (read : Json → Option α) : Option Json → Option α
  | none => none
  | some j => read j

/-- A field that may be missing or `null`. -/
def optional {α : Type} (read : Json → Option α) : Option Json → Option (Option α)
  | none => some none
  | some .null => some none
  | some j => (read j).map some

/-- A field that may be missing and then has a value of its own. -/
def withDefault {α : Type} (default : α) (read : Json → Option α) : Option Json → Option α
  | none => some default
  | some j => read j

/-! ## Simple types -/

/-- The text of a string. -/
def text? : Json → Option String
  | .string s => some s
  | _ => none

/-- The value of a Boolean. -/
def bool? : Json → Option Bool
  | .bool b => some b
  | _ => none

/-- The value of a whole number between two bounds. -/
def intWithin? (low high : Int) : Json → Option Int
  | .number n => do
    let i ← n.int?
    if low ≤ i ∧ i ≤ high then some i else none
  | _ => none

/-- The value of a natural number of at most the given bits. -/
def natOfBits? (bits : Nat) (j : Json) : Option Nat :=
  (j.intWithin? 0 (Nat.pow 2 bits - 1 : Nat)).map Int.toNat

/-- The value of an integer of at most the given bits, one of them for the sign. -/
def intOfBits? (bits : Nat) (j : Json) : Option Int :=
  j.intWithin? (-(Nat.pow 2 (bits - 1) : Nat)) (Nat.pow 2 (bits - 1) - 1 : Nat)

/-- The value of a number as a double. -/
def double? : Json → Option Float
  | .number n => n.double?
  | _ => none

end Json

/-! ## Durations and instants -/

/-- A duration is a record of its seconds and nanoseconds. -/
def Duration.shape : RecordShape := { names := ["secs", "nanos"], closed := true }

/-- The JSON form of a duration. -/
def Duration.toJson (d : Duration) : Json :=
  .object [("secs", .ofNat d.seconds), ("nanos", .ofNat d.subsecond)]

/-- The duration that a JSON value stands for; nanoseconds beyond a second carry over. -/
def Duration.ofJson? (j : Json) : Option Duration := do
  match ← j.fields? shape with
  | [secs, nanos] => do
    let secs ← Json.required (Json.natOfBits? 64) secs
    let nanos ← Json.required (Json.natOfBits? 32) nanos
    ofParts? secs nanos
  | _ => none

/-- The JSON form of an instant: its timestamp. -/
def Instant.toJson (t : Instant) : Json := .string (String.ofList (Timestamp.write t))

/-- The instant that a JSON value stands for. -/
def Instant.ofJson? (j : Json) : Option Instant := do
  let s ← j.text?
  Timestamp.read s.toList

end DeferredWork

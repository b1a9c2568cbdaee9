import DeferredWork.Json.Basic
set_option autoImplicit false

/-!
# Walking through JSON values

Changing every string of a value, collecting the strings, and putting the members of all objects in
the order of their names, so that equal values have equal texts.
-/

namespace DeferredWork.Json

mutual

/-- The value with every string changed; the names of members stay. -/
def mapStrings (f : String → String) : Json → Json
  | .string s => .string (f s)
  | .array items => .array (mapItems f items)
  | .object members => .object (mapMembers f members)
  | j => j

/-- The items with every string changed. -/
def mapItems (f : String → String) : List Json → List Json
  | [] => []
  | j :: js => mapStrings f j :: mapItems f js

/-- The members with every string changed. -/
def mapMembers (f : String → String) : List (String × Json) → List (String × Json)
  | [] => []
  | (name, j) :: ms => (name, mapStrings f j) :: mapMembers f ms

end

mutual

/-- The strings of a value, in order; the names of members are not among them. -/
def strings : Json → List String
  | .string s => [s]
  | .array items => stringsOfItems items
  | .object members => stringsOfMembers members
  | _ => []

/-- The strings of items, in order. -/
def stringsOfItems : List Json → List String
  | [] => []
  | j :: js => strings j ++ stringsOfItems js

/-- The strings of members, in order. -/
def stringsOfMembers : List (String × Json) → List String
  | [] => []
  | (_, j) :: ms => strings j ++ stringsOfMembers ms

end

mutual

/-- The value with the members of all objects in the order of their names. -/
def ordered : Json → Json
  | .array items => .array (orderedItems items)
  | .object members =>
    .object ((orderedMembers members).mergeSort fun a b => decide (a.1 ≤ b.1))
  | j => j

/-- The items with the members of all their objects in order. -/
def orderedItems : List Json → List Json
  | [] => []
  | j :: js => ordered j :: orderedItems js

/-- The members with the members of all objects in their values in order. -/
def orderedMembers : List (String × Json) → List (String × Json)
  | [] => []
  | (name, j) :: ms => (name, ordered j) :: orderedMembers ms

end

end DeferredWork.Json

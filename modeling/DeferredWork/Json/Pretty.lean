import DeferredWork.Json.Basic
set_option autoImplicit false

/-!
# Indented JSON

The text of a JSON value for people: one item or member a line, each level two blanks further in.  An
empty array or object stays on its line.
-/

namespace DeferredWork.Json

/-- A new line, so many levels in. -/
def newLine (level : Nat) : List Char := '\n' :: List.replicate (2 * level) ' '

mutual

/-- The indented text of a value that starts so many levels in. -/
def indented (level : Nat) : Json → List Char
  | .array [] => ['[', ']']
  | .array (j :: js) => '[' :: indentedItems (level + 1) (j :: js) ++ newLine level ++ [']']
  | .object [] => ['\x7b', '\x7d']
  | .object (m :: ms) => '\x7b' :: indentedMembers (level + 1) (m :: ms) ++ newLine level ++ ['\x7d']
  | .null => write .null
  | .bool value => write (.bool value)
  | .number value => write (.number value)
  | .string value => write (.string value)
  | .ragged => write .ragged

/-- The indented items of an array, each on a line of its own. -/
def indentedItems (level : Nat) : List Json → List Char
  | [] => []
  | [j] => newLine level ++ indented level j
  | j :: k :: js => newLine level ++ indented level j ++ ',' :: indentedItems level (k :: js)

/-- The indented members of an object, each on a line of its own. -/
def indentedMembers (level : Nat) : List (String × Json) → List Char
  | [] => []
  | [(name, j)] => newLine level ++ writeString name ++ ':' :: ' ' :: indented level j
  | (name, j) :: m :: ms =>
    newLine level ++ writeString name ++ ':' :: ' ' :: indented level j ++
      ',' :: indentedMembers level (m :: ms)

end

/-- The indented text of a value. -/
def pretty (j : Json) : String := String.ofList (indented 0 j)

end DeferredWork.Json

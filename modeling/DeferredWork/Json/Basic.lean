import DeferredWork.Text.Digits
set_option autoImplicit false

/-!
# JSON values

The values of the JSON data format and their compact text.  A number keeps the digits it was written
with, so that no reader of a value loses precision; an object keeps its members in order, repeated
names included.
-/

namespace DeferredWork

/-- A number as JSON writes it. -/
structure Numeral where
  negative : Bool
  /-- The digits of the whole part. -/
  whole : List Char
  /-- The digits after the point; none if there is no point. -/
  fraction : List Char := []
  /-- The sign (`true` for a minus) and the digits of the exponent. -/
  exponent : Option (Bool × List Char) := none
  deriving DecidableEq, Repr

/-- The numeral of a whole number. -/
def Numeral.ofInt (n : Int) : Numeral := { negative := n < 0, whole := Text.digits n.natAbs }

/-- A JSON value. -/
inductive Json where
  | null
  | bool (value : Bool)
  | number (value : Numeral)
  | string (value : String)
  /-- A string, or an object with a name, that escapes half of a surrogate pair.  It is well formed,
  but it is no Unicode text: it can be skipped and not be read. -/
  | ragged
  | array (items : List Json)
  | object (members : List (String × Json))
  deriving Repr

namespace Json

instance : Inhabited Json := ⟨.null⟩

/-- The value of a whole number. -/
def ofInt (n : Int) : Json := .number (Numeral.ofInt n)

/-- The value of a natural number. -/
def ofNat (n : Nat) : Json := ofInt n

/-- `null`, or the value of what is there. -/
def ofOption {α : Type} (f : α → Json) : Option α → Json
  | none => .null
  | some a => f a

/-! ## Text -/

/-- How one character stands inside a JSON string. -/
def writeChar (c : Char) : List Char :=
  if c = '"' then ['\\', '"']
  else if c = '\\' then ['\\', '\\']
  else if c = '\x08' then ['\\', 'b']
  else if c = '\x09' then ['\\', 't']
  else if c = '\x0a' then ['\\', 'n']
  else if c = '\x0c' then ['\\', 'f']
  else if c = '\x0d' then ['\\', 'r']
  else if c.toNat < 0x20 then
    ['\\', 'u', '0', '0', Text.hexDigit (c.toNat / 16), Text.hexDigit (c.toNat % 16)]
  else [c]

/-- A text between quotes, with escapes for quotes, backslashes and control characters only. -/
def writeString (s : String) : List Char := '"' :: (s.toList.flatMap writeChar ++ ['"'])

/-- The point and the digits behind it, if there are any. -/
def writeFraction (ds : List Char) : List Char := if ds.isEmpty then [] else '.' :: ds

/-- The exponent with its sign, if there is one. -/
def writeExponent : Option (Bool × List Char) → List Char
  | none => []
  | some (minus, ds) => 'e' :: ((if minus then ['-'] else []) ++ ds)

/-- The text of a number. -/
def writeNumeral (n : Numeral) : List Char :=
  (if n.negative then ['-'] else []) ++ n.whole ++ writeFraction n.fraction ++
    writeExponent n.exponent

mutual

/-- The compact text of a value: no blanks, members in order. -/
def write : Json → List Char
  | .null => ['n', 'u', 'l', 'l']
  | .bool true => ['t', 'r', 'u', 'e']
  | .bool false => ['f', 'a', 'l', 's', 'e']
  | .number n => writeNumeral n
  | .string s => writeString s
  | .ragged => ['n', 'u', 'l', 'l']
  | .array items => '[' :: writeItems items
  | .object members => '\x7b' :: writeMembers members

/-- The items of an array and the bracket that ends it. -/
def writeItems : List Json → List Char
  | [] => [']']
  | [j] => write j ++ [']']
  | j :: k :: js => write j ++ ',' :: writeItems (k :: js)

/-- The members of an object and the brace that ends it. -/
def writeMembers : List (String × Json) → List Char
  | [] => ['\x7d']
  | [(name, j)] => writeString name ++ ':' :: (write j ++ ['\x7d'])
  | (name, j) :: m :: ms => writeString name ++ ':' :: (write j ++ ',' :: writeMembers (m :: ms))

end

/-- The compact text of a value. -/
def text (j : Json) : String := String.ofList (write j)

end Json

end DeferredWork

import DeferredWork.Text.Blank
import DeferredWork.Time.Calendar
import DeferredWork.Time.Instant
set_option autoImplicit false

/-!
# Timestamps

The internet date and time format for instants: `2020-09-13T12:26:40.123Z`.  Written timestamps are
in universal time and carry no fraction or one of 3, 6 or 9 digits; a year outside 0 to 9999 carries
its sign.  The reader is more generous: blanks around the parts, numbers without leading zeros, a
fraction of any length, a blank in place of the `T`, lower case letters, the word `UTC`, and an
offset from universal time.
-/

namespace DeferredWork

namespace Timestamp

open Text

/-! ## Writing -/

/-- Four digits for the years 0 to 9999, and a sign before at least four digits for the others. -/
def writeYear (year : Int) : List Char :=
  if 0 ≤ year ∧ year ≤ 9999 then padded 4 year.toNat
  else (if year < 0 then '-' else '+') :: padded 4 year.natAbs

/-- The fraction of a second in the fewest of 0, 3, 6 and 9 digits that hold it exactly. -/
def writeFraction (nano : Nat) : List Char :=
  if nano = 0 then []
  else if nano % 1000000 = 0 then '.' :: padded 3 (nano / 1000000)
  else if nano % 1000 = 0 then '.' :: padded 6 (nano / 1000)
  else '.' :: padded 9 nano

/-- The timestamp of an instant.  An inserted second is the sixtieth of its minute. -/
def write (t : Instant) : List Char :=
  let date := Date.ofDayNumber (t.second / 86400)
  let clock := (t.second % 86400).toNat
  let inserted := t.nano / 1000000000
  writeYear date.year ++ '-' :: padded 2 date.month ++ '-' :: padded 2 date.day ++
    'T' :: padded 2 (clock / 3600) ++ ':' :: padded 2 (clock / 60 % 60) ++
    ':' :: padded 2 (clock % 60 + inserted) ++ writeFraction (t.nano % 1000000000) ++ ['Z']

/-! ## Reading -/

/-- A number of one to `width` digits, after blanks. -/
def readNumber (width : Nat) (cs : List Char) : Option (Nat × List Char) :=
  let cs := trimStart cs
  let ds := (cs.take width).takeWhile isDigit
  if ds.isEmpty then none else some (ofDigits ds, cs.drop ds.length)

/-- The given character, after blanks. -/
def readMark (mark : Char) (cs : List Char) : Option (List Char) :=
  match trimStart cs with
  | c :: rest => if c = mark then some rest else none
  | [] => none

/-- A year: up to four digits, or a sign and any number of digits. -/
def readYear (cs : List Char) : Option (Int × List Char) :=
  match trimStart cs with
  | '-' :: rest => do
    let ds := rest.takeWhile isDigit
    if ds.isEmpty then none else some (-(ofDigits ds : Int), rest.drop ds.length)
  | '+' :: rest => do
    let ds := rest.takeWhile isDigit
    if ds.isEmpty then none else some (ofDigits ds, rest.drop ds.length)
  | cs => do
    let (n, rest) ← readNumber 4 cs
    some (n, rest)

/-- A fraction of a second in nanoseconds, or none at all; digits after the ninth do not count. -/
def readFraction (cs : List Char) : Option (Nat × List Char) :=
  match cs with
  | '.' :: rest =>
    let ds := rest.takeWhile isDigit
    if ds.isEmpty then none
    else
      let kept := ds.take 9
      some (ofDigits kept * Nat.pow 10 (9 - kept.length), rest.drop ds.length)
  | _ => some (0, cs)

/-- The sign of an offset. -/
def readSign : List Char → Option (Int × List Char)
  | '+' :: rest => some (1, rest)
  | '-' :: rest => some (-1, rest)
  | '\u2212' :: rest => some (-1, rest)
  | _ => none

/-- Two digits. -/
def readPair : List Char → Option (Nat × List Char)
  | a :: b :: rest => if isDigit a && isDigit b then some (ofDigits [a, b], rest) else none
  | _ => none

/-- The offset from universal time in seconds. -/
def readOffset (cs : List Char) : Option (Int × List Char) :=
  let cs := trimStart cs
  if (cs.take 3).map Char.toLower = ['u', 't', 'c'] then some (0, cs.drop 3)
  else match cs with
    | 'Z' :: rest => some (0, rest)
    | 'z' :: rest => some (0, rest)
    | _ => do
      let (sign, cs) ← readSign cs
      let (hours, cs) ← readPair cs
      let (minutes, cs) ← readPair (cs.dropWhile fun c => c == ':' || isBlank c)
      if 60 ≤ minutes then none
      else some (sign * (hours * 3600 + minutes * 60 : Nat), cs)

/-- The separator between date and time. -/
def readSeparator : List Char → Option (List Char)
  | 'T' :: rest => some rest
  | 't' :: rest => some rest
  | ' ' :: rest => some rest
  | _ => none

/-- The years that dates of the calendar have. -/
def isCalendarYear (year : Int) : Bool := -262143 ≤ year && year ≤ 262142

/-- The instant of a date and a time of day at an offset from universal time. -/
def instant? (date : Date) (hour minute second nano : Nat) (offset : Int) : Option Instant :=
  if isCalendarYear date.year && date.isValid && hour ≤ 23 && minute ≤ 59 && second ≤ 60 &&
      -86400 < offset && offset < 86400 then
    let clock : Nat := hour * 3600 + minute * 60 + min second 59
    Instant.of? (date.dayNumber * 86400 + clock - offset) (nano + (second - min second 59) * 1000000000)
  else none

/-- The instant that a timestamp stands for. -/
def read (cs : List Char) : Option Instant := do
  let (year, cs) ← readYear cs
  let cs ← readMark '-' cs
  let (month, cs) ← readNumber 2 cs
  let cs ← readMark '-' cs
  let (day, cs) ← readNumber 2 cs
  let cs ← readSeparator cs
  let (hour, cs) ← readNumber 2 cs
  let cs ← readMark ':' cs
  let (minute, cs) ← readNumber 2 cs
  let cs ← readMark ':' cs
  let (second, cs) ← readNumber 2 cs
  let (nano, cs) ← readFraction cs
  let (offset, cs) ← readOffset cs
  if (trimStart cs).isEmpty then instant? ⟨year, month, day⟩ hour minute second nano offset
  else none

end Timestamp

end DeferredWork

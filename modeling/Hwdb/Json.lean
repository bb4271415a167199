import Hwdb.Text.Decimal

/-!
# `Hwdb.Json`: JSON values and their written form

A value is written over several lines. Each item of an array and each member of an object
has a line of its own, two spaces further in than the brackets around it. An array or an
object that holds nothing is written as its two brackets.
-/

set_option autoImplicit false

namespace Hwdb

/-- A JSON value. Its numbers are the natural ones, and the members of an object have an
order. -/
inductive Json
  /-- The null value. -/
  | null
  /-- A number. -/
  | number (n : Nat)
  /-- A string. -/
  | string (t : Text)
  /-- An array. -/
  | array (items : List Json)
  /-- An object. -/
  | object (members : List (Text × Json))
  deriving Repr

namespace Json

/-- A number below sixteen as a hexadecimal digit. -/
def hexDigit (n : Nat) : Char :=
  "0123456789abcdef".toList.getD n '0'

/-- A character as it stands in a string. Quotes, backslashes and control characters below
the space are escaped, by a letter if they have one, and nothing else is. -/
def escape (c : Char) : Text :=
  if c = '"' then ['\\', '"']
  else if c = '\\' then ['\\', '\\']
  else if c = '\x08' then ['\\', 'b']
  else if c = '\x0c' then ['\\', 'f']
  else if c = '\n' then ['\\', 'n']
  else if c = '\r' then ['\\', 'r']
  else if c = '\t' then ['\\', 't']
  else if c < ' ' then
    ['\\', 'u', '0', '0', hexDigit (c.toNat / 16), hexDigit (c.toNat % 16)]
  else [c]

/-- The written form of a string. -/
def quoted (t : Text) : Text :=
  '"' :: t.flatMap escape ++ ['"']

/-- A line feed and the indentation of the next line. -/
def newLine (depth : Nat) : Text :=
  '\n' :: List.replicate (2 * depth) ' '

mutual

/-- The written form of a value that stands inside `depth` pairs of brackets. -/
def write (depth : Nat) : Json → Text
  | null => "null".toList
  | number n => Decimal.write n
  | string t => quoted t
  | array [] => ['[', ']']
  | array (item :: items) =>
      '[' :: newLine (depth + 1) ++ write (depth + 1) item
        ++ writeItems (depth + 1) items ++ newLine depth ++ [']']
  | object [] => ['{', '}']
  | object ((name, value) :: members) =>
      '{' :: newLine (depth + 1) ++ quoted name ++ ": ".toList ++ write (depth + 1) value
        ++ writeMembers (depth + 1) members ++ newLine depth ++ ['}']

/-- The written form of the items after the first. -/
def writeItems (depth : Nat) : List Json → Text
  | [] => []
  | item :: items =>
      ',' :: newLine depth ++ write depth item ++ writeItems depth items

/-- The written form of the members after the first. -/
def writeMembers (depth : Nat) : List (Text × Json) → Text
  | [] => []
  | (name, value) :: members =>
      ',' :: newLine depth ++ quoted name ++ ": ".toList ++ write depth value
        ++ writeMembers depth members

end

/-- The written form of a value, with no line feed at its end. -/
def text (j : Json) : Text :=
  j.write 0

end Json

end Hwdb

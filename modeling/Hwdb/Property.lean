import Hwdb.Reader
import Hwdb.Text.Blank

/-!
# `Hwdb.Property`: what a record says about its devices

A property is written ` TAG=value` with one leading space, and may end in a `#` and a
comment. The value is kept as written, blanks at its end included. `bare` is the form in
which a property is interpreted.
-/

set_option autoImplicit false

namespace Hwdb

/-- A property. An absent comment and an empty one are different. -/
structure Property where
  /-- What the property sets. -/
  tag : Text
  /-- What it is set to, as written. -/
  value : Text
  /-- The text after the `#`, if there is one. -/
  comment : Option Text
  deriving DecidableEq, Repr

namespace Property

/-- Whether a character may stand in a tag after its first letter. -/
def isTagChar (c : Char) : Bool :=
  c.isAlphanum || c == '_'

/-- Whether a character may stand in a value. -/
def isValueChar (c : Char) : Bool :=
  c.isAlphanum || "_=:@*.! ".toList.contains c

/-- The written form of a property, without the leading space. -/
def text (p : Property) : Text :=
  p.tag ++ '=' :: p.value ++ (match p.comment with
    | some comment => '#' :: comment
    | none => [])

/-- The written form of a property without its comment and the blanks before it. -/
def bare (p : Property) : Text :=
  Text.withoutComment p.text

/-- Reads a tag: a capital letter, then letters, digits and underscores. -/
def tagReader : Reader Text := do
  let first ← Reader.satisfying .capital Char.isUpper
  let others ← Reader.takeWhile isTagChar
  return first :: others

/-- Reads a property with its leading space, with a value as long as possible. -/
def reader : Reader Property := do
  Reader.char ' '
  let tag ← tagReader
  Reader.char '='
  let value ← Reader.takeWhile1 .value isValueChar
  let comment ← Reader.optional Reader.comment
  return { tag, value, comment }

end Property

end Hwdb

import Hwdb.MatchKey
import Hwdb.Path
import Hwdb.Property
import Hwdb.Text.Decimal

/-!
# `Hwdb.Record`: records of a database file

A record gives properties to devices. It has match keys, each of which selects some, and
properties, which hold for all of them. Keys and properties remember their lines.
-/

set_option autoImplicit false

namespace Hwdb

/-- Something together with the number of the line that it stands on. The first line of a
file has the number one. -/
structure Numbered (α : Type) where
  /-- The number of the line. -/
  line : Nat
  /-- What stands there. -/
  item : α
  deriving DecidableEq, Repr

/-- A place in a file. -/
structure Site where
  /-- The file. -/
  path : Path
  /-- The number of the line. -/
  line : Nat
  deriving DecidableEq, Repr

/-- The written form of a site, as it stands in messages. -/
def Site.text (s : Site) : Text :=
  s.path.display ++ ':' :: Decimal.write s.line

/-- A record. -/
structure Record where
  /-- The file that holds it. -/
  path : Path
  /-- The line of its first match key. -/
  line : Nat
  /-- Its match keys, in the order of the file. -/
  keys : List (Numbered MatchKey)
  /-- Its properties, in the order of the file. -/
  properties : List (Numbered Property)
  deriving DecidableEq, Repr

/-- The written form of a record: a line for each match key, then a line for each property
with a space in front. -/
def Record.text (r : Record) : Text :=
  r.keys.flatMap (fun k => k.item.text ++ ['\n'])
    ++ r.properties.flatMap (fun p => ' ' :: p.item.text ++ ['\n'])

end Hwdb

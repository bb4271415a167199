import Std.Data.TreeMap.Basic
import Hwdb.Record

/-!
# `Hwdb.KeyIndex`: where match keys are declared

The index knows, for the text of every match key, all places that declare it, in the
order in which they were added. It lists texts in the order of their bytes, so what it
says about repeated keys does not depend on how their declarations are spread over
records and files.
-/

set_option autoImplicit false

namespace Hwdb

/-- A match key with the places that declare it. -/
structure RepeatedKey where
  /-- The text of the key. -/
  text : Text
  /-- The places, in the order in which they were added. -/
  sites : List Site
  deriving DecidableEq, Repr

/-- The places after the first. -/
def RepeatedKey.extraSites (k : RepeatedKey) : List Site :=
  k.sites.tail

/-- The places that declare each match key. -/
structure KeyIndex where
  /-- The places by the text of the key. -/
  sites : Std.TreeMap Text (List Site) Text.byteOrder

namespace KeyIndex

/-- The index of no declaration. -/
def empty : KeyIndex :=
  ⟨∅⟩

/-- The index with one more declaration. -/
def declare (index : KeyIndex) (key : Text) (site : Site) : KeyIndex :=
  ⟨index.sites.alter key fun earlier => some (earlier.getD [] ++ [site])⟩

/-- The index with the declarations of one more record. -/
def add (index : KeyIndex) (r : Record) : KeyIndex :=
  r.keys.foldl (fun index k => index.declare k.item.text ⟨r.path, k.line⟩) index

/-- The index of the declarations of some records. -/
def ofRecords (rs : List Record) : KeyIndex :=
  rs.foldl add empty

/-- The keys that are declared more than once, in the order of their texts. -/
def repeated (index : KeyIndex) : List RepeatedKey :=
  (index.sites.toList.filter fun (_, sites) => 1 < sites.length).map
    fun (text, sites) => { text, sites }

end KeyIndex

end Hwdb

import Hwdb.Dimension

/-!
# `Hwdb.Setting`: the catalogue of known properties

A property is known when its tag and its value together are in this catalogue:

* a model flag, whose tag is `LIBINPUT_MODEL_` and one or more capital letters, digits
  and underscores, with the value `1`;
* a hint, whose tag is one of two and whose value is a dimension.

`Setting.parse` reads a property written `TAG=value`.
-/

set_option autoImplicit false

namespace Hwdb

/-- What a dimension says about a device. -/
inductive Hint
  /-- Its size in millimetres. -/
  | size
  /-- Its resolution in units per millimetre. -/
  | resolution
  deriving DecidableEq, Repr

namespace Hint

/-- Every hint, in the order of the catalogue. -/
def all : List Hint :=
  [size, resolution]

/-- The tag that gives a hint. -/
def tag : Hint → Text
  | size => "LIBINPUT_ATTR_SIZE_HINT".toList
  | resolution => "LIBINPUT_ATTR_RESOLUTION_HINT".toList

/-- The hint that a tag gives, if it gives one. -/
def ofTag? (t : Text) : Option Hint :=
  all.find? fun hint => hint.tag == t

end Hint

/-- A property of the catalogue. -/
inductive Setting
  /-- Marks the device as a known model. The name is the whole tag. -/
  | modelFlag (name : Text)
  /-- Gives a dimension of the device. -/
  | hint (kind : Hint) (dimension : Dimension)
  deriving DecidableEq, Repr

/-- The text of a property that is not in the catalogue. -/
structure UnknownSetting where
  /-- The whole text. -/
  text : Text
  deriving DecidableEq, Repr

/-- What is reported about a text that is no setting. -/
def UnknownSetting.message (e : UnknownSetting) : Text :=
  "Failed to parse: '".toList ++ e.text ++ "'".toList

namespace Setting

/-- The tag of a setting. -/
def name : Setting → Text
  | modelFlag name => name
  | hint kind _ => kind.tag

/-- The dimension that a setting gives, if it gives one. -/
def dimension? : Setting → Option Dimension
  | modelFlag _ => none
  | hint _ dimension => some dimension

/-- Whether a character may stand in the name of a model. -/
def isModelChar (c : Char) : Bool :=
  c.isUpper || c.isDigit || c == '_'

/-- Whether a tag is that of a model flag. -/
def isModelTag (tag : Text) : Bool :=
  match "LIBINPUT_MODEL_".toList.isPrefixOf? tag with
  | some model => !model.isEmpty && model.all isModelChar
  | none => false

/-- The setting with a given tag and a given value, if the catalogue has it. -/
def ofPair? (tag value : Text) : Option Setting :=
  match Hint.ofTag? tag with
  | some kind => (Dimension.reader.whole? value).map (hint kind)
  | none => if isModelTag tag && value == ['1'] then some (modelFlag tag) else none

/-- The setting that a text `TAG=value` spells, the tag ending at the first `=`. -/
def parse? (t : Text) : Option Setting :=
  match t.dropWhile (· != '=') with
  | [] => none
  | _ :: value => ofPair? (t.takeWhile (· != '=')) value

/-- The setting that a text spells, or that text as an error. -/
def parse (t : Text) : Except UnknownSetting Setting :=
  match parse? t with
  | some setting => .ok setting
  | none => .error ⟨t⟩

end Setting

end Hwdb

import Hwdb.Text.Utf8

/-!
# `Hwdb.Path`: names of files

A path is whatever bytes the caller gives. It is a text only when these are UTF-8. A
path that is no text can still be shown, though not uniquely.
-/

set_option autoImplicit false

namespace Hwdb

/-- A path, byte by byte as it was given. -/
structure Path where
  /-- The bytes of the path. -/
  bytes : List UInt8
  deriving DecidableEq, Repr

namespace Path

/-- The path whose bytes encode a text. -/
def ofText (t : Text) : Path :=
  ⟨t.utf8⟩

/-- The text of a path, if its bytes encode one. -/
def text? (p : Path) : Option Text :=
  Utf8.text? p.bytes

/-- The path as it is shown in messages. What cannot be read becomes U+FFFD. -/
def display (p : Path) : Text :=
  p.text?.getD (Utf8.lossy p.bytes)

/-- The path with a leading `~` replaced by the home directory. The `~` has to be the
whole path or to stand before a slash, and without a home directory it stands for itself.
A path that is no text cannot be expanded. -/
def expandHome? (p : Path) (home : Option Text) : Option Path :=
  match p.text?, home with
  | none, _ => none
  | some ['~'], some home => some (.ofText home)
  | some ('~' :: '/' :: rest), some home => some (.ofText (home ++ '/' :: rest))
  | some _, _ => some p

end Path

/-- The home directory: what the environment variable `HOME` holds, if that is a text. An
empty variable counts as an absent one, and then it is the directory of the user's
account. -/
def homeDirectory (given : Option Path) (account : Option Text) : Option Text :=
  match given with
  | some path => if path.bytes.isEmpty then account else path.text?
  | none => account

end Hwdb

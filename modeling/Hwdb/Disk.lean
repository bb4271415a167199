import Hwdb.Path
import Hwdb.Text.Decimal

/-!
# `Hwdb.Disk`: where files come from

A disk is known by what it gives for a path: bytes, or the reason why there are none.
The text of a file is there only if its bytes are UTF-8.
-/

set_option autoImplicit false

namespace Hwdb

/-- Why a file could not be read. -/
inductive ReadFailure
  /-- Nothing has that path. -/
  | missing
  /-- The path leads through something that is no directory. -/
  | notADirectory
  /-- The path leads to a directory. -/
  | isADirectory
  /-- The path holds a NUL. -/
  | nulInPath
  /-- The bytes of the file are no UTF-8. -/
  | notUtf8
  /-- The path is no UTF-8, so that a `~` in it cannot be expanded. -/
  | pathNotUtf8 (path : Path)
  /-- The system gave another reason, in words and as a number. -/
  | system (description : Text) (code : Nat)
  deriving DecidableEq, Repr

/-- A reason of the system with its number. -/
def ReadFailure.systemMessage (description : Text) (code : Nat) : Text :=
  description ++ " (os error ".toList ++ Decimal.write code ++ ")".toList

/-- What is reported about a file that could not be read. -/
def ReadFailure.message : ReadFailure → Text
  | missing => systemMessage "No such file or directory".toList 2
  | notADirectory => systemMessage "Not a directory".toList 20
  | isADirectory => systemMessage "Is a directory".toList 21
  | nulInPath => "file name contained an unexpected NUL byte".toList
  | notUtf8 => "stream did not contain valid UTF-8".toList
  | pathNotUtf8 path => "Invalid path encoding: ".toList ++ path.display
  | system description code => systemMessage description code

/-- A source of files. -/
structure Disk where
  /-- The home directory, which a leading `~` in a path stands for, if there is one. -/
  home : Option Text
  /-- The bytes of the file with a path. -/
  bytes : Path → Except ReadFailure (List UInt8)

namespace Disk

/-- The text of the file with a path, which is taken as it is. -/
def read (disk : Disk) (path : Path) : Except ReadFailure Text := do
  let bytes ← disk.bytes path
  match Utf8.text? bytes with
  | some t => return t
  | none => throw .notUtf8

/-- The text of the file with a path, after a leading `~` has been expanded. -/
def readExpanded (disk : Disk) (path : Path) : Except ReadFailure Text :=
  match path.expandHome? disk.home with
  | some expanded => disk.read expanded
  | none => .error (.pathNotUtf8 path)

end Disk

end Hwdb

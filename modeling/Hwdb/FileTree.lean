import Hwdb.Disk

/-!
# `Hwdb.FileTree`: files held in memory

A file tree holds directories and files by their locations. A location is the list of
names that lead to it from the root. Paths are looked up the way a system does it: name
by name, each of them looked for in a directory. A path that ends in a slash asks for a
directory too, as does one that goes on after a file with `.` or `..`.
-/

set_option autoImplicit false

namespace Hwdb

/-- The names that lead to a place from the root. -/
abbrev Location := List (List UInt8)

/-- What can stand at a location. -/
inductive Entry
  /-- A directory. -/
  | directory
  /-- A file with its bytes. -/
  | file (bytes : List UInt8)
  deriving DecidableEq, Repr

/-- Directories and files by their locations. The root is always there. -/
structure FileTree where
  /-- What was put where. What was put later counts. -/
  entries : List (Location × Entry)
  deriving DecidableEq, Repr

/-- The names in a path, divided by slashes. Two slashes in a row have an empty name
between them. -/
def Path.names (p : Path) : List (List UInt8) :=
  p.bytes.splitOn 0x2F

/-- The place where looking up a path begins: the root for a path with a slash in front,
otherwise the directory that paths are relative to. -/
def Path.origin (here : Location) (p : Path) : Location :=
  if p.bytes.head? = some 0x2F then [] else here

/-- Where one name leads from a directory. An empty name and a dot stay there, and two
dots go up, at the root nowhere. -/
def Location.step (place : Location) (name : List UInt8) : Location :=
  if name = [] ∨ name = [0x2E] then place
  else if name = [0x2E, 0x2E] then place.dropLast
  else place ++ [name]

/-- Where a path leads if all directories on the way are there. -/
def Path.location (here : Location) (p : Path) : Location :=
  p.names.foldl Location.step (p.origin here)

namespace FileTree

/-- The tree with nothing but the root. -/
def empty : FileTree :=
  ⟨[]⟩

/-- What stands at a location. -/
def entry? (tree : FileTree) (place : Location) : Option Entry :=
  if place = [] then some .directory else tree.entries.lookup place

/-- Follows names from a place, each of which is looked for in a directory. -/
def follow (tree : FileTree) (place : Location) :
    List (List UInt8) → Except ReadFailure Location
  | [] => .ok place
  | name :: names =>
      match tree.entry? place with
      | some .directory => tree.follow (place.step name) names
      | some (.file _) => .error .notADirectory
      | none => .error .missing

/-- The bytes of the file that a path leads to. -/
def read (tree : FileTree) (here : Location) (p : Path) :
    Except ReadFailure (List UInt8) := do
  if 0 ∈ p.bytes then
    throw .nulInPath
  if p.bytes.isEmpty then
    throw .missing
  match tree.entry? (← tree.follow (p.origin here) p.names) with
  | some (.file bytes) => return bytes
  | some .directory => throw .isADirectory
  | none => throw .missing

/-- The tree with something new at a location. -/
def put (tree : FileTree) (place : Location) (entry : Entry) : FileTree :=
  ⟨(place, entry) :: tree.entries⟩

/-- The tree with a directory wherever names lead on the way from a place. A name that
leads back up does not undo the directory before it, so the way can be followed. -/
def addWay (tree : FileTree) (place : Location) : List (List UInt8) → FileTree
  | [] => tree
  | name :: names =>
      (tree.put (place.step name) .directory).addWay (place.step name) names

/-- The tree with a directory for a path, and with all directories on the way to it. -/
def addDirectory (tree : FileTree) (here : Location) (p : Path) : FileTree :=
  tree.addWay (p.origin here) p.names

/-- The tree with a file for a path, and with all directories on the way to it. -/
def addFile (tree : FileTree) (here : Location) (p : Path) (bytes : List UInt8) :
    FileTree :=
  (tree.addWay (p.origin here) p.names.dropLast).put (p.location here) (.file bytes)

/-- The tree as a source of files, for paths relative to one directory. -/
def disk (tree : FileTree) (home : Option Text) (here : Location) : Disk :=
  { home, bytes := tree.read here }

end FileTree

end Hwdb

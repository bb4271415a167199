import Hwdb.Line
import Hwdb.Record
import Hwdb.Text.Decimal
import Hwdb.Text.Lines

/-!
# `Hwdb.Record.Assembly`: records from lines

A file is a sequence of blocks, with one blank line between two of them and perhaps one
after the last. A block holds comments only, or it is a record: match keys, then
properties. Comments may stand anywhere in a record; indented ones only after its keys,
and there they open its properties.

An `Assembly` takes the lines of a file one by one. A line that may not stand where it
stands is a `Fault`, and the assembly stays as it was. `Record.parse` runs an assembly
over a whole file and reports the first fault together with its line.
-/

set_option autoImplicit false

namespace Hwdb

/-- Why a line may not stand where it stands, or the file may not end where it ends. -/
inductive Fault
  /-- A match key was expected, and this was found. -/
  | notAKey (found : Text)
  /-- A property stands in a block that has no match key yet. -/
  | propertyBeforeKey
  /-- The block ends with match keys but no property. -/
  | missingProperties
  /-- The line should be a property, and is none. -/
  | malformedProperty (line : Text)
  /-- A match key follows the properties of a record. -/
  | missingSeparator (key : Text)
  /-- A blank line separates nothing. -/
  | unexpectedBlank
  deriving DecidableEq, Repr

/-- What is reported about a fault. -/
def Fault.message : Fault → Text
  | notAKey found =>
      "expected a match line, found '".toList ++ found ++ "'".toList
  | propertyBeforeKey =>
      "property line before any match line".toList
  | missingProperties =>
      "match lines must be followed by at least one property line".toList
  | malformedProperty line =>
      "malformed property line '".toList ++ line ++ "'".toList
  | missingSeparator key =>
      "match line '".toList ++ key ++ "' must be preceded by a blank line".toList
  | unexpectedBlank =>
      "unexpected blank line".toList

/-- The first fault of a file. -/
structure StructuralError where
  /-- The number of the line with the fault, or of the last line if the file may not end
  there. -/
  line : Nat
  /-- What is wrong. -/
  fault : Fault
  /-- How many records were complete before. -/
  completeRecords : Nat
  deriving DecidableEq, Repr

/-- What is reported about a structural error. -/
def StructuralError.message (e : StructuralError) : Text :=
  "line ".toList ++ Decimal.write e.line ++ ": ".toList ++ e.fault.message

/-- The block in hand, as far as its lines have been taken. -/
inductive Block
  /-- No line yet. -/
  | empty
  /-- Comments only. -/
  | comments
  /-- Match keys, the first of them on the line `start`. -/
  | header (start : Nat) (keys : List (Numbered MatchKey))
  /-- Match keys, and after them a property or an indented comment at least. -/
  | body (start : Nat) (keys : List (Numbered MatchKey))
      (properties : List (Numbered Property))
  deriving DecidableEq, Repr

/-- A file of which some lines have been taken. -/
structure Assembly where
  /-- The file. -/
  path : Path
  /-- The records of the blocks that have ended. -/
  closed : List Record
  /-- The block that has not ended. -/
  block : Block
  deriving DecidableEq, Repr

namespace Assembly

/-- A file of which no line has been taken. -/
def start (path : Path) : Assembly :=
  { path, closed := [], block := .empty }

/-- Goes on with another state of the block in hand. -/
def continueWith (block : Block) : EStateM Fault Assembly Unit :=
  modify fun a => { a with block }

/-- Ends the block in hand as a record, which needs a property. -/
def close (start : Nat) (keys : List (Numbered MatchKey))
    (properties : List (Numbered Property)) : EStateM Fault Assembly Unit := do
  if properties.isEmpty then
    throw .missingProperties
  modify fun a =>
    { a with
      closed := a.closed ++ [{ path := a.path, line := start, keys, properties }]
      block := .empty }

/-- Takes the line with the given number. -/
def feed (number : Nat) (line : Line) : EStateM Fault Assembly Unit := do
  match (← get).block, line with
  | .empty, .blank => throw .unexpectedBlank
  | .empty, .comment => continueWith .comments
  | .comments, .blank => continueWith .empty
  | .comments, .comment => pure ()
  | .empty, .key k | .comments, .key k => continueWith (.header number [⟨number, k⟩])
  | .empty, .property _ | .empty, .malformedProperty _
  | .comments, .property _ | .comments, .malformedProperty _ => throw .propertyBeforeKey
  | .empty, .indentedComment | .comments, .indentedComment =>
      throw (.notAKey "indented comment".toList)
  | .header _ _, .blank => throw .missingProperties
  | .header _ _, .comment => pure ()
  | .header start keys, .key k => continueWith (.header start (keys ++ [⟨number, k⟩]))
  | .header start keys, .indentedComment => continueWith (.body start keys [])
  | .header start keys, .property p => continueWith (.body start keys [⟨number, p⟩])
  | .body start keys properties, .blank => close start keys properties
  | .body _ _ _, .comment | .body _ _ _, .indentedComment => pure ()
  | .body _ _ _, .key k => throw (.missingSeparator k.text)
  | .body start keys properties, .property p =>
      continueWith (.body start keys (properties ++ [⟨number, p⟩]))
  | .header _ _, .malformedProperty text | .body _ _ _, .malformedProperty text =>
      throw (.malformedProperty text)
  | _, .unknown text => throw (.notAKey text)

/-- Takes the end of the file. -/
def finish : EStateM Fault Assembly Unit := do
  match (← get).block with
  | .empty | .comments => pure ()
  | .header _ _ => throw .missingProperties
  | .body start keys properties => close start keys properties

/-- A step at the line with the given number, whose fault is reported as that line's. -/
def located (number : Nat) (step : EStateM Fault Assembly Unit) :
    EStateM StructuralError Assembly Unit := fun a =>
  match step a with
  | .ok _ a => .ok () a
  | .error fault a => .error ⟨number, fault, a.closed.length⟩ a

/-- Takes lines, of which the first comes after `count` others. -/
def feedLines (count : Nat) : List Text → EStateM StructuralError Assembly Unit
  | [] => pure ()
  | line :: lines => do
      located (count + 1) (feed (count + 1) (Line.ofText line))
      feedLines (count + 1) lines

/-- Takes all lines of a text and its end. -/
def feedText (t : Text) : EStateM StructuralError Assembly Unit := do
  feedLines 0 t.lines
  located t.lines.length finish

end Assembly

/-- The records of a file with the given path and text, or its first fault. -/
def Record.parse (path : Path) (t : Text) : Except StructuralError (List Record) :=
  match Assembly.feedText t (Assembly.start path) with
  | .ok _ a => .ok a.closed
  | .error e _ => .error e

end Hwdb

import Hwdb.MatchKey
import Hwdb.Property

/-!
# `Hwdb.Line`: the kinds of lines

Every line of a database file is of exactly one kind. `Line.ofText` decides which, from
the text of the line alone. Whether a line may stand where it stands is not its concern.
-/

set_option autoImplicit false

namespace Hwdb

/-- A line of a database file by its kind. -/
inductive Line
  /-- An empty line. -/
  | blank
  /-- A `#` in the first column. -/
  | comment
  /-- A `#` after a space and any further spaces and tabs. -/
  | indentedComment
  /-- A match key. -/
  | key (k : MatchKey)
  /-- A property, with one leading space. -/
  | property (p : Property)
  /-- A line with a leading space that is neither a comment nor a property. -/
  | malformedProperty (text : Text)
  /-- Any other line. -/
  | unknown (text : Text)
  deriving DecidableEq, Repr

namespace Line

/-- Reads a comment after a space and any further spaces and tabs, and gives the text
after the `#`. -/
def indentedCommentReader : Reader Text := do
  Reader.char ' '
  discard <| Reader.takeWhile fun c => c == ' ' || c == '\t'
  Reader.comment

/-- The kind of a line. Comments come first: a line that begins with a space is a
property or malformed only if no `#` follows the indentation. -/
def ofText (t : Text) : Line :=
  if t.isEmpty then .blank
  else if (Reader.comment.whole? t).isSome then .comment
  else if (indentedCommentReader.whole? t).isSome then .indentedComment
  else if t.head? = some ' ' then
    match Property.reader.whole? t with
    | some p => .property p
    | none => .malformedProperty t
  else
    match MatchKey.reader.whole? t with
    | some k => .key k
    | none => .unknown t

end Line

end Hwdb

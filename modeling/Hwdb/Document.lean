import Hwdb.Json
import Hwdb.Run

/-!
# `Hwdb.Document`: reports as JSON

Every type that takes part in a report has a form as a JSON value. The members of an
object have a fixed order. An issue and a fault name their kind in a member `kind`.

JSON strings hold text, so a path that is no text has no such form, and neither has
anything that such a path occurs in.
-/

set_option autoImplicit false

namespace Hwdb

/-- Why there is no document. -/
inductive DocumentError
  /-- A path is no text. -/
  | pathNotUtf8
  deriving DecidableEq, Repr

/-- What is reported about a document that cannot be made. -/
def DocumentError.message : DocumentError → Text
  | pathNotUtf8 => "path contains invalid UTF-8 characters".toList

/-- What is reported about a report that has no document. -/
def DocumentError.reportMessage (e : DocumentError) : Text :=
  "Failed to serialise report: ".toList ++ e.message

namespace Json

/-- An object, from names and values. -/
def ofMembers (members : List (String × Json)) : Json :=
  object (members.map fun (name, value) => (name.toList, value))

/-- A string with fixed text. -/
def word (s : String) : Json :=
  string s.toList

end Json

/-- The document of a path, which is a string. -/
def Path.document (p : Path) : Except DocumentError Json :=
  match p.text? with
  | some t => .ok (.string t)
  | none => .error .pathNotUtf8

/-- The document of something that may be absent. -/
def documentOfOption {α : Type} (document : α → Except DocumentError Json) :
    Option α → Except DocumentError Json
  | some a => document a
  | none => .ok .null

/-- The document of a numbered match key. -/
def MatchKey.document (k : Numbered MatchKey) : Json :=
  .ofMembers
    [("category", .string k.item.category.keyword),
      ("connection", .string k.item.connection.keyword),
      ("pattern", .string k.item.pattern),
      ("line", .number k.line)]

/-- The document of a numbered property. -/
def Property.document (p : Numbered Property) : Json :=
  .ofMembers
    [("line", .number p.line),
      ("tag", .string p.item.tag),
      ("value", .string p.item.value),
      ("comment", p.item.comment.elim .null .string)]

/-- The document of a record. -/
def Record.document (r : Record) : Except DocumentError Json := do
  let path ← r.path.document
  return .ofMembers
    [("path", path),
      ("line", .number r.line),
      ("matches", .array (r.keys.map MatchKey.document)),
      ("properties", .array (r.properties.map Property.document))]

/-- The document of a dimension. -/
def Dimension.document (d : Dimension) : Json :=
  .ofMembers [("width", .number d.width.toNat), ("height", .number d.height.toNat)]

/-- The document of a hint, which is its name. -/
def Hint.document : Hint → Json
  | size => .word "SizeHint"
  | resolution => .word "ResolutionHint"

/-- The document of a setting. -/
def Setting.document : Setting → Json
  | modelFlag name => .ofMembers [("ModelFlag", .ofMembers [("name", .string name)])]
  | hint kind dimension =>
      .ofMembers
        [("Dimension",
          .ofMembers [("kind", kind.document), ("value", dimension.document)])]

/-- The document of a fault: its kind and, if it quotes something, the text. -/
def Fault.document : Fault → Json
  | notAKey found =>
      .ofMembers [("kind", .word "unknown_match_prefix"), ("text", .string found)]
  | propertyBeforeKey => .ofMembers [("kind", .word "property_before_match")]
  | missingProperties => .ofMembers [("kind", .word "missing_properties")]
  | malformedProperty line =>
      .ofMembers [("kind", .word "malformed_property"), ("text", .string line)]
  | missingSeparator key =>
      .ofMembers [("kind", .word "missing_separator"), ("text", .string key)]
  | unexpectedBlank => .ofMembers [("kind", .word "unexpected_blank_line")]

/-- The document of a structural error. -/
def StructuralError.document (e : StructuralError) : Json :=
  .ofMembers
    [("line", .number e.line),
      ("kind", e.fault.document),
      ("complete_groups", .number e.completeRecords)]

/-- The document of a site. -/
def Site.document (s : Site) : Except DocumentError Json := do
  let path ← s.path.document
  return .ofMembers [("path", path), ("line", .number s.line)]

/-- The document of a match key that is declared more than once. -/
def RepeatedKey.document (k : RepeatedKey) : Except DocumentError Json := do
  let sites ← k.sites.mapM Site.document
  return .ofMembers [("pattern", .string k.text), ("occurrences", .array sites)]

/-- The document of an issue. -/
def Issue.document : Issue → Except DocumentError Json
  | structural path error => do
      let path ← path.document
      return .ofMembers
        [("kind", .word "structural"), ("path", path), ("error", error.document)]
  | unreadable path reason => do
      let path ← path.document
      return .ofMembers
        [("kind", .word "unreadable"), ("path", path), ("message", .string reason)]
  | unknownProperty site text => do
      let path ← site.path.document
      return .ofMembers
        [("kind", .word "property_parse"), ("path", path), ("line", .number site.line),
          ("text", .string text)]
  | repeatedTag site tag => do
      let path ← site.path.document
      return .ofMembers
        [("kind", .word "duplicate_property"), ("path", path),
          ("line", .number site.line), ("tag", .string tag)]
  | repeatedKey key site first => do
      let path ← site.path.document
      let firstPath ← first.path.document
      return .ofMembers
        [("kind", .word "duplicate_match"), ("pattern", .string key), ("path", path),
          ("line", .number site.line), ("first_path", firstPath),
          ("first_line", .number first.line)]
  | invalidDimension site tag dimension => do
      let path ← site.path.document
      return .ofMembers
        [("kind", .word "invalid_dimension"), ("path", path),
          ("line", .number site.line), ("tag", .string tag),
          ("dimension", dimension.document)]

/-- The document of a file summary. -/
def FileSummary.document (s : FileSummary) : Except DocumentError Json := do
  let path ← s.path.document
  return .ofMembers
    [("path", path), ("groups", .number s.records), ("matches", .number s.keys),
      ("properties", .number s.properties)]

/-- The document of a file report. -/
def FileReport.document (r : FileReport) : Except DocumentError Json := do
  let summary ← r.summary.document
  let error ← documentOfOption Issue.document r.error
  return .ofMembers [("summary", summary), ("error", error)]

/-- The document of a report. -/
def Report.document (r : Report) : Except DocumentError Json := do
  let files ← r.files.mapM FileReport.document
  let issues ← r.issues.mapM Issue.document
  return .ofMembers [("files", .array files), ("issues", .array issues)]

/-- The written document of a report. -/
def Report.json (r : Report) : Except DocumentError Text :=
  r.document.map Json.text

end Hwdb

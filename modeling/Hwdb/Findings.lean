import Hwdb.Issue
import Hwdb.KeyIndex
import Hwdb.Setting

/-!
# `Hwdb.Findings`: what is wrong with records

Three rules hold for records whose lines are in order. No match key is declared twice, in
whatever records. No tag stands twice in one record. Every property is in the catalogue,
and its dimension, if it gives one, has no side of zero. `Findings.ofRecords` reports
every breach of them: first the repeated keys, then record by record and property by
property the rest. Nothing ends the search early.
-/

set_option autoImplicit false

namespace Hwdb

/-- The issues of a repeated key, one for each place after the first. -/
def RepeatedKey.issues (k : RepeatedKey) : List Issue :=
  match k.sites with
  | [] => []
  | first :: extra => extra.map fun site => .repeatedKey k.text site first

/-- The issues about match keys that are declared more than once. -/
def repeatedKeyIssues (rs : List Record) : List Issue :=
  (KeyIndex.ofRecords rs).repeated.flatMap RepeatedKey.issues

/-- The issue of a property by itself: it is not in the catalogue, or its dimension is
not positive. -/
def Property.issue? (site : Site) (p : Property) : Option Issue :=
  match Setting.parse p.bare with
  | .ok (.modelFlag _) => none
  | .ok (.hint kind dimension) =>
      if dimension.isPositive then none
      else some (.invalidDimension site kind.tag dimension)
  | .error e => some (.unknownProperty site e.text)

/-- The issues of properties that follow others with the given tags. A tag counts
whether or not its property is in the catalogue. -/
def propertyIssuesAfter (path : Path) (seen : List Text) :
    List (Numbered Property) → List Issue
  | [] => []
  | p :: ps =>
      let site : Site := ⟨path, p.line⟩
      let again := if p.item.tag ∈ seen then [.repeatedTag site p.item.tag] else []
      again ++ (p.item.issue? site).toList
        ++ propertyIssuesAfter path (p.item.tag :: seen) ps

/-- The issues of the properties of a record. -/
def Record.propertyIssues (r : Record) : List Issue :=
  propertyIssuesAfter r.path [] r.properties

/-- A collection of issues. -/
structure Findings where
  /-- The issues, in the order in which they were found. -/
  issues : List Issue
  deriving DecidableEq, Repr

namespace Findings

/-- No issue. -/
def empty : Findings :=
  ⟨[]⟩

/-- The findings with one more issue. -/
def push (f : Findings) (issue : Issue) : Findings :=
  ⟨f.issues ++ [issue]⟩

/-- Whether there is anything to report. -/
def hasErrors (f : Findings) : Bool :=
  !f.issues.isEmpty

/-- Before an issue is found there is nothing to report. -/
theorem hasErrors_empty : empty.hasErrors = false := rfl

/-- After an issue there is, whatever it is about. -/
@[simp]
theorem hasErrors_push (f : Findings) (issue : Issue) :
    (f.push issue).hasErrors = true := by
  simp [push, hasErrors]

/-- Everything that is wrong with some records. -/
def ofRecords (rs : List Record) : Findings :=
  ⟨repeatedKeyIssues rs ++ rs.flatMap Record.propertyIssues⟩

end Findings

end Hwdb

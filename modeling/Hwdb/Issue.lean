import Hwdb.Dimension
import Hwdb.Record.Assembly

/-!
# `Hwdb.Issue`: everything that can be reported

An issue holds its cause. `Issue.message` has the wording.
-/

set_option autoImplicit false

namespace Hwdb

/-- Something to report. -/
inductive Issue
  /-- The lines of a file break the rules for blocks. -/
  | structural (path : Path) (error : StructuralError)
  /-- A file could not be read, for a reason in words. -/
  | unreadable (path : Path) (reason : Text)
  /-- A property is not in the catalogue. -/
  | unknownProperty (site : Site) (text : Text)
  /-- A property has the tag of an earlier one in its record. -/
  | repeatedTag (site : Site) (tag : Text)
  /-- A match key has been declared before, for the first time at `first`. -/
  | repeatedKey (key : Text) (site first : Site)
  /-- A property gives a dimension with a side of zero. -/
  | invalidDimension (site : Site) (tag : Text) (dimension : Dimension)
  deriving DecidableEq, Repr

/-- What is reported about an issue, on one line unless a path or a text has line feeds of
its own. -/
def Issue.message : Issue → Text
  | structural path error =>
      "Cannot parse ".toList ++ path.display ++ ": ".toList ++ error.message
  | unreadable path reason =>
      "Cannot read ".toList ++ path.display ++ ": ".toList ++ reason
  | unknownProperty site text =>
      site.text ++ ": Failed to parse: '".toList ++ text ++ "'".toList
  | repeatedTag site tag =>
      site.text ++ ": Property ".toList ++ tag ++ " is duplicated".toList
  | repeatedKey key site first =>
      site.text ++ ": Match '".toList ++ key
        ++ "' is duplicated (first declared at ".toList ++ first.text ++ ")".toList
  | invalidDimension site _ dimension =>
      site.text ++ ": Dimension ".toList ++ dimension.text ++ " invalid".toList

end Hwdb

import Hwdb.Disk
import Hwdb.Findings

/-!
# `Hwdb.Run`: checking several files together

A run takes files one after the other. Each file is read by itself and gives a report and
its records. A file that cannot be read, or whose lines break the rules, gives no record
at all. When all files are in, the records of all of them are checked together.

`Run.finish` gives the `Report` of the run. A run has failed when there is anything to
report, and then its exit code is one.
-/

set_option autoImplicit false

namespace Hwdb

/-- How much was found in a file. -/
structure FileSummary where
  /-- The file, by the path that was given. -/
  path : Path
  /-- The number of records. -/
  records : Nat
  /-- The number of match keys in them. -/
  keys : Nat
  /-- The number of properties in them. -/
  properties : Nat
  deriving DecidableEq, Repr

namespace FileSummary

/-- The summary of a file that gave nothing. -/
def empty (path : Path) : FileSummary :=
  { path, records := 0, keys := 0, properties := 0 }

/-- The summary of a file with the given records. -/
def ofRecords (path : Path) (rs : List Record) : FileSummary :=
  { path
    records := rs.length
    keys := (rs.flatMap Record.keys).length
    properties := (rs.flatMap Record.properties).length }

/-- The written form of a summary. -/
def text (s : FileSummary) : Text :=
  s.path.display ++ ": ".toList ++ Decimal.write s.records ++ " match groups, ".toList
    ++ Decimal.write s.keys ++ " matches, ".toList
    ++ Decimal.write s.properties ++ " properties".toList

end FileSummary

/-- What is reported about one file. -/
structure FileReport where
  /-- How much was found. -/
  summary : FileSummary
  /-- Why nothing was found, if the file could not be read or its lines are not in
  order. -/
  error : Option Issue
  deriving DecidableEq, Repr

/-- What one file adds to a run. -/
structure Reading where
  /-- What is reported about the file. -/
  report : FileReport
  /-- Its records. -/
  records : List Record
  deriving DecidableEq, Repr

namespace Reading

/-- A file that gave nothing, and the reason. -/
def failed (path : Path) (error : Issue) : Reading :=
  { report := { summary := .empty path, error := some error }, records := [] }

/-- What a file with a given text adds. -/
def ofText (path : Path) (t : Text) : Reading :=
  match Record.parse path t with
  | .ok rs =>
      { report := { summary := .ofRecords path rs, error := none }, records := rs }
  | .error e => failed path (.structural path e)

/-- What a file on a disk adds. The report has the path as it was given, a leading `~`
included. -/
def ofFile (disk : Disk) (path : Path) : Reading :=
  match disk.readExpanded path with
  | .ok t => ofText path t
  | .error e => failed path (.unreadable path e.message)

end Reading

/-- The outcome of a run. -/
structure Report where
  /-- What is reported about each file, in the order of the run. -/
  files : List FileReport
  /-- The issues of the records of all files together. -/
  issues : List Issue
  deriving DecidableEq, Repr

namespace Report

/-- Everything that is reported: first about single files, then about the records. -/
def allIssues (r : Report) : List Issue :=
  r.files.filterMap FileReport.error ++ r.issues

/-- The number of issues. -/
def errorCount (r : Report) : Nat :=
  r.allIssues.length

/-- Whether there is anything to report. -/
def failed (r : Report) : Bool :=
  0 < r.errorCount

/-- The exit code of a check with this outcome. -/
def exitCode (r : Report) : UInt32 :=
  if r.failed then 1 else 0

/-- A run has not failed exactly if there is nothing to report. Reading errors and findings
count alike. -/
theorem failed_eq_false_iff {r : Report} : r.failed = false ↔ r.allIssues = [] := by
  rw [failed, errorCount, decide_eq_false_iff_not, Nat.not_lt, Nat.le_zero,
    List.length_eq_zero_iff]

/-- The exit code is zero exactly if there is nothing to report. Otherwise it is one. -/
theorem exitCode_eq_zero_iff {r : Report} : r.exitCode = 0 ↔ r.allIssues = [] := by
  rw [← failed_eq_false_iff, exitCode]
  cases r.failed <;> decide

end Report

/-- A run: the files so far. -/
structure Run where
  /-- The records of all files. -/
  records : List Record
  /-- The reports of all files. -/
  files : List FileReport
  deriving DecidableEq, Repr

namespace Run

/-- A run with no file. -/
def empty : Run :=
  { records := [], files := [] }

/-- The run with one more file. -/
def add (run : Run) (reading : Reading) : Run :=
  { records := run.records ++ reading.records, files := run.files ++ [reading.report] }

/-- The run with one more file, whose text is given. -/
def addText (run : Run) (path : Path) (t : Text) : Run :=
  run.add (.ofText path t)

/-- The run with one more file, which is read from a disk. -/
def addFile (disk : Disk) (run : Run) (path : Path) : Run :=
  run.add (.ofFile disk path)

/-- The outcome of a run. -/
def finish (run : Run) : Report :=
  { files := run.files, issues := (Findings.ofRecords run.records).issues }

end Run

end Hwdb

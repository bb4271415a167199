import Hwdb.Command.Options
import Hwdb.Command.Paint
import Hwdb.Document

/-!
# `Hwdb.Command`: what the command does

The command checks files and shows the report. In the text format each file is shown as
soon as it has been read: its summary, unless summaries are left out, and its issue if
there is one. The issues of the records follow at the end, and a footer counts all of
them. In the JSON format one document holds everything.

What the command does depends on its arguments, on the files and on whether colours are
asked for, so `Command.execute` is a function of these.
-/

set_option autoImplicit false

namespace Hwdb

/-- What the command leaves behind. -/
structure Outcome where
  /-- The exit code. -/
  exitCode : UInt32
  /-- What goes to the standard output. -/
  output : Text
  /-- The line on the standard error that counts issues, if there is one. -/
  footer : Option Text
  /-- The lines on the standard error that say why nothing was done, if nothing was. -/
  complaint : List Text
  deriving DecidableEq, Repr

namespace Command

/-- The version of the command. -/
def version : Text :=
  "hwdb-check 0.1.0".toList

/-- The lines that explain the options. -/
def help : List Text :=
  ["Checks hwdb files and reports what is wrong with them.",
    "",
    "Usage: hwdb-check [OPTIONS] FILES...",
    "",
    "Options:",
    "  -f, --format FORMAT  show the report as text (default) or json",
    "  -q, --quiet          do not show summaries of files",
    "      --no-color       do not use colours",
    "  -v, --verbose        log more",
    "  -h, --help           show this text",
    "  -V, --version        show the version"].map String.toList

/-- Lines, each with a line feed at its end. -/
def unlines (ls : List Text) : Text :=
  ls.flatMap (· ++ ['\n'])

/-- A text in a style, if colours are wanted. -/
def painted (colored : Bool) (style : Style) (t : Text) : Text :=
  if colored then style.paint t else t

/-- The line of an issue. -/
def issueLine (colored : Bool) (issue : Issue) : Text :=
  painted colored .red issue.message

/-- The lines of a file. -/
def fileLines (quiet colored : Bool) (r : FileReport) : List Text :=
  (if quiet then [] else [r.summary.text]) ++ r.error.toList.map (issueLine colored)

/-- The line that counts issues. -/
def footer (colored : Bool) (count : Nat) : Text :=
  painted colored .boldRed ['✗'] ++ ' ' :: Decimal.write count
    ++ (if count = 1 then " error found" else " errors found").toList

/-- A run together with the lines that were shown on the way. -/
structure Progress where
  /-- The run. -/
  run : Run
  /-- The lines. -/
  shown : List Text

/-- Reads one more file and shows it. -/
def Progress.next (disk : Disk) (quiet colored : Bool) (p : Progress) (path : Path) :
    Progress :=
  let reading := Reading.ofFile disk path
  { run := p.run.add reading, shown := p.shown ++ fileLines quiet colored reading.report }

/-- Checks files and shows each of them as it goes. -/
def checkAsText (disk : Disk) (colored : Bool) (options : Options) : Outcome :=
  let progress := options.files.foldl (Progress.next disk options.quiet colored)
    { run := .empty, shown := [] }
  let report := progress.run.finish
  { exitCode := report.exitCode
    output := unlines (progress.shown ++ report.issues.map (issueLine colored))
    footer := if report.failed then some (footer colored report.errorCount) else none
    complaint := [] }

/-- The lines about a report that has no document: what could not be done and, after an
empty line, the cause by itself, indented. -/
def failureLines (e : DocumentError) : List Text :=
  ["Error: ".toList ++ e.reportMessage, [], "Caused by:".toList, "    ".toList ++ e.message]

/-- Checks files and shows the report as one document. Without a document there is
nothing to show, and the command fails. -/
def checkAsJson (disk : Disk) (options : Options) : Outcome :=
  let report := (options.files.foldl (Run.addFile disk) .empty).finish
  match report.json with
  | .ok document =>
      { exitCode := report.exitCode, output := unlines [document], footer := none
        complaint := [] }
  | .error e =>
      { exitCode := 1, output := [], footer := none
        complaint := failureLines e }

/-- Whether colours are asked for from outside, given the value of the environment
variable `CLICOLOR_FORCE`. Any value but zero asks for them. -/
def wantsColor (force : Option Text) : Bool :=
  match force with
  | some value => value != ['0']
  | none => false

/-- Does what a command line asks for. Colours are used when they are asked for from
outside and not refused by the command line. -/
def execute (disk : Disk) (wantsColor : Bool) : Request → Outcome
  | .check options =>
      match options.format with
      | .text => checkAsText disk (wantsColor && !options.noColor) options
      | .json => checkAsJson disk options
  | .version =>
      { exitCode := 0, output := unlines [version], footer := none, complaint := [] }
  | .help =>
      { exitCode := 0, output := unlines help, footer := none, complaint := [] }
  | .misuse error =>
      { exitCode := 2, output := [], footer := none
        complaint := ["error: ".toList ++ error.message] }

end Command

end Hwdb

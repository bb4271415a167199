import Hwdb.Path

/-!
# `Hwdb.Command.Options`: the command line

Arguments are taken from left to right. An argument that begins with a minus sign is an
option, except for a minus sign alone, and any other is a file. After the argument `--`
all are files.

An option has a long name after two minus signs, and some have a letter. Letters may
stand together behind one minus sign. An option with a value takes it from the same
argument, after `=` or right after its letter, or else it takes the next argument.

The first thing that is wrong ends the reading, and so does the first option that asks for
the version or for help.
-/

set_option autoImplicit false

namespace Hwdb

/-- How a report is shown. -/
inductive Format
  /-- A line for each file and each issue. -/
  | text
  /-- One JSON document. -/
  | json
  deriving DecidableEq, Repr

/-- The format with a given name. -/
def Format.ofName? (name : Text) : Option Format :=
  if name = "text".toList then some text
  else if name = "json".toList then some json
  else none

/-- What to check, and how to show the outcome. -/
structure Options where
  /-- The files, in order. There is one at least. -/
  files : List Path
  /-- How the report is shown. -/
  format : Format
  /-- Whether summaries are left out. -/
  quiet : Bool
  /-- Whether colours are left out whatever the environment asks for. -/
  noColor : Bool
  /-- How much is logged. -/
  verbosity : Nat
  deriving DecidableEq, Repr

/-- What is wrong with a command line. -/
inductive UsageError
  /-- There is no such option. -/
  | unknownOption (name : Text)
  /-- The option takes no value, and has one. -/
  | unexpectedValue (name : Text)
  /-- The format is not given. -/
  | missingFormat
  /-- There is no such format. -/
  | unknownFormat (name : Text)
  /-- The option is given a second time. -/
  | repeatedOption (name : Text)
  /-- A file has an empty path. -/
  | emptyPath
  /-- There is no file. -/
  | noFiles
  deriving DecidableEq, Repr

/-- What is reported about a command line that is wrong. -/
def UsageError.message : UsageError → Text
  | unknownOption name => "unknown option '".toList ++ name ++ "'".toList
  | unexpectedValue name => "option '".toList ++ name ++ "' takes no value".toList
  | missingFormat => "option 'format' needs a value".toList
  | unknownFormat name => "unknown format '".toList ++ name ++ "'".toList
  | repeatedOption name => "option '".toList ++ name ++ "' is given twice".toList
  | emptyPath => "a file needs a path".toList
  | noFiles => "no files to check".toList

/-- What a command line asks for. -/
inductive Request
  /-- To check files. -/
  | check (options : Options)
  /-- To tell the version. -/
  | version
  /-- To explain the options. -/
  | help
  /-- Nothing, because something is wrong. -/
  | misuse (error : UsageError)
  deriving DecidableEq, Repr

/-- The options so far. -/
structure OptionsDraft where
  /-- The files so far. -/
  files : List Path
  /-- The format, if it was given. -/
  format : Option Format
  /-- Whether summaries are left out. -/
  quiet : Bool
  /-- Whether colours are left out. -/
  noColor : Bool
  /-- How much is logged. -/
  verbosity : Nat
  /-- Whether the next argument is the name of a format. -/
  awaitsFormat : Bool
  /-- Whether all further arguments are files. -/
  filesOnly : Bool
  deriving DecidableEq, Repr

namespace OptionsDraft

/-- The options before the first argument. -/
def start : OptionsDraft :=
  { files := [], format := none, quiet := false, noColor := false, verbosity := 0
    awaitsFormat := false, filesOnly := false }

/-- Takes a file. -/
def takeFile (d : OptionsDraft) (p : Path) : Except Request OptionsDraft :=
  if p.bytes.isEmpty then .error (.misuse .emptyPath)
  else .ok { d with files := d.files ++ [p] }

/-- Takes the name of a format. -/
def takeFormat (d : OptionsDraft) (name : Text) : Except Request OptionsDraft :=
  match Format.ofName? name, d.format with
  | none, _ => .error (.misuse (.unknownFormat name))
  | some _, some _ => .error (.misuse (.repeatedOption "format".toList))
  | some format, none => .ok { d with format, awaitsFormat := false }

/-- Takes the option that leaves out summaries. -/
def takeQuiet (d : OptionsDraft) : Except Request OptionsDraft :=
  if d.quiet then .error (.misuse (.repeatedOption "quiet".toList))
  else .ok { d with quiet := true }

/-- Takes the option that leaves out colours. -/
def takeNoColor (d : OptionsDraft) : Except Request OptionsDraft :=
  if d.noColor then .error (.misuse (.repeatedOption "no-color".toList))
  else .ok { d with noColor := true }

/-- Takes the option that makes logs longer, which may be given any number of times. -/
def takeVerbose (d : OptionsDraft) : Except Request OptionsDraft :=
  .ok { d with verbosity := d.verbosity + 1 }

/-- Takes letters of options. The letter of the format takes those behind it as the value,
with or without `=` between them. -/
def takeLetters (d : OptionsDraft) : List Char → Except Request OptionsDraft
  | [] => .ok d
  | 'f' :: [] => .ok { d with awaitsFormat := true }
  | 'f' :: '=' :: name => d.takeFormat name
  | 'f' :: name => d.takeFormat name
  | 'h' :: _ => .error .help
  | 'V' :: _ => .error .version
  | 'q' :: letters => do (← d.takeQuiet).takeLetters letters
  | 'v' :: letters => do (← d.takeVerbose).takeLetters letters
  | c :: _ => .error (.misuse (.unknownOption [c]))

/-- Takes an option without a value by its long name. -/
def takeNamed (d : OptionsDraft) (name : Text) : Except Request OptionsDraft :=
  if name = "format".toList then .ok { d with awaitsFormat := true }
  else if name = "quiet".toList then d.takeQuiet
  else if name = "no-color".toList then d.takeNoColor
  else if name = "verbose".toList then d.takeVerbose
  else if name = "help".toList then .error .help
  else if name = "version".toList then .error .version
  else .error (.misuse (.unknownOption name))

/-- The long names of the options that take no value. -/
def flagNames : List Text :=
  ["quiet", "no-color", "verbose", "help", "version"].map String.toList

/-- Takes an option by its long name, with a value behind `=` if there is one. -/
def takeLong (d : OptionsDraft) (option : Text) : Except Request OptionsDraft :=
  let name := option.takeWhile (· != '=')
  match option.dropWhile (· != '=') with
  | [] => d.takeNamed name
  | _ :: value =>
      if name = "format".toList then d.takeFormat value
      else if name ∈ flagNames then .error (.misuse (.unexpectedValue name))
      else .error (.misuse (.unknownOption name))

/-- Takes one argument. Bytes that are no UTF-8 are not in any option, so options may be
read lossily. -/
def take (d : OptionsDraft) (argument : Path) : Except Request OptionsDraft :=
  if d.filesOnly then d.takeFile argument
  else if d.awaitsFormat then d.takeFormat argument.display
  else
    match argument.display with
    | ['-', '-'] => .ok { d with filesOnly := true }
    | '-' :: '-' :: option => d.takeLong option
    | '-' :: letter :: letters => d.takeLetters (letter :: letters)
    | _ => d.takeFile argument

/-- What the options ask for after the last argument. -/
def finish (d : OptionsDraft) : Request :=
  if d.awaitsFormat then .misuse .missingFormat
  else if d.files.isEmpty then .misuse .noFiles
  else
    .check
      { files := d.files, format := d.format.getD .text, quiet := d.quiet
        noColor := d.noColor, verbosity := d.verbosity }

end OptionsDraft

/-- What a command line asks for, given its arguments. -/
def Request.ofArguments (arguments : List Path) : Request :=
  match arguments.foldlM OptionsDraft.take .start with
  | .ok draft => draft.finish
  | .error request => request

end Hwdb

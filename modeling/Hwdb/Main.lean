import Hwdb.Command

/-!
# `Hwdb.Main`: the command on a real system

The command line is read, the files that it names are read, and `Command.execute` does
the rest. Nothing is decided here.
-/

set_option autoImplicit false

namespace Hwdb.Main

/-- Why the system did not give a file, by the number of its reason. Some numbers come
negated. -/
def failureOfCode (code : UInt32) (details : String) : ReadFailure :=
  match if code < 0x80000000 then code.toNat else (0 - code).toNat with
  | 2 => .missing
  | 13 => .system "Permission denied".toList 13
  | 20 => .notADirectory
  | 21 => .isADirectory
  | number => .system details.toList number

/-- Why the system did not give a file. -/
def failureOfError : IO.Error → ReadFailure
  | .noFileOrDirectory _ code details | .interrupted _ code details
  | .permissionDenied _ code details | .inappropriateType _ code details
  | .noSuchThing _ code details | .resourceExhausted _ code details
  | .invalidArgument _ code details | .alreadyExists _ code details
  | .otherError code details | .resourceBusy code details
  | .resourceVanished code details | .unsupportedOperation code details
  | .hardwareFault code details | .unsatisfiedConstraints code details
  | .illegalOperation code details | .protocolError code details
  | .timeExpired code details => failureOfCode code details
  | .unexpectedEof => .system "Input/output error".toList 5
  | .userError message => .system message.toList 5

/-- Reads a file of the system. -/
def readBytes (path : Path) : IO (Except ReadFailure (List UInt8)) := do
  match path.text? with
  | none => return .error .missing
  | some t =>
      try
        let bytes ← IO.FS.readBinFile (String.ofList t)
        return .ok bytes.toList
      catch e =>
        return .error (failureOfError e)

/-- The files that a command line names, and no others, as they are on the system. -/
def loadDisk (home : Option Text) : Request → IO Disk
  | .check options => do
      let paths := options.files.filterMap fun path => path.expandHome? home
      let files ← paths.mapM fun path => do
        return (path, ← readBytes path)
      return { home, bytes := fun path => (files.lookup path).getD (.error .missing) }
  | _ => return { home, bytes := fun _ => .error .missing }

end Hwdb.Main

open Hwdb in
/-- Checks the files that the command line names. -/
def main (args : List String) : IO UInt32 := do
  let given := (← IO.getEnv "HOME").map fun value => Path.ofText value.toList
  let force := (← IO.getEnv "CLICOLOR_FORCE").map String.toList
  let request := Request.ofArguments (args.map fun arg => .ofText arg.toList)
  let disk ← Main.loadDisk (homeDirectory given none) request
  let outcome := Command.execute disk (Command.wantsColor force) request
  IO.print (String.ofList outcome.output)
  for line in outcome.footer.toList ++ outcome.complaint do
    IO.eprintln (String.ofList line)
  return outcome.exitCode

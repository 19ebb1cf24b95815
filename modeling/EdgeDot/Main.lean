import EdgeDot.CommandLine

/-!
# The program

Reads the arguments, opens the files and prints; what is read, written and printed is decided by
the library.
-/

namespace EdgeDot.Program

/-- a failure of the system in the terms of the library -/
def systemError : IO.Error → IoError
  | .noFileOrDirectory .. => .notFound
  | .permissionDenied .. => ⟨.permissionDenied, "Permission denied (os error 13)".toList⟩
  | .inappropriateType _ 20 _ => .notADirectory
  | .inappropriateType _ 21 _ => .isADirectory
  | .invalidArgument _ 36 _ => .invalidFilename
  | e => ⟨.other, e.toString.toList⟩

def attempt {α : Type} (action : IO α) : IO (Except IoError α) := do
  match ← action.toBaseIO with
  | .ok a => return .ok a
  | .error e => return .error (systemError e)

/-- what is left to read of an open file -/
def sourceOf (file : IO.FS.Handle) : IO Source := do
  match ← attempt file.readBinToEnd with
  | .ok bytes => return .ofBytes bytes.data.toList
  | .error e => return .ofBytes [] (.broken e)

def convert (input output : Text) (options : Options) :
    IO (Except Failure Totals × List Event) := do
  match ← attempt (IO.FS.Handle.mk (String.ofList input) .read) with
  | .error e => return (.error (.opening input e), [])
  | .ok inputFile =>
    match ← attempt (IO.FS.Handle.mk (String.ofList output) .write) with
    | .error e => return (.error (.opening output e), [])
    | .ok outputFile =>
      let converted := convertSource input output options (← sourceOf inputFile)
      match ← attempt (outputFile.write converted.2.2.toByteArray *> outputFile.flush) with
      | .error e => return (.error (.io e), [])
      | .ok () => return (converted.1, converted.2.1)

def verbosityVariable : String := "RUST_LOG"

def verbosity : IO Verbosity :=
  return CommandLine.verbosityOf ((← IO.getEnv verbosityVariable).map String.toList)

end EdgeDot.Program

open EdgeDot in
def main (arguments : List String) : IO UInt32 := do
  match Command.ofArguments (arguments.map String.toList) with
  | .misuse =>
    IO.eprintln "error: expected <INPUT> <OUTPUT>; for more information, try --help"
    return CommandLine.misuseCode.toUInt32
  | .help =>
    IO.print (String.ofList CommandLine.helpText)
    return 0
  | .version =>
    IO.print (String.ofList CommandLine.versionText)
    return 0
  | .convert input output options =>
    let (result, events) ← Program.convert input output options
    IO.eprint (String.ofList (CommandLine.diagnostics (← Program.verbosity) events result))
    return (CommandLine.exitCode result).toUInt32

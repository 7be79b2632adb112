import StackAssembler.Cli.Run
import StackAssembler.Journal

/-!
# The program

The command line on the files of the operating system. All decisions are those of
`StackAssembler.Cli`; here files are read and written and texts are printed.
-/

namespace StackAssembler.Cli

/-- The fault that an error of the operating system stands for. An error code may come
negated. -/
def FileFault.ofError : IO.Error → FileFault
  | .noFileOrDirectory .. => .notFound
  | .inappropriateType _ 21 _ | .inappropriateType _ 4294967275 _ => .isDirectory
  | .inappropriateType .. => .notDirectory
  | .invalidArgument _ 36 _ | .invalidArgument _ 4294967260 _ => .nameTooLong
  | .permissionDenied .. => .other "Permission denied (os error 13)"
  | e => .other (toString e)

/-- Read a file of the operating system. -/
def readInput (path : String) : IO (Except FileFault ByteArray) := do
  match ← (IO.FS.readBinFile path).toBaseIO with
  | .ok content => return .ok content
  | .error e => return .error (FileFault.ofError e)

/-- Write files of the operating system, up to the first that fails. -/
def writeOutputs : List OutputFile → IO (Option Failure)
  | [] => return none
  | file :: files => do
    match ← (IO.FS.writeBinFile file.path file.content).toBaseIO with
    | .ok () => writeOutputs files
    | .error e => return some (.write file.path (FileFault.ofError e))

/-- Tell what the passes do, without the single instructions. -/
def logPasses (o : Options) (input : Except FileFault ByteArray) : IO Unit := do
  if o.verbose then
    if let .ok content := input then
      if let some source := String.fromUTF8? content then
        for event in buildJournal o.config o.macros source do
          if event.level = .debug then
            IO.eprintln event.message

/-- Assemble as the options say, and return the exit code. -/
def assembleFiles (o : Options) : IO UInt32 := do
  let input ← readInput o.input
  logPasses o input
  match o.plan input with
  | .error failure =>
    IO.eprint failure.report
    return 1
  | .ok plan =>
    match ← writeOutputs plan.outputs with
    | some failure =>
      IO.eprint failure.report
      return 1
    | none =>
      IO.print plan.printed
      return 0

end StackAssembler.Cli

open StackAssembler.Cli in
/-- Run the program. -/
def main (args : List String) : IO UInt32 :=
  match Options.parse args with
  | .error (.info i) => do
    IO.print i.text
    return 0
  | .error (.usage e) => do
    IO.eprint s!"error: {e.message}\n\n{usageText}"
    return 2
  | .ok o => assembleFiles o

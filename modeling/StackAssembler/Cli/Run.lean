import StackAssembler.Assembly.Listing
import StackAssembler.Build
import StackAssembler.Cli.FileTree
import StackAssembler.Cli.Options
import StackAssembler.SymbolMap.Printer

/-!
# Runs of the command line

A run reads its input, builds it, writes the program and then its symbols, and prints the listing
last. What is written before a failure stays.
-/

namespace StackAssembler.Cli

inductive Failure where
  | read (path : String) (fault : FileFault)
  | build (path : String) (e : BuildError)
  | write (path : String) (fault : FileFault)
  deriving DecidableEq, Repr

/-- A report of what could not be done, and of its cause. -/
def withCause (context cause : String) : String :=
  s!"Error: {context}\n\nCaused by:\n    {cause}\n"

/-- The report of a failure. An error of the macros is reported by itself. -/
def Failure.report : Failure → String
  | .read path fault => withCause s!"Couldn't read {path}" fault.message
  | .build _ (.expansion e) => s!"Error: {e.message}\n"
  | .build path (.assembly e) => withCause s!"Couldn't assemble {path}" e.message
  | .write path fault => withCause s!"Couldn't write {path}" fault.message

structure OutputFile where
  path : String
  content : ByteArray
  deriving DecidableEq

/-- What is left to do when a program has been built. -/
structure Plan where
  outputs : List OutputFile
  printed : String
  deriving DecidableEq

namespace Options

/-- The path of the program: the input with the extension `bin` unless it is given. -/
def outputPath (o : Options) : String := o.output.getD (Path.withExtension o.input "bin")

def symbolPath (o : Options) : String := o.outputPath ++ ".sym"

/-- What to write and print for a program. -/
def planFor (o : Options) (image : Image) : Plan where
  outputs :=
    ⟨o.outputPath, ⟨image.bytes.toArray⟩⟩ ::
      if o.symbols then [⟨o.symbolPath, image.symbols.render.toUTF8⟩] else []
  printed := if o.listing then image.listing else ""

/-- What to write and print, given what reading the input gave. -/
def plan (o : Options) (input : Except FileFault ByteArray) : Except Failure Plan :=
  match input with
  | .error fault => .error (.read o.input fault)
  | .ok content =>
    match String.fromUTF8? content with
    | none => .error (.read o.input .notText)
    | some source =>
      match StackAssembler.build o.config o.macros source with
      | .error e => .error (.build o.input e)
      | .ok image => .ok (o.planFor image)

end Options

/-- Write files in order, up to the first that fails. -/
def writeAll (t : FileTree) : List OutputFile → FileTree × Option Failure
  | [] => (t, none)
  | file :: files =>
    match t.write file.path file.content with
    | .error fault => (t, some (.write file.path fault))
    | .ok t => writeAll t files

/-- How a run ended, what it printed, and the files it left. -/
structure Outcome where
  exitCode : UInt8
  stdout : String
  stderr : String
  tree : FileTree
  deriving DecidableEq

def usageText : String := "Usage: stackasm [OPTIONS] <INPUT>\n"

def versionText : String := "stackasm 0.1.0\n"

/-- The text that answers a request for information. -/
def Info.text : Info → String
  | .help => usageText
  | .version => versionText

def runOptions (o : Options) (t : FileTree) : Outcome :=
  match o.plan (t.read o.input) with
  | .error failure => ⟨1, "", failure.report, t⟩
  | .ok plan =>
    match writeAll t plan.outputs with
    | (t, some failure) => ⟨1, "", failure.report, t⟩
    | (t, none) => ⟨0, plan.printed, "", t⟩

/-- Run the program with an argument vector on a file tree. -/
def run (args : List String) (t : FileTree) : Outcome :=
  match Options.parse args with
  | .error (.info i) => ⟨0, i.text, "", t⟩
  | .error (.usage e) => ⟨2, "", s!"error: {e.message}\n\n{usageText}", t⟩
  | .ok o => runOptions o t

end StackAssembler.Cli

import StackAssembler.Assembly.Config
import StackAssembler.Text.Numeral

/-!
# Command-line options

The reading of an argument vector. Options have long names, some also a letter; letters can be
joined behind one dash, and a value follows its option directly, after an equals sign or as the next
argument. An argument that looks like an option is never taken as a value. Behind `--` every
argument is an input.

Arguments are taken in order, and the first mistake or request for information ends the reading.
-/

namespace StackAssembler.Cli

open Text

inductive Flag where
  | prune
  | noMacros
  | symbols
  | listing
  | verbose
  deriving DecidableEq, Repr

inductive Setting where
  | output
  | maxWords
  | labels
  deriving DecidableEq, Repr

/-- What can be asked of the program instead of an assembly. -/
inductive Info where
  | help
  | version
  deriving DecidableEq, Repr

inductive Switch where
  | flag (f : Flag)
  | setting (s : Setting)
  | info (i : Info)
  deriving DecidableEq, Repr

inductive UsageError where
  | unknownOption (option : String)
  | unexpectedValue (option : String)
  | missingValue (option : String)
  | emptyPath
  | invalidNumber (text : String)
  | repeated (option : String)
  | unexpectedArgument (argument : String)
  | missingInput
  deriving DecidableEq, Repr

def UsageError.message : UsageError → String
  | .unknownOption option => s!"unexpected argument '{option}' found"
  | .unexpectedValue option => s!"option '{option}' takes no value"
  | .missingValue option => s!"a value is required for '{option}' but none was supplied"
  | .emptyPath => "a path must not be empty"
  | .invalidNumber text => s!"invalid number '{text}'"
  | .repeated option => s!"the argument '{option}' cannot be used multiple times"
  | .unexpectedArgument argument => s!"unexpected argument '{argument}' found"
  | .missingInput => "the following required arguments were not provided: <INPUT>"

def Flag.name : Flag → String
  | .prune => "--prune"
  | .noMacros => "--no-macros"
  | .symbols => "--symbols"
  | .listing => "--listing"
  | .verbose => "--verbose"

def Setting.name : Setting → String
  | .output => "--output"
  | .maxWords => "--max-words"
  | .labels => "--labels"

def Switch.ofLong? : String → Option Switch
  | "--prune" => some (.flag .prune)
  | "--no-macros" => some (.flag .noMacros)
  | "--symbols" => some (.flag .symbols)
  | "--listing" => some (.flag .listing)
  | "--verbose" => some (.flag .verbose)
  | "--output" => some (.setting .output)
  | "--max-words" => some (.setting .maxWords)
  | "--labels" => some (.setting .labels)
  | "--help" => some (.info .help)
  | "--version" => some (.info .version)
  | _ => none

def Switch.ofShort? : Char → Option Switch
  | 'o' => some (.setting .output)
  | 'l' => some (.flag .listing)
  | 'v' => some (.flag .verbose)
  | 'h' => some (.info .help)
  | 'V' => some (.info .version)
  | _ => none

/-- Why the reading of arguments ended early. -/
inductive Halt where
  | usage (e : UsageError)
  | info (i : Info)
  deriving DecidableEq, Repr

structure Arguments where
  input : Option String := none
  output : Option String := none
  maxWords : Option Nat := none
  labels : Option Nat := none
  flags : List Flag := []
  deriving DecidableEq, Repr

namespace Arguments

def addInput (a : Arguments) (path : String) : Except Halt Arguments :=
  if a.input.isSome then .error (.usage (.unexpectedArgument path))
  else if path = "" then .error (.usage .emptyPath)
  else .ok { a with input := some path }

def addFlag (a : Arguments) (f : Flag) : Except Halt Arguments :=
  if f ∈ a.flags then .error (.usage (.repeated f.name)) else .ok { a with flags := f :: a.flags }

/-- Take a number for a setting that has none yet. -/
def readNumber (s : Setting) (known : Option Nat) (text : String) : Except Halt Nat :=
  match known, count? text.toList with
  | some _, _ => .error (.usage (.repeated s.name))
  | none, none => .error (.usage (.invalidNumber text))
  | none, some n => .ok n

/-- Take the value of a setting. -/
def addSetting (a : Arguments) (s : Setting) (value : String) : Except Halt Arguments :=
  match s with
  | .output =>
    if a.output.isSome then .error (.usage (.repeated s.name))
    else if value = "" then .error (.usage .emptyPath)
    else .ok { a with output := some value }
  | .maxWords => do return { a with maxWords := some (← readNumber s a.maxWords value) }
  | .labels => do return { a with labels := some (← readNumber s a.labels value) }

/-- Take letters joined behind one dash. A setting takes what follows its letter as its value, less
an equals sign at the front; where nothing follows, it is returned and waits for its value. -/
def addLetters (a : Arguments) : List Char → Except Halt (Arguments × Option Setting)
  | [] => .ok (a, none)
  | c :: cs =>
    match Switch.ofShort? c with
    | none => .error (.usage (.unknownOption (String.ofList ['-', c])))
    | some (.info i) => .error (.info i)
    | some (.flag f) =>
      match a.addFlag f with
      | .error halt => .error halt
      | .ok a => a.addLetters cs
    | some (.setting s) =>
      match cs with
      | [] => .ok (a, some s)
      | '=' :: value => (a.addSetting s (String.ofList value)).map (·, none)
      | value => (a.addSetting s (String.ofList value)).map (·, none)

/-- Take a long option. What follows the first equals sign is its value. A setting without value is
returned and waits for it. -/
def addLong (a : Arguments) (text : List Char) : Except Halt (Arguments × Option Setting) :=
  let name := String.ofList (text.takeWhile (· != '='))
  match Switch.ofLong? name, text.dropWhile (· != '=') with
  | none, _ => .error (.usage (.unknownOption name))
  | some (.setting s), [] => .ok (a, some s)
  | some (.setting s), _ :: value => (a.addSetting s (String.ofList value)).map (·, none)
  | some (.flag f), [] => (a.addFlag f).map (·, none)
  | some (.info i), [] => .error (.info i)
  | some _, _ :: _ => .error (.usage (.unexpectedValue name))

def addArgument (a : Arguments) (arg : String) : Except Halt (Arguments × Option Setting) :=
  match arg.toList with
  | '-' :: '-' :: _ => a.addLong arg.toList
  | '-' :: c :: cs => a.addLetters (c :: cs)
  | _ => (a.addInput arg).map (·, none)

/-- Does an argument look like an option? A dash alone does not. -/
def looksLikeOption (arg : String) : Bool := arg.startsWith "-" && arg != "-"

/-- Take arguments in order. A setting may be waiting for its value. -/
def addAll (a : Arguments) (waiting : Option Setting) : List String → Except Halt Arguments
  | [] =>
    match waiting with
    | none => .ok a
    | some s => .error (.usage (.missingValue s.name))
  | arg :: args =>
    match waiting with
    | some s =>
      if looksLikeOption arg then .error (.usage (.missingValue s.name))
      else
        match a.addSetting s arg with
        | .error halt => .error halt
        | .ok a => a.addAll none args
    | none =>
      if arg = "--" then args.foldlM addInput a
      else
        match a.addArgument arg with
        | .error halt => .error halt
        | .ok (a, waiting) => a.addAll waiting args

end Arguments

/-- What to assemble, and how. -/
structure Options where
  input : String
  output : Option String
  config : Config
  macros : Bool
  symbols : Bool
  listing : Bool
  verbose : Bool
  deriving DecidableEq, Repr

def Options.parse (args : List String) : Except Halt Options := do
  let a ← ({} : Arguments).addAll none args
  match a.input with
  | none => throw (.usage .missingInput)
  | some input =>
    let default : Config := {}
    return {
      input
      output := a.output
      config := {
        maxWords := a.maxWords.getD default.maxWords
        labelCapacity := a.labels.getD default.labelCapacity
        policy := if .prune ∈ a.flags then .pruneAfterJump else .keep }
      macros := .noMacros ∉ a.flags
      symbols := .symbols ∈ a.flags
      listing := .listing ∈ a.flags
      verbose := .verbose ∈ a.flags }

end StackAssembler.Cli

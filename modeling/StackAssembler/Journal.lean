import StackAssembler.Build

/-!
# Journals

A journal tells step by step what an assembly does, up to the end or to the line that stops it. It
is read off the states of the passes and has no part in them.
-/

namespace StackAssembler

open Text

/-- How much detail an event tells. -/
inductive Level where
  | debug
  | trace
  deriving DecidableEq, Repr

/-- Something that happens in the course of an assembly. -/
inductive Event where
  /-- A macro was defined. -/
  | macroDefined (name : String) (arity lines : Nat)
  /-- A label definition was met by the first pass. -/
  | labelMet (name : String) (address : Nat)
  /-- An instruction was given an address. -/
  | placed (mnemonic : String) (address : Nat)
  /-- An instruction was left out by the first pass. -/
  | unreachable (line : Nat) (mnemonic : String)
  /-- The first pass has ended. -/
  | surveyed (labels instructions : Nat)
  /-- A word was appended to the program. -/
  | emitted (address : Nat) (cell : Cell)
  /-- An instruction was left out by the second pass. -/
  | skipped (line : Nat) (mnemonic : String)
  /-- The second pass has ended. -/
  | completed (words : Nat)
  deriving DecidableEq, Repr

namespace Event

/-- The level of an event: single instructions are traced. -/
def level : Event → Level
  | .placed .. | .emitted .. => .trace
  | _ => .debug

def message : Event → String
  | .macroDefined name arity lines =>
    s!"macro `{name}` with {decimal arity} arguments, {decimal lines} lines"
  | .labelMet name address => s!"label `{name}` at {decimal address}"
  | .placed mnemonic address => s!"`{mnemonic}` at {decimal address}"
  | .unreachable line mnemonic => s!"line {decimal line}: `{mnemonic}` is unreachable"
  | .surveyed labels instructions =>
    s!"pass one: {decimal labels} labels, {decimal instructions} instructions"
  | .emitted address cell =>
    s!"{paddedDecimal 4 address}: 0x{hex 4 cell.word.toNat} (line {decimal cell.line})"
  | .skipped line mnemonic => s!"line {decimal line}: skipping `{mnemonic}`"
  | .completed words => s!"pass two: {decimal words} words"

end Event

namespace Survey

/-- What the first pass tells of a line. A label is told of before it is bound. -/
def events (s : Survey) (l : SourceLine) : List Event :=
  match Line.classify l.text with
  | .ok (.label name) => [.labelMet name s.address]
  | .ok (.instruction statement) =>
    if s.reach.admits then [.placed statement.mnemonic s.address]
    else [.unreachable l.number statement.mnemonic]
  | _ => []

/-- What the first pass tells of lines. -/
def journal (s : Survey) : List SourceLine → List Event
  | [] => [.surveyed s.labels.size s.address]
  | l :: ls =>
    s.events l ++
      match s.scan l with
      | .error _ => []
      | .ok next => next.journal ls

end Survey

namespace Emission

/-- What the second pass tells of a line, given the state behind it. -/
def events (e : Emission) (l : SourceLine) (next : Emission) : List Event :=
  match Line.classify l.text with
  | .ok (.instruction statement) =>
    if e.reach.admits then (next.cells.back?.map (Event.emitted e.cells.size)).toList
    else [.skipped l.number statement.mnemonic]
  | _ => []

/-- What the second pass tells of lines. -/
def journal (maxWords : Nat) (labels : LabelTable) (e : Emission) : List SourceLine → List Event
  | [] => [.completed e.cells.size]
  | l :: ls =>
    match e.scan maxWords labels l with
    | .error _ => []
    | .ok next => e.events l next ++ next.journal maxWords labels ls

end Emission

namespace Expander

/-- What the expansion tells of a line that it has read. -/
def events (x : Expander) (l : SourceLine) : List Event :=
  match Directive.ofText l.text, x.pending with
  | .ends, some m => [.macroDefined m.name m.arity m.body.size]
  | _, _ => []

/-- What the expansion tells of lines. -/
def journal (x : Expander) : List SourceLine → List Event
  | [] => []
  | l :: ls =>
    match x.step l with
    | .error _ => []
    | .ok next => x.events l ++ next.journal ls

end Expander

def assemblyJournal (config : Config) (source : String) : List Event :=
  match config.check source with
  | .error _ => []
  | .ok () =>
    let ls := sourceLines source
    (Survey.start config).journal ls ++
      match Survey.run config ls with
      | .error _ => []
      | .ok survey => (Emission.start config).journal config.maxWords survey.labels ls

def expansionJournal (source : String) : List Event := Expander.start.journal (sourceLines source)

/-- The journal of a build. Line numbers are those of the text that is assembled. -/
def buildJournal (config : Config) (macros : Bool) (source : String) : List Event :=
  if macros then
    expansionJournal source ++
      match expand source with
      | .error _ => []
      | .ok x => assemblyJournal config x.text
  else assemblyJournal config source

end StackAssembler

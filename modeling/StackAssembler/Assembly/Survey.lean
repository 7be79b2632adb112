import StackAssembler.Assembly.LabelTable
import StackAssembler.Assembly.Reach
import StackAssembler.Source.Line

/-!
# Survey: the first pass

The first pass walks the lines of a source, counts the instructions that are admitted and binds
every label to the number of instructions before it. Mnemonics and operands are not looked at, so
the only faults are those of label definitions.
-/

namespace StackAssembler

/-- The state of the first pass: the address of the next instruction, the labels so far and the
reach of control. -/
structure Survey where
  address : Nat
  labels : LabelTable
  reach : Reach
  deriving DecidableEq, Repr

namespace Survey

def start (config : Config) : Survey :=
  ⟨0, LabelTable.empty config.labelCapacity, Reach.start config.policy⟩

/-- Take in what a line says. -/
def step (s : Survey) : Line → Except LineFault Survey
  | .label name =>
    match s.labels.define name s.address with
    | .error fault => .error fault
    | .ok labels => .ok { s with labels := labels, reach := s.reach.pastLabel }
  | .instruction statement =>
    if s.reach.admits then
      .ok { s with
        address := s.address + 1
        reach := s.reach.pastInstruction statement.mnemonic }
    else .ok s
  | .ignorable => .ok s

/-- Read a line and take in what it says. -/
def scan (s : Survey) (l : SourceLine) : Except AssemblyError Survey :=
  l.locate (Line.classify l.text >>= s.step)

def scanAll (s : Survey) (ls : List SourceLine) : Except AssemblyError Survey := ls.foldlM scan s

@[simp] theorem scanAll_nil (s : Survey) : s.scanAll [] = .ok s := rfl

@[simp] theorem scanAll_cons (s : Survey) (l : SourceLine) (ls : List SourceLine) :
    s.scanAll (l :: ls) = s.scan l >>= fun next => next.scanAll ls := rfl

theorem scanAll_append (s : Survey) (ls ms : List SourceLine) :
    s.scanAll (ls ++ ms) = s.scanAll ls >>= fun next => next.scanAll ms := List.foldlM_append

def run (config : Config) (ls : List SourceLine) : Except AssemblyError Survey :=
  (start config).scanAll ls

end Survey

end StackAssembler

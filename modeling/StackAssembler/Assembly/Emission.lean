import StackAssembler.Assembly.Image
import StackAssembler.Assembly.Reach
import StackAssembler.Source.Line

/-!
# Emission: the second pass

The second pass walks the lines again with the complete label table and appends the word of every
admitted instruction to the program. It keeps its own account of the reach of control.
-/

namespace StackAssembler

open Text

namespace Statement

/-- The operand of an instruction. An operation that takes an operand is written with exactly one
token behind its mnemonic; a superfluous token is reported before a missing one. An operation
without operand is written alone. -/
def operand (labels : LabelTable) (s : Statement) (op : Operation) :
    Except LineFault (Option UInt16) :=
  match op.shape, s.argument, s.extra with
  | .immediate, _, some extra | .address, _, some extra =>
    .error (.unexpectedOperand s.mnemonic extra)
  | .immediate, none, none | .address, none, none => .error (.missingOperand s.mnemonic)
  | .immediate, some argument, none =>
    match literal? argument.toList with
    | some value => .ok (some (Word.literalField value))
    | none => .error (.invalidLiteral s.mnemonic argument)
  | .address, some argument, none =>
    match labels.resolve argument with
    | .ok address => .ok (some (Word.addressField address))
    | .error fault => .error fault
  | .arithmetic, some argument, _ | .empty, some argument, _ =>
    .error (.unexpectedOperand s.mnemonic argument)
  | .arithmetic, none, _ | .empty, none, _ => .ok none

def word (labels : LabelTable) (s : Statement) : Except LineFault Word :=
  match Operation.named? s.mnemonic with
  | none => .error (.unknownMnemonic s.mnemonic)
  | some op =>
    match s.operand labels op with
    | .error fault => .error fault
    | .ok operand => .ok (op.encode operand)

end Statement

/-- The state of the second pass: the program so far and the reach of control. -/
structure Emission where
  cells : Array Cell
  reach : Reach
  deriving DecidableEq, Repr

namespace Emission

def start (config : Config) : Emission := ⟨#[], Reach.start config.policy⟩

/-- Append a word unless the program is full. -/
def emit (maxWords : Nat) (cells : Array Cell) (cell : Cell) : Except LineFault (Array Cell) :=
  if cells.size < maxWords then .ok (cells.push cell) else .error (.imageFull maxWords)

/-- Take in what the line with the given number says. -/
def step (maxWords : Nat) (labels : LabelTable) (e : Emission) (number : Nat) :
    Line → Except LineFault Emission
  | .label _ => .ok { e with reach := e.reach.pastLabel }
  | .instruction statement =>
    if e.reach.admits then
      match statement.word labels with
      | .error fault => .error fault
      | .ok word =>
        match emit maxWords e.cells ⟨word, number⟩ with
        | .error fault => .error fault
        | .ok cells => .ok ⟨cells, e.reach.pastInstruction statement.mnemonic⟩
    else .ok e
  | .ignorable => .ok e

/-- Read a line and take in what it says. -/
def scan (maxWords : Nat) (labels : LabelTable) (e : Emission) (l : SourceLine) :
    Except AssemblyError Emission :=
  l.locate (Line.classify l.text >>= step maxWords labels e l.number)

def scanAll (maxWords : Nat) (labels : LabelTable) (e : Emission) (ls : List SourceLine) :
    Except AssemblyError Emission :=
  ls.foldlM (scan maxWords labels) e

@[simp] theorem scanAll_nil (maxWords : Nat) (labels : LabelTable) (e : Emission) :
    scanAll maxWords labels e [] = .ok e := rfl

@[simp] theorem scanAll_cons (maxWords : Nat) (labels : LabelTable) (e : Emission)
    (l : SourceLine) (ls : List SourceLine) :
    scanAll maxWords labels e (l :: ls) =
      scan maxWords labels e l >>= fun next => scanAll maxWords labels next ls := rfl

def run (config : Config) (labels : LabelTable) (ls : List SourceLine) :
    Except AssemblyError Emission :=
  scanAll config.maxWords labels (start config) ls

end Emission

end StackAssembler

import StackAssembler.Machine.Word
import StackAssembler.Text.Numeral

/-!
# Instructions

The meaning of a word, its text, and the reading of words as instructions.
-/

namespace StackAssembler

open Text

inductive Instruction where
  | immediate (op : Opcode) (value : UInt16)
  | arith (op : ArithOp)
  | address (op : Opcode) (target : UInt16)
  | bare (op : Opcode)
  deriving DecidableEq, Repr

/-- Why a word is no instruction. -/
inductive DecodeError where
  | unknownOpcode (bits : UInt16) (word : Word)
  | unknownArith (field : UInt16) (word : Word)
  | strayOperand (op : Opcode) (field : UInt16)
  deriving DecidableEq, Repr

def DecodeError.message : DecodeError → String
  | .unknownOpcode bits word =>
    s!"unknown opcode 0x{hex 1 bits.toNat} in word 0x{hex 4 word.toNat}"
  | .unknownArith field word =>
    s!"unknown arithmetic subtype 0x{hex 1 field.toNat} in word 0x{hex 4 word.toNat}"
  | .strayOperand op field => s!"{op.name} takes no operand, found 0x{hex 1 field.toNat}"

namespace Instruction

def opcode : Instruction → Opcode
  | .immediate op _ | .address op _ | .bare op => op
  | .arith _ => .opr

def toWord : Instruction → Word
  | .immediate op value => Word.pack op value
  | .arith op => Word.pack .opr op.code
  | .address op target => Word.pack op target
  | .bare op => Word.pack op 0

/-- The instruction that a word stands for. -/
def ofWord (w : Word) : Except DecodeError Instruction :=
  match Opcode.ofCode? w.opcodeBits with
  | none => .error (.unknownOpcode w.opcodeBits w)
  | some op =>
    match op.shape with
    | .immediate => .ok (.immediate op w.field)
    | .address => .ok (.address op w.field)
    | .arithmetic =>
      match ArithOp.ofCode? w.field with
      | none => .error (.unknownArith w.field w)
      | some arithOp => .ok (.arith arithOp)
    | .empty => if w.field = 0 then .ok (.bare op) else .error (.strayOperand op w.field)

/-- The text of an instruction: values are decimal, addresses hexadecimal with at least three
digits. -/
def render : Instruction → String
  | .immediate op value => s!"{op.name} {decimal value.toNat}"
  | .address op target => s!"{op.name} @{hex 3 target.toNat}"
  | .arith op => op.name
  | .bare op => op.name

end Instruction

end StackAssembler

import StackAssembler.Machine.Word

/-!
# Operations

What a mnemonic names: an opcode that is written by its own name, or one of the arithmetic
operations. `OPR` itself is no mnemonic.
-/

namespace StackAssembler

/-- What a mnemonic can name. -/
inductive Operation where
  | plain (op : Opcode)
  | arith (op : ArithOp)
  deriving DecidableEq, Repr

namespace Operation

def all : List Operation :=
  (Opcode.all.filter (· != .opr)).map .plain ++ ArithOp.all.map .arith

def mnemonic : Operation → String
  | .plain op => op.name
  | .arith op => op.name

/-- The operation with the given mnemonic, which is matched exactly. -/
def named? (s : String) : Option Operation := all.find? (·.mnemonic == s)

def opcode : Operation → Opcode
  | .plain op => op
  | .arith _ => .opr

/-- The code of an arithmetic operation, and zero for the others. -/
def subtype : Operation → UInt16
  | .plain _ => 0
  | .arith op => op.code

/-- What the operand field of the word gets, and so what is written behind the mnemonic. The table
is apart from the one that words are decoded by (`Opcode.shape`); `shape_plain` and `shape_arith` say
that they agree. -/
def shape : Operation → Shape
  | .plain .lit | .plain .lod | .plain .sto => .immediate
  | .plain .jmp | .plain .jpc | .plain .cal => .address
  | .plain .ret | .plain .inp | .plain .out => .empty
  | .arith _ | .plain .opr => .arithmetic

/-- Control never passes from the operation to the word after it. -/
def isUnconditionalJump : Operation → Bool
  | .plain .jmp => true
  | _ => false

/-- The word of an operation. The operand counts only where the operation takes one, and is zero
where it is missing. -/
def encode (op : Operation) (operand : Option UInt16) : Word :=
  match op.shape with
  | .immediate | .address => Word.pack op.opcode (operand.getD 0)
  | .arithmetic | .empty => Word.pack op.opcode op.subtype

@[simp] theorem shape_plain (op : Opcode) : (plain op).shape = op.shape := by cases op <;> rfl

@[simp] theorem shape_arith (op : ArithOp) : (arith op).shape = Opcode.opr.shape := rfl

theorem mem_all_of_named? {s : String} {op : Operation} (h : named? s = some op) : op ∈ all :=
  List.mem_of_find?_eq_some h

theorem mnemonic_of_named? {s : String} {op : Operation} (h : named? s = some op) :
    op.mnemonic = s := by
  simpa using List.find?_some h

end Operation

end StackAssembler

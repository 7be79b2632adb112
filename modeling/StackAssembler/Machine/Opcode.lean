/-!
# Opcodes

The ten opcodes of the stack machine and the thirteen arithmetic operations behind the opcode
`OPR`, with their codes and names.
-/

namespace StackAssembler

/-- An opcode. `opr` stands for all arithmetic, which its operand field tells apart. -/
inductive Opcode where
  | lit | opr | sto | cal | ret | jmp | jpc | inp | out | lod
  deriving DecidableEq, Repr

/-- An arithmetic operation, comparison or shift. -/
inductive ArithOp where
  | add | sub | mul | div | mod | eql | neq | lss | gte | gtr | lte | lsh | rsh
  deriving DecidableEq, Repr

/-- What the operand field of a word means. -/
inductive Shape where
  /-- A number. -/
  | immediate
  /-- The code of an arithmetic operation. -/
  | arithmetic
  /-- The address of a word. -/
  | address
  /-- Nothing: the field is zero. -/
  | empty
  deriving DecidableEq, Repr

namespace Opcode

/-- Every opcode, by ascending code. -/
def all : List Opcode := [.lit, .opr, .sto, .cal, .ret, .jmp, .jpc, .inp, .out, .lod]

/-- The number that stands for the opcode in the top four bits of a word. -/
def code : Opcode → UInt16
  | .lit => 1
  | .opr => 2
  | .sto => 3
  | .cal => 4
  | .ret => 5
  | .jmp => 6
  | .jpc => 7
  | .inp => 8
  | .out => 9
  | .lod => 10

def ofCode? (n : UInt16) : Option Opcode := all.find? (·.code == n)

def name : Opcode → String
  | .lit => "LIT"
  | .opr => "OPR"
  | .sto => "STO"
  | .cal => "CAL"
  | .ret => "RET"
  | .jmp => "JMP"
  | .jpc => "JPC"
  | .inp => "IN"
  | .out => "OUT"
  | .lod => "LOD"

def shape : Opcode → Shape
  | .lit | .lod | .sto => .immediate
  | .opr => .arithmetic
  | .cal | .jmp | .jpc => .address
  | .ret | .inp | .out => .empty

theorem mem_all (op : Opcode) : op ∈ all := by cases op <;> decide

theorem code_lt (op : Opcode) : 0 < op.code.toNat ∧ op.code.toNat < 16 := by
  cases op <;> decide

@[simp] theorem ofCode?_code (op : Opcode) : ofCode? op.code = some op := by cases op <;> rfl

theorem ofCode?_eq_some_iff {n : UInt16} {op : Opcode} : ofCode? n = some op ↔ op.code = n := by
  refine ⟨fun h => ?_, fun h => h ▸ ofCode?_code op⟩
  simpa using List.find?_some h

end Opcode

namespace ArithOp

/-- Every arithmetic operation, by ascending code. -/
def all : List ArithOp :=
  [.add, .sub, .mul, .div, .mod, .eql, .neq, .lss, .gte, .gtr, .lte, .lsh, .rsh]

/-- The number that stands for the operation in the operand field of `OPR`. -/
def code : ArithOp → UInt16
  | .add => 1
  | .sub => 2
  | .mul => 3
  | .div => 4
  | .mod => 5
  | .eql => 6
  | .neq => 7
  | .lss => 8
  | .gte => 9
  | .gtr => 10
  | .lte => 11
  | .lsh => 12
  | .rsh => 13

def ofCode? (n : UInt16) : Option ArithOp := all.find? (·.code == n)

def name : ArithOp → String
  | .add => "ADD"
  | .sub => "SUB"
  | .mul => "MUL"
  | .div => "DIV"
  | .mod => "MOD"
  | .eql => "EQL"
  | .neq => "NEQ"
  | .lss => "LSS"
  | .gte => "GTE"
  | .gtr => "GTR"
  | .lte => "LTE"
  | .lsh => "LSH"
  | .rsh => "RSH"

/-- The operation with the given name, which is matched exactly. -/
def named? (s : String) : Option ArithOp := all.find? (·.name == s)

theorem mem_all (op : ArithOp) : op ∈ all := by cases op <;> decide

theorem code_lt (op : ArithOp) : 0 < op.code.toNat ∧ op.code.toNat < 16 := by
  cases op <;> decide

@[simp] theorem ofCode?_code (op : ArithOp) : ofCode? op.code = some op := by cases op <;> rfl

theorem ofCode?_eq_some_iff {n : UInt16} {op : ArithOp} : ofCode? n = some op ↔ op.code = n := by
  refine ⟨fun h => ?_, fun h => h ▸ ofCode?_code op⟩
  simpa using List.find?_some h

end ArithOp

end StackAssembler

import StackAssembler.Machine.Opcode

/-!
# Words

A word of the machine has sixteen bits: an opcode in the top four and an operand field in the low
twelve. A word packed from an opcode and a field gives both back, the field modulo 4096.
-/

namespace StackAssembler

abbrev Word := UInt16

namespace Word

/-- The word with the given opcode and field. Bits of the value above the field are dropped. -/
def pack (op : Opcode) (value : UInt16) : Word := op.code * 4096 + value % 4096

/-- The low twelve bits of a word. -/
def field (w : Word) : UInt16 := w % 4096

/-- The top four bits of a word. -/
def opcodeBits (w : Word) : UInt16 := w / 4096

/-- The low byte of a word, then its high byte. -/
def bytes (w : Word) : List UInt8 := [w.toUInt8, (w / 256).toUInt8]

/-- The field that holds a literal: its remainder modulo 4096, which is never negative. -/
def literalField (value : Int) : UInt16 := UInt16.ofNat (value % 4096).toNat

/-- The field that holds an address: its remainder modulo 4096. -/
def addressField (address : Nat) : UInt16 := UInt16.ofNat (address % 4096)

theorem toNat_pack (op : Opcode) (value : UInt16) :
    (pack op value).toNat = op.code.toNat * 4096 + value.toNat % 4096 := by
  have := op.code_lt
  simp only [pack, UInt16.toNat_add, UInt16.toNat_mul, UInt16.toNat_mod, UInt16.reduceToNat]
  omega

@[simp] theorem opcodeBits_pack (op : Opcode) (value : UInt16) :
    opcodeBits (pack op value) = op.code := by
  apply UInt16.toNat_inj.1
  simp only [opcodeBits, UInt16.toNat_div, toNat_pack, UInt16.reduceToNat]
  omega

@[simp] theorem field_pack (op : Opcode) (value : UInt16) :
    field (pack op value) = value % 4096 := by
  apply UInt16.toNat_inj.1
  simp only [field, UInt16.toNat_mod, toNat_pack, UInt16.reduceToNat]
  omega

end Word

end StackAssembler

import StackAssembler.Source.Fault

/-!
# Label tables

The labels of a program in the order of their definition. A table holds at most as many labels as
its capacity allows, and a name is bound once.
-/

namespace StackAssembler

/-- A name bound to an address. -/
structure Label where
  name : String
  address : Nat
  deriving DecidableEq, Repr

/-- The labels defined so far, in the order of their definition. -/
structure LabelTable where
  capacity : Nat
  entries : List Label
  deriving DecidableEq, Repr

namespace LabelTable

def empty (capacity : Nat) : LabelTable := ⟨capacity, []⟩

def size (t : LabelTable) : Nat := t.entries.length

def find? (t : LabelTable) (name : String) : Option Nat :=
  (t.entries.find? (·.name == name)).map Label.address

/-- Bind a name. A bound name is a duplicate even when the table is full. -/
def define (t : LabelTable) (name : String) (address : Nat) : Except LineFault LabelTable :=
  if (t.find? name).isSome then .error (.duplicateLabel name)
  else if t.capacity ≤ t.size then .error (.labelTableFull t.capacity)
  else .ok { t with entries := t.entries ++ [⟨name, address⟩] }

/-- The address bound to a name, which has to be there. -/
def resolve (t : LabelTable) (name : String) : Except LineFault Nat :=
  match t.find? name with
  | some address => .ok address
  | none => .error (.undefinedLabel name)

@[simp] theorem size_empty (capacity : Nat) : (empty capacity).size = 0 := rfl

@[simp] theorem find?_empty (capacity : Nat) (name : String) : (empty capacity).find? name = none :=
  rfl

end LabelTable

end StackAssembler

import StackAssembler.Assembly.Image
import StackAssembler.SymbolMap.AddressMap

/-!
# Symbol maps

What a debugger wants to know of a program: how long it is, where its labels are, and which source
line each word came from.
-/

namespace StackAssembler

/-- The source line of the word at an address. -/
structure LineEntry where
  address : Nat
  line : Nat
  deriving DecidableEq, Repr

structure SymbolMap where
  words : Nat
  labels : AddressMap
  lines : List LineEntry
  deriving DecidableEq

def Image.symbols (image : Image) : SymbolMap where
  words := image.size
  labels := AddressMap.ofList image.labels.entries
  lines := image.cells.toList.zipIdx.map fun (cell, address) => ⟨address, cell.line⟩

end StackAssembler

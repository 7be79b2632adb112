import StackAssembler.Assembly.LabelTable
import StackAssembler.Machine.Word

/-!
# Program images

The result of an assembly: the words of a program, each with the line it came from, and the labels.
-/

namespace StackAssembler

/-- A word of a program and the number of the source line that it came from. -/
structure Cell where
  word : Word
  line : Nat
  deriving DecidableEq, Repr

/-- An assembled program. -/
structure Image where
  cells : Array Cell
  labels : LabelTable
  deriving DecidableEq, Repr

namespace Image

def size (image : Image) : Nat := image.cells.size

/-- The words in order of address. -/
def words (image : Image) : List Word := image.cells.toList.map Cell.word

/-- The source line of the word at an address. -/
def origin? (image : Image) (address : Nat) : Option Nat := image.cells[address]?.map Cell.line

/-- The words as bytes, the low byte of each word first. -/
def bytes (image : Image) : List UInt8 := image.words.flatMap Word.bytes

/-- The image with the source line of every word replaced. -/
def mapLines (f : Nat → Nat) (image : Image) : Image :=
  { image with cells := image.cells.map fun cell => { cell with line := f cell.line } }

@[simp] theorem size_mapLines (f : Nat → Nat) (image : Image) :
    (image.mapLines f).size = image.size := by
  simp [size, mapLines]

@[simp] theorem words_mapLines (f : Nat → Nat) (image : Image) :
    (image.mapLines f).words = image.words := by
  simp [words, mapLines]

@[simp] theorem origin?_mapLines (f : Nat → Nat) (image : Image) (address : Nat) :
    (image.mapLines f).origin? address = (image.origin? address).map f := by
  simp [origin?, mapLines, Function.comp_def]

end Image

end StackAssembler

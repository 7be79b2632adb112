import StackAssembler.Assembly.Image
import StackAssembler.Machine.Instruction

/-!
# Listings

A listing shows the program word by word, with the labels in front of the words they point at.
-/

namespace StackAssembler

open Text

namespace Listing

/-- The line of a label. -/
def labelLine (label : Label) : String := s!"{label.name}:\n"

/-- The text of a word, if it is an instruction. -/
def wordText (w : Word) : String :=
  match Instruction.ofWord w with
  | .ok instruction => instruction.render
  | .error _ => "???"

/-- The line of a word: its address, its value, its instruction and the line it came from. -/
def cellLine (address : Nat) (cell : Cell) : String :=
  let instruction := padRight 12 (wordText cell.word)
  s!"    {hex 3 address}  {hex 4 cell.word.toNat}  {instruction}; line {decimal cell.line}\n"

/-- The lines of a listing from an address on. The labels at the front that have this address come
before its word; labels that are left over come last. -/
def linesFrom (address : Nat) : List Cell → List Label → List String
  | [], labels => labels.map labelLine
  | cell :: cells, labels =>
    (labels.takeWhile (·.address == address)).map labelLine ++
      cellLine address cell ::
        linesFrom (address + 1) cells (labels.dropWhile (·.address == address))

end Listing

def Image.listing (image : Image) : String :=
  String.join (Listing.linesFrom 0 image.cells.toList image.labels.entries)

end StackAssembler

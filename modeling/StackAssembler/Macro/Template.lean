import StackAssembler.Text.Digit
import StackAssembler.Text.Numeral
import StackAssembler.Text.Token

/-!
# Templates

The code of a macro body is a template. A percent sign with the longest run of decimal digits after
it, of any script, is a placeholder; every other character stands for itself. Only the digits `0` to
`9` number an argument, and arguments are counted from one.
-/

namespace StackAssembler.Template

open Text

/-- A part of a template. -/
inductive Piece where
  | char (c : Char)
  | placeholder (digits : List Char)
  deriving DecidableEq, Repr

namespace Piece

/-- The text that a part was read from. -/
def source : Piece → List Char
  | .char c => [c]
  | .placeholder digits => '%' :: digits

/-- The digits of a placeholder. -/
def digits? : Piece → Option (List Char)
  | .char _ => none
  | .placeholder digits => some digits

/-- The text that a part stands for, given the arguments. A placeholder that numbers no argument
stands for nothing. -/
def fill (args : List String) : Piece → List Char
  | .char c => [c]
  | .placeholder digits =>
    match count? digits with
    | some (n + 1) => (args.getD n "").toList
    | _ => []

end Piece

/-- Read a template from its end: the run of digits that the text begins with, and the parts behind
that run. -/
def scan : List Char → List Char × List Piece
  | [] => ([], [])
  | c :: cs =>
    let (digits, rest) := scan cs
    if isScriptDigit c then (c :: digits, rest)
    else if c == '%' && !digits.isEmpty then ([], .placeholder digits :: rest)
    else ([], .char c :: (digits.map .char ++ rest))

/-- The parts of a template. -/
def pieces (cs : List Char) : List Piece :=
  let (digits, rest) := scan cs
  digits.map .char ++ rest

/-- The digits of the placeholders in the code of a line, in order. -/
def placeholders (line : String) : List (List Char) :=
  (pieces (splitComment line.toList).1).filterMap Piece.digits?

/-- The code of a line with its placeholders replaced, and the comment as it is. -/
def fill (args : List String) (line : String) : String :=
  let (code, comment) := splitComment line.toList
  String.ofList ((pieces code).flatMap (Piece.fill args) ++ comment)

private theorem flatMap_source_char (cs : List Char) :
    (cs.map Piece.char).flatMap Piece.source = cs := by
  induction cs with
  | nil => rfl
  | cons c cs ih => simp [Piece.source, ih]

private theorem scan_source (cs : List Char) :
    (scan cs).1 ++ (scan cs).2.flatMap Piece.source = cs := by
  induction cs with
  | nil => rfl
  | cons c cs ih =>
    simp only [scan]
    split
    · simp [ih]
    · split
      · next h => simp_all [Piece.source]
      · simp [Piece.source, flatMap_source_char, ih]

/-- The parts of a template are the whole template. -/
theorem flatMap_source_pieces (cs : List Char) : (pieces cs).flatMap Piece.source = cs := by
  simp [pieces, flatMap_source_char, scan_source]

end StackAssembler.Template

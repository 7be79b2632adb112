/-!
# Lines of a text

A line ends with a line feed, or with a carriage return and a line feed. What follows the last line
end is a line too unless it is empty, and a carriage return without a line feed is part of its line.
-/

namespace StackAssembler.Text

/-- The lines of a text, without their ends. -/
def lines : List Char → List (List Char)
  | [] => []
  | '\r' :: '\n' :: cs => [] :: lines cs
  | '\n' :: cs => [] :: lines cs
  | c :: cs =>
    match lines cs with
    | [] => [[c]]
    | l :: ls => (c :: l) :: ls

/-- The lines of a string. -/
def linesOf (s : String) : List String :=
  (lines s.toList).map String.ofList

/-- The texts with a line feed between each two of them and one at the end. No texts at all give a
single line feed. -/
def joinLines (ls : List String) : String :=
  String.ofList (List.intercalate ['\n'] (ls.map String.toList) ++ ['\n'])

@[simp] theorem lines_nil : lines [] = [] := rfl

@[simp] theorem lines_newline_cons (cs : List Char) : lines ('\n' :: cs) = [] :: lines cs := by
  simp [lines]

@[simp] theorem lines_return_newline_cons (cs : List Char) :
    lines ('\r' :: '\n' :: cs) = [] :: lines cs := by
  simp [lines]

end StackAssembler.Text

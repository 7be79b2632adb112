/-!
# Tokens and comments

A line of source is a sequence of tokens parted by gaps, which are spaces and tabs. A semicolon or a
number sign at the start of a token opens a comment that runs to the end of the line; inside a token
these characters are ordinary.
-/

namespace StackAssembler.Text

/-- A character between tokens. -/
def isGap (c : Char) : Bool := c == ' ' || c == '\t'

/-- A character that opens a comment when it stands at the start of a token. -/
def opensComment (c : Char) : Bool := c == ';' || c == '#'

/-- The non-empty pieces of a text between gaps. -/
def pieces (cs : List Char) : List (List Char) :=
  (cs.splitOnP isGap).filter (!·.isEmpty)

/-- The tokens of a line: its pieces up to the first that opens a comment. -/
def tokens (cs : List Char) : List (List Char) :=
  (pieces cs).takeWhile fun piece => !piece.head?.any opensComment

def tokensOf (s : String) : List String :=
  (tokens s.toList).map String.ofList

/-- Split a line before its comment. The flag says that the text begins where a token may start. -/
def splitCommentFrom : Bool → List Char → List Char × List Char
  | _, [] => ([], [])
  | start, c :: cs =>
    if start && opensComment c then ([], c :: cs)
    else
      let (code, comment) := splitCommentFrom (isGap c) cs
      (c :: code, comment)

/-- The code and the comment of a line. -/
def splitComment (cs : List Char) : List Char × List Char := splitCommentFrom true cs

/-- The two halves of a line are the whole line. -/
theorem splitCommentFrom_append (start : Bool) (cs : List Char) :
    (splitCommentFrom start cs).1 ++ (splitCommentFrom start cs).2 = cs := by
  induction cs generalizing start with
  | nil => rfl
  | cons c cs ih =>
    rw [splitCommentFrom]
    split
    · rfl
    · simp [ih]

theorem splitComment_append (cs : List Char) : (splitComment cs).1 ++ (splitComment cs).2 = cs :=
  splitCommentFrom_append true cs

end StackAssembler.Text

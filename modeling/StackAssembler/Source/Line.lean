import StackAssembler.Source.Fault
import StackAssembler.Text.Blank
import StackAssembler.Text.Lines
import StackAssembler.Text.Token

/-!
# Lines of source

A line of source defines a label, states an instruction, or says nothing. A label definition is a
single token that ends in a colon and holds no other; any other line with a token is an instruction,
whose mnemonic, argument and superfluous token are kept as they are written.
-/

namespace StackAssembler

open Text

/-- An instruction as it is written: its mnemonic and up to two tokens after it. -/
structure Statement where
  mnemonic : String
  argument : Option String
  extra : Option String
  deriving DecidableEq, Repr

inductive Line where
  | label (name : String)
  | instruction (statement : Statement)
  | ignorable
  deriving DecidableEq, Repr

/-- The name that a token defines as a label: the token ends in a colon, and what is before the
colon is not empty and holds no colon. -/
def labelName? (token : List Char) : Option (List Char) :=
  match token.getLast? with
  | some ':' =>
    let name := token.dropLast
    if !name.isEmpty && !name.contains ':' then some name else none
  | _ => none

namespace Line

/-- What a line with the given tokens says. The trimmed text is quoted where a label definition is
malformed. -/
def ofTokens (text : List Char) : List (List Char) → Except LineFault Line
  | [] => .ok .ignorable
  | first :: rest =>
    if first.getLast? = some ':' then
      match labelName? first, rest with
      | some name, [] => .ok (.label (String.ofList name))
      | _, _ => .error (.malformedLabel (String.ofList (trim text)))
    else
      .ok (.instruction
        { mnemonic := String.ofList first
          argument := rest.head?.map String.ofList
          extra := rest.tail.head?.map String.ofList })

def classify (text : String) : Except LineFault Line :=
  ofTokens text.toList (tokens text.toList)

end Line

/-- A line of source with its number. Lines are counted from one. -/
structure SourceLine where
  number : Nat
  text : String
  deriving DecidableEq, Repr

namespace SourceLine

def locate {α : Type} (l : SourceLine) : Except LineFault α → Except AssemblyError α
  | .ok a => .ok a
  | .error fault => .error (.atLine l.number fault)

def classify (l : SourceLine) : Except AssemblyError Line := l.locate (Line.classify l.text)

end SourceLine

/-- Number texts in order, beginning with the given number. -/
def numberFrom : Nat → List String → List SourceLine
  | _, [] => []
  | n, text :: texts => ⟨n, text⟩ :: numberFrom (n + 1) texts

/-- The numbered lines of a source. -/
def sourceLines (source : String) : List SourceLine := numberFrom 1 (linesOf source)

@[simp] theorem length_numberFrom (n : Nat) (texts : List String) :
    (numberFrom n texts).length = texts.length := by
  induction texts generalizing n with
  | nil => rfl
  | cons text texts ih => simp [numberFrom, ih]

theorem numberFrom_append (n : Nat) (as bs : List String) :
    numberFrom n (as ++ bs) = numberFrom n as ++ numberFrom (n + as.length) bs := by
  induction as generalizing n with
  | nil => rfl
  | cons a as ih => simp [numberFrom, ih, Nat.add_comm, Nat.add_left_comm]

end StackAssembler

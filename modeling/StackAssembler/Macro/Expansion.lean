import StackAssembler.Macro.Table
import StackAssembler.Source.Line

/-!
# Expansion of a source

Macro definitions stand between the lines `%macro NAME ARITY` and `%endmacro`. Expanding a source
drops them and replaces every line outside by its expansion with the macros completed before it.
Every line of the expanded text remembers the line of the source that it came from.
-/

namespace StackAssembler

open Text

/-- A macro definition that is not complete yet, and the number of its header line. -/
structure OpenMacro where
  line : Nat
  name : String
  arity : Nat
  body : Array String
  deriving DecidableEq, Repr

namespace OpenMacro

/-- Read a header line: a name and a number of arguments behind the directive, and nothing else. -/
def ofHeader? (l : SourceLine) : Option OpenMacro :=
  match tokens l.text.toList with
  | [_, name, arity] => (count? arity).map fun n => ⟨l.number, String.ofList name, n, #[]⟩
  | _ => none

/-- The completed macro. -/
def close (m : OpenMacro) : Macro := ⟨m.name, m.arity, m.body.toList⟩

end OpenMacro

/-- What a line is to the expansion of a source. -/
inductive Directive where
  | begins
  | ends
  | plain
  deriving DecidableEq, Repr

/-- The directive of a line, which its first token tells. -/
def Directive.ofText (text : String) : Directive :=
  match (tokensOf text).head? with
  | some first =>
    if first = "%macro" then .begins else if first = "%endmacro" then .ends else .plain
  | none => .plain

/-- The state of an expansion: the macros so far, the definition that is open, and the lines emitted
so far under the numbers of the lines they came from. -/
structure Expander where
  table : MacroTable
  pending : Option OpenMacro
  emitted : Array SourceLine
  deriving DecidableEq, Repr

namespace Expander

def start : Expander := ⟨MacroTable.empty, none, #[]⟩

def step (x : Expander) (l : SourceLine) : Except MacroError Expander :=
  match Directive.ofText l.text, x.pending with
  | .begins, some _ => .error ⟨l.number, .nested⟩
  | .begins, none =>
    match OpenMacro.ofHeader? l with
    | none => .error ⟨l.number, .badHeader (String.ofList (trim l.text.toList))⟩
    | some m => .ok { x with pending := some m }
  | .ends, none => .error ⟨l.number, .strayEnd⟩
  | .ends, some m =>
    match x.table.define m.close with
    | .error fault => .error ⟨m.line, fault⟩
    | .ok table => .ok { x with table := table, pending := none }
  | .plain, some m => .ok { x with pending := some { m with body := m.body.push l.text } }
  | .plain, none =>
    match x.table.expandLine maxExpansionDepth l.text with
    | .error fault => .error ⟨l.number, fault⟩
    | .ok texts => .ok { x with emitted := x.emitted ++ texts.map (SourceLine.mk l.number) }

def stepAll (x : Expander) (ls : List SourceLine) : Except MacroError Expander := ls.foldlM step x

@[simp] theorem stepAll_nil (x : Expander) : x.stepAll [] = .ok x := rfl

@[simp] theorem stepAll_cons (x : Expander) (l : SourceLine) (ls : List SourceLine) :
    x.stepAll (l :: ls) = x.step l >>= fun next => next.stepAll ls := rfl

theorem stepAll_append (x : Expander) (ls ms : List SourceLine) :
    x.stepAll (ls ++ ms) = x.stepAll ls >>= fun next => next.stepAll ms := List.foldlM_append

end Expander

/-- An expanded source: its lines, each under the number of the line it came from. -/
structure Expansion where
  lines : Array SourceLine
  deriving DecidableEq, Repr

namespace Expansion

/-- The text of an expansion. An expansion without lines is a single empty line. -/
def text (x : Expansion) : String := joinLines (x.lines.toList.map SourceLine.text)

/-- The source line that a line of the expanded text came from. A number outside the text stays as
it is. -/
def origin (x : Expansion) (line : Nat) : Nat :=
  match line with
  | 0 => 0
  | n + 1 => (x.lines[n]?.map SourceLine.number).getD (n + 1)

end Expansion

/-- What is left of a source when its last line has been read. -/
def Expander.finish (x : Expander) : Except MacroError Expansion :=
  match x.pending with
  | some m => .error ⟨m.line, .unterminated m.name⟩
  | none => .ok ⟨x.emitted⟩

/-- Expand the macros of a source. -/
def expand (source : String) : Except MacroError Expansion :=
  Expander.start.stepAll (sourceLines source) >>= Expander.finish

end StackAssembler

import StackAssembler.Macro.Fault
import StackAssembler.Macro.Template

/-!
# Macro tables

Macros by name, and the expansion of a line with the macros of a table. A line whose first token
names a macro is replaced by the body of the macro, filled in with the arguments on the line, and
the lines of the body are expanded in turn. A depth bounds the nesting, so that expansion ends
whatever the macros say.
-/

namespace StackAssembler

open Text

/-- A macro: the lines of its body hold placeholders for its arguments. -/
structure Macro where
  name : String
  arity : Nat
  body : List String
  deriving DecidableEq, Repr

namespace Macro

/-- Do these digits number an argument of the macro? -/
def hasArgument (m : Macro) (digits : List Char) : Bool :=
  (count? digits).any fun n => 1 ≤ n && n ≤ m.arity

/-- The first placeholder of the body that numbers no argument. -/
def strayPlaceholder? (m : Macro) : Option (List Char) :=
  (m.body.flatMap Template.placeholders).find? fun digits => !m.hasArgument digits

/-- The body filled in with arguments. -/
def instantiate (m : Macro) (args : List String) : List String := m.body.map (Template.fill args)

end Macro

/-- The macros defined so far. -/
structure MacroTable where
  macros : List Macro
  deriving DecidableEq, Repr

namespace MacroTable

/-- A table without macros. -/
def empty : MacroTable := ⟨[]⟩

/-- The number of macros. -/
def size (t : MacroTable) : Nat := t.macros.length

/-- The macro with the given name. -/
def find? (t : MacroTable) (name : String) : Option Macro := t.macros.find? (·.name == name)

@[simp] theorem find?_empty (name : String) : empty.find? name = none := rfl

/-- Add a macro. Its placeholders are looked at before its name. -/
def define (t : MacroTable) (m : Macro) : Except MacroFault MacroTable :=
  match m.strayPlaceholder? with
  | some digits => .error (.placeholder m.name (String.ofList digits))
  | none =>
    if (t.find? m.name).isSome then .error (.duplicate m.name) else .ok ⟨m :: t.macros⟩

/-- The arguments that tokens hold: their non-empty pieces between commas. -/
def arguments (tokens : List (List Char)) : List String :=
  ((tokens.flatMap fun token => token.splitOn ',').filter (!·.isEmpty)).map String.ofList

/-- The macro that a line invokes, and the arguments on the line. -/
def invocation? (t : MacroTable) (text : String) : Option (Macro × List String) :=
  match tokens text.toList with
  | [] => none
  | first :: rest => (t.find? (String.ofList first)).map fun m => (m, arguments rest)

/-- Expand a line, with invocations nested at most to the given depth. The depth is looked at before
the number of arguments. -/
def expandLine (t : MacroTable) : Nat → String → Except MacroFault (List String)
  | 0, text =>
    match t.invocation? text with
    | none => .ok [text]
    | some _ => .error .tooDeep
  | depth + 1, text =>
    match t.invocation? text with
    | none => .ok [text]
    | some (m, args) =>
      if args.length = m.arity then
        (m.instantiate args).mapM (t.expandLine depth) |>.map List.flatten
      else .error (.arity m.name m.arity args.length)

end MacroTable

end StackAssembler

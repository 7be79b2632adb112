import StackAssembler.Text.Numeral

/-!
# Faults of macros

What can be wrong with a macro definition or an invocation, and the messages that report it.
-/

namespace StackAssembler

open Text

/-- How deep invocations may be nested. -/
def maxExpansionDepth : Nat := 16

/-- What can be wrong with macros. -/
inductive MacroFault where
  | badHeader (text : String)
  | duplicate (name : String)
  | nested
  | unterminated (name : String)
  | strayEnd
  | arity (name : String) (expected found : Nat)
  | placeholder (name index : String)
  | tooDeep
  deriving DecidableEq, Repr

/-- A fault of macros and the line it is reported at. -/
structure MacroError where
  line : Nat
  fault : MacroFault
  deriving DecidableEq, Repr

def MacroFault.message : MacroFault → String
  | .badHeader text => s!"expected `%macro NAME ARITY`, found `{text}`"
  | .duplicate name => s!"macro `{name}` is already defined"
  | .nested => "macro definitions cannot be nested"
  | .unterminated name => s!"macro `{name}` is missing `%endmacro`"
  | .strayEnd => "`%endmacro` without `%macro`"
  | .arity name expected found =>
    s!"macro `{name}` takes {decimal expected} arguments, got {decimal found}"
  | .placeholder name index => s!"placeholder `%{index}` is out of range for macro `{name}`"
  | .tooDeep => s!"macro expansion nested deeper than {decimal maxExpansionDepth}"

def MacroError.message (e : MacroError) : String := s!"line {decimal e.line}: {e.fault.message}"

end StackAssembler

import StackAssembler.Text.Numeral

/-!
# Faults of a source text

What can be wrong with a line of source or with the request to assemble one, and the messages that
report it. A fault of a line does not know where the line stands: `AssemblyError` adds its number.
-/

namespace StackAssembler

open Text

/-- What can be wrong with one line. -/
inductive LineFault where
  | unknownMnemonic (mnemonic : String)
  | missingOperand (mnemonic : String)
  | unexpectedOperand (mnemonic operand : String)
  | invalidLiteral (mnemonic literal : String)
  | undefinedLabel (name : String)
  | duplicateLabel (name : String)
  | malformedLabel (text : String)
  | labelTableFull (capacity : Nat)
  | imageFull (maxWords : Nat)
  deriving DecidableEq, Repr

/-- What can be wrong before the first line is read. -/
inductive RequestFault where
  | noRoomForWords
  | noRoomForLabels
  | emptySource
  deriving DecidableEq, Repr

/-- Why a source could not be assembled. -/
inductive AssemblyError where
  | invalidInput (fault : RequestFault)
  | atLine (line : Nat) (fault : LineFault)
  deriving DecidableEq, Repr

def LineFault.message : LineFault → String
  | .unknownMnemonic mnemonic => s!"unknown mnemonic `{mnemonic}`"
  | .missingOperand mnemonic => s!"`{mnemonic}` requires an operand"
  | .unexpectedOperand mnemonic operand => s!"`{mnemonic}` does not take operand `{operand}`"
  | .invalidLiteral mnemonic literal =>
    s!"`{literal}` is not a decimal literal for `{mnemonic}`"
  | .undefinedLabel name => s!"undefined label `{name}`"
  | .duplicateLabel name => s!"label `{name}` is already defined"
  | .malformedLabel text => s!"malformed label definition `{text}`"
  | .labelTableFull capacity => s!"label table is full ({decimal capacity} labels)"
  | .imageFull maxWords => s!"output would exceed {decimal maxWords} words"

def RequestFault.message : RequestFault → String
  | .noRoomForWords => "output capacity must be positive"
  | .noRoomForLabels => "label capacity must be positive"
  | .emptySource => "empty source"

namespace AssemblyError

def message : AssemblyError → String
  | .invalidInput fault => s!"invalid input: {fault.message}"
  | .atLine line fault => s!"line {decimal line}: {fault.message}"

/-- The line that an error was found on, if it has one. -/
def line? : AssemblyError → Option Nat
  | .invalidInput _ => none
  | .atLine line _ => some line

/-- The error with its line number replaced. -/
def mapLine (f : Nat → Nat) : AssemblyError → AssemblyError
  | .invalidInput fault => .invalidInput fault
  | .atLine line fault => .atLine (f line) fault

@[simp] theorem line?_mapLine (f : Nat → Nat) (e : AssemblyError) :
    (e.mapLine f).line? = e.line?.map f := by
  cases e <;> rfl

end AssemblyError

end StackAssembler

import StackAssembler.Json.Token
import StackAssembler.SymbolMap.Basic

/-!
# Text of a symbol map

A symbol map is written as compact JSON, with its fields in a fixed order and its labels in the
order of their names.
-/

namespace StackAssembler

open Json

namespace SymbolMap

def numberToken (n : Nat) : Token := .number (Nat.toDigits 10 n)

def nameToken (s : String) : Token := .string (unitsOf s)

/-- Groups of tokens with commas between them. -/
def separated : List (List Token) → List Token
  | [] => []
  | [group] => group
  | group :: groups => group ++ .comma :: separated groups

/-- A key of an object, with the value behind it. -/
def member (key : String) (value : List Token) : List Token := nameToken key :: .colon :: value

def object (members : List (List Token)) : List Token :=
  .openBrace :: (separated members ++ [.closeBrace])

def array (elements : List (List Token)) : List Token :=
  .openBracket :: (separated elements ++ [.closeBracket])

def labelTokens (label : Label) : List Token := member label.name [numberToken label.address]

def lineTokens (entry : LineEntry) : List Token :=
  object [member "address" [numberToken entry.address],
    member "line_number" [numberToken entry.line]]

def toTokens (m : SymbolMap) : List Token :=
  object [member "words" [numberToken m.words],
    member "labels" (object (m.labels.entries.map labelTokens)),
    member "lines" (array (m.lines.map lineTokens))]

def render (m : SymbolMap) : String := Json.render m.toTokens

end SymbolMap

end StackAssembler

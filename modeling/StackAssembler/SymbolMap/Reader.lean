import StackAssembler.Json.Skip
import StackAssembler.SymbolMap.Basic
import StackAssembler.Text.Numeral

/-!
# Reading a symbol map

A symbol map is read from strict JSON. Records are objects with their fields in any order, or arrays
of exactly their fields. A field of an object may come once and has to be there; members with other
keys are passed over. Of two labels with one name the last counts. Numbers are counts, written
without sign, fraction or exponent.
-/

namespace StackAssembler

open Json Text

namespace SymbolMap

/-- Something that takes tokens and returns a value with the tokens that are left. -/
abbrev Reader (α : Type) := List Token → Option (α × List Token)

/-- Take one given token. -/
def expect (t : Token) : List Token → Option (List Token)
  | [] => none
  | u :: ts => if u = t then some ts else none

def readCount : Reader Nat
  | .number text :: ts => ((natural? text).filter (· < countLimit)).map (·, ts)
  | _ => none

def readName : Reader String
  | .string units :: ts => (decodeUnits units).map (String.ofList ·, ts)
  | _ => none

/-! ### Arrays and objects -/

/-- Read elements up to the end of an array. The fuel bounds the number of elements. -/
def readElements {α : Type} (element : Reader α) : Nat → Reader (List α)
  | 0, _ => none
  | fuel + 1, ts => do
    let (a, ts) ← element ts
    match ts with
    | .closeBracket :: ts => return ([a], ts)
    | .comma :: ts =>
      let (as, ts) ← readElements element fuel ts
      return (a :: as, ts)
    | _ => none

def readArray {α : Type} (element : Reader α) : Reader (List α)
  | .openBracket :: .closeBracket :: ts => some ([], ts)
  | .openBracket :: ts => readElements element ts.length ts
  | _ => none

/-- Read members up to the end of an object. What is known of the object changes with each member,
by its key. The fuel bounds the number of members. -/
def readMembers {σ : Type} (field : String → σ → Reader σ) : Nat → σ → Reader σ
  | 0, _, _ => none
  | fuel + 1, known, ts => do
    let (key, ts) ← readName ts
    let ts ← expect .colon ts
    let (known, ts) ← field key known ts
    match ts with
    | .closeBrace :: ts => return (known, ts)
    | .comma :: ts => readMembers field fuel known ts
    | _ => none

/-- Read an object, beginning with what is known of it. -/
def readObject {σ : Type} (field : String → σ → Reader σ) (known : σ) : Reader σ
  | .openBrace :: .closeBrace :: ts => some (known, ts)
  | .openBrace :: ts => readMembers field ts.length known ts
  | _ => none

/-- Read a field that is not known yet. -/
def readOnce {α : Type} (known : Option α) (value : Reader α) : Reader α :=
  fun ts => if known.isSome then none else value ts

/-! ### Line entries -/

structure LineFields where
  address : Option Nat := none
  line : Option Nat := none

/-- Read a member of a line entry. -/
def readLineField (key : String) (known : LineFields) : Reader LineFields := fun ts =>
  if key = "address" then
    (readOnce known.address readCount ts).map fun (n, ts) => ({ known with address := some n }, ts)
  else if key = "line_number" then
    (readOnce known.line readCount ts).map fun (n, ts) => ({ known with line := some n }, ts)
  else (skipValue ts).map (known, ·)

/-- The line entry with the given fields, if none is missing. -/
def LineFields.complete (known : LineFields) : Option LineEntry := do
  return ⟨← known.address, ← known.line⟩

def readLine : Reader LineEntry
  | .openBracket :: ts => do
    let (address, ts) ← readCount ts
    let ts ← expect .comma ts
    let (line, ts) ← readCount ts
    let ts ← expect .closeBracket ts
    return (⟨address, line⟩, ts)
  | ts => do
    let (known, ts) ← readObject readLineField {} ts
    return (← known.complete, ts)

/-! ### Symbol maps -/

def readLabels : Reader AddressMap :=
  readObject
    (fun key labels ts => (readCount ts).map fun (n, ts) => (labels.insert ⟨key, n⟩, ts))
    AddressMap.empty

structure Fields where
  words : Option Nat := none
  labels : Option AddressMap := none
  lines : Option (List LineEntry) := none

/-- Read a member of a symbol map. -/
def readField (key : String) (known : Fields) : Reader Fields := fun ts =>
  if key = "words" then
    (readOnce known.words readCount ts).map fun (n, ts) => ({ known with words := some n }, ts)
  else if key = "labels" then
    (readOnce known.labels readLabels ts).map fun (m, ts) => ({ known with labels := some m }, ts)
  else if key = "lines" then
    (readOnce known.lines (readArray readLine) ts).map fun (ls, ts) =>
      ({ known with lines := some ls }, ts)
  else (skipValue ts).map (known, ·)

/-- The symbol map with the given fields, if none is missing. -/
def Fields.complete (known : Fields) : Option SymbolMap := do
  return ⟨← known.words, ← known.labels, ← known.lines⟩

/-- Read a symbol map from tokens. -/
def ofTokens : Reader SymbolMap
  | .openBracket :: ts => do
    let (words, ts) ← readCount ts
    let ts ← expect .comma ts
    let (labels, ts) ← readLabels ts
    let ts ← expect .comma ts
    let (lines, ts) ← readArray readLine ts
    let ts ← expect .closeBracket ts
    return (⟨words, labels, lines⟩, ts)
  | ts => do
    let (known, ts) ← readObject readField {} ts
    return (← known.complete, ts)

/-- Read a symbol map from a text that holds nothing else. -/
def parse? (text : String) : Option SymbolMap := do
  let ts ← tokens? text.toList
  match ← ofTokens ts with
  | (m, []) => return m
  | _ => none

end SymbolMap

end StackAssembler

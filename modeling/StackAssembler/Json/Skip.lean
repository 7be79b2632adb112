import StackAssembler.Json.Token

/-!
# Values of no interest

Passing over a JSON value of any depth. One token is taken at a time, and a stack remembers the
arrays and objects that are open.
-/

namespace StackAssembler.Json

/-- What is open around a value. -/
inductive Container where
  | array
  | object
  deriving DecidableEq, Repr

/-- What may come next. -/
inductive Expect where
  /-- A value. -/
  | value
  /-- A value, or the end of the array that was just opened. -/
  | firstElement
  /-- A key. -/
  | key
  /-- A key, or the end of the object that was just opened. -/
  | firstKey
  /-- The colon behind a key. -/
  | colon
  /-- A comma, or the end of the innermost container. -/
  | next
  deriving DecidableEq, Repr

/-- Take the first token of a value: the containers that are open behind it, and what may come next.
-/
def beginValue (stack : List Container) : Token → Option (Expect × List Container)
  | .openBracket => some (.firstElement, .array :: stack)
  | .openBrace => some (.firstKey, .object :: stack)
  | .null | .bool _ | .number _ | .string _ => some (.next, stack)
  | _ => none

/-- Take a token inside of a value. -/
def takeToken (expect : Expect) (stack : List Container) (t : Token) :
    Option (Expect × List Container) :=
  match expect, stack, t with
  | .value, stack, t => beginValue stack t
  | .firstElement, _ :: stack, .closeBracket => some (.next, stack)
  | .firstElement, stack, t => beginValue stack t
  | .firstKey, _ :: stack, .closeBrace => some (.next, stack)
  | .firstKey, stack, .string _ => some (.colon, stack)
  | .key, stack, .string _ => some (.colon, stack)
  | .colon, stack, .colon => some (.value, stack)
  | .next, .array :: stack, .comma => some (.value, .array :: stack)
  | .next, .array :: stack, .closeBracket => some (.next, stack)
  | .next, .object :: stack, .comma => some (.key, .object :: stack)
  | .next, .object :: stack, .closeBrace => some (.next, stack)
  | _, _, _ => none

/-- Take tokens until the value is complete, and return what follows it. -/
def skipFrom : Expect → List Container → List Token → Option (List Token)
  | .next, [], ts => some ts
  | _, _, [] => none
  | expect, stack, t :: ts =>
    match takeToken expect stack t with
    | none => none
    | some (expect, stack) => skipFrom expect stack ts

def skipValue (ts : List Token) : Option (List Token) := skipFrom .value [] ts

end StackAssembler.Json

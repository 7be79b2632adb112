import StackAssembler.Json.Text

/-!
# JSON tokens

The tokens of strict JSON and their compact text. Reading drops the white space between tokens; a
number is kept as it is written.
-/

namespace StackAssembler.Json

inductive Token where
  | openBrace
  | closeBrace
  | openBracket
  | closeBracket
  | comma
  | colon
  | null
  | bool (b : Bool)
  | number (text : List Char)
  | string (units : List StringUnit)
  deriving DecidableEq, Repr

/-! ### Writing -/

def Token.render : Token → List Char
  | .openBrace => ['{']
  | .closeBrace => ['}']
  | .openBracket => ['[']
  | .closeBracket => [']']
  | .comma => [',']
  | .colon => [':']
  | .null => ['n', 'u', 'l', 'l']
  | .bool true => ['t', 'r', 'u', 'e']
  | .bool false => ['f', 'a', 'l', 's', 'e']
  | .number text => text
  | .string units => '"' :: (units.flatMap StringUnit.render ++ ['"'])

def render (ts : List Token) : String := String.ofList (ts.flatMap Token.render)

/-! ### Reading -/

/-- White space between tokens. -/
def isSpace (c : Char) : Bool := c == ' ' || c == '\t' || c == '\n' || c == '\r'

/-- One or more digits, and what follows them. -/
def scanDigits (cs : List Char) : Option (List Char × List Char) :=
  let digits := cs.takeWhile Char.isDigit
  if digits.isEmpty then none else some (digits, cs.dropWhile Char.isDigit)

/-- The whole part of a number: a zero alone, or digits that do not begin with zero. -/
def scanWhole : List Char → Option (List Char × List Char)
  | '0' :: rest => some (['0'], rest)
  | cs => scanDigits cs

/-- The fraction of a number, if there is one. -/
def scanFraction : List Char → Option (List Char × List Char)
  | '.' :: rest => (scanDigits rest).map fun (digits, rest) => ('.' :: digits, rest)
  | cs => some ([], cs)

/-- The exponent of a number, if there is one. -/
def scanExponent : List Char → Option (List Char × List Char)
  | [] => some ([], [])
  | c :: rest =>
    if c == 'e' || c == 'E' then
      match rest with
      | '+' :: rest => (scanDigits rest).map fun (digits, rest) => (c :: '+' :: digits, rest)
      | '-' :: rest => (scanDigits rest).map fun (digits, rest) => (c :: '-' :: digits, rest)
      | rest => (scanDigits rest).map fun (digits, rest) => (c :: digits, rest)
    else some ([], c :: rest)

/-- The text of a number, and what follows it. -/
def scanNumber (cs : List Char) : Option (List Char × List Char) := do
  let (sign, cs) := match cs with
    | '-' :: rest => (['-'], rest)
    | cs => ([], cs)
  let (whole, cs) ← scanWhole cs
  let (fraction, cs) ← scanFraction cs
  let (power, cs) ← scanExponent cs
  return (sign ++ (whole ++ (fraction ++ power)), cs)

/-- The first token of a text that does not begin with white space, and what follows it. -/
def next? : List Char → Option (Token × List Char)
  | '{' :: rest => some (.openBrace, rest)
  | '}' :: rest => some (.closeBrace, rest)
  | '[' :: rest => some (.openBracket, rest)
  | ']' :: rest => some (.closeBracket, rest)
  | ',' :: rest => some (.comma, rest)
  | ':' :: rest => some (.colon, rest)
  | '"' :: rest => (scanString rest).map fun (units, rest) => (.string units, rest)
  | 'n' :: 'u' :: 'l' :: 'l' :: rest => some (.null, rest)
  | 't' :: 'r' :: 'u' :: 'e' :: rest => some (.bool true, rest)
  | 'f' :: 'a' :: 'l' :: 's' :: 'e' :: rest => some (.bool false, rest)
  | cs => (scanNumber cs).map fun (text, rest) => (.number text, rest)

theorem append_of_scanDigits {cs digits rest : List Char}
    (h : scanDigits cs = some (digits, rest)) : digits ++ rest = cs ∧ digits ≠ [] := by
  simp only [scanDigits, List.isEmpty_iff] at h
  split at h
  · cases h
  · next hd =>
    cases h
    exact ⟨List.takeWhile_append_dropWhile, hd⟩

theorem append_of_scanWhole {cs digits rest : List Char}
    (h : scanWhole cs = some (digits, rest)) : digits ++ rest = cs ∧ digits ≠ [] := by
  unfold scanWhole at h
  split at h
  · cases h
    exact ⟨rfl, by simp⟩
  · exact append_of_scanDigits h

theorem append_of_scanFraction {cs text rest : List Char}
    (h : scanFraction cs = some (text, rest)) : text ++ rest = cs := by
  unfold scanFraction at h
  split at h
  · obtain ⟨⟨digits, tail⟩, hd, he⟩ := Option.map_eq_some_iff.1 h
    cases he
    simp [(append_of_scanDigits hd).1]
  · cases h
    rfl

theorem append_of_scanExponent {cs text rest : List Char}
    (h : scanExponent cs = some (text, rest)) : text ++ rest = cs := by
  unfold scanExponent at h
  split at h
  · cases h
    rfl
  · split at h
    · split at h <;>
      · obtain ⟨⟨digits, tail⟩, hd, he⟩ := Option.map_eq_some_iff.1 h
        cases he
        simp [(append_of_scanDigits hd).1]
    · cases h
      rfl

/-- A number is not empty, and is what stands before the rest. -/
theorem append_of_scanNumber {cs text rest : List Char}
    (h : scanNumber cs = some (text, rest)) : text ++ rest = cs ∧ text ≠ [] := by
  simp only [scanNumber, Option.bind_eq_bind, Option.bind_eq_some_iff, Option.pure_def,
    Option.some.injEq, Prod.exists, Prod.mk.injEq] at h
  obtain ⟨whole, r₁, hw, fraction, r₂, hf, power, r₃, hp, rfl, rfl⟩ := h
  obtain ⟨hw, hne⟩ := append_of_scanWhole hw
  have hf := append_of_scanFraction hf
  have hp := append_of_scanExponent hp
  subst hp hf
  refine ⟨?_, by simp [hne]⟩
  revert hw
  split <;> intro hw <;> simp_all

theorem length_of_next? {cs rest : List Char} {t : Token} (h : next? cs = some (t, rest)) :
    rest.length < cs.length := by
  unfold next? at h
  split at h
  case h_7 =>
    obtain ⟨⟨units, tail⟩, hs, he⟩ := Option.map_eq_some_iff.1 h
    cases he
    have := length_of_scanString hs
    simp only [List.length_cons]
    omega
  case h_11 =>
    obtain ⟨⟨text, tail⟩, hs, he⟩ := Option.map_eq_some_iff.1 h
    cases he
    obtain ⟨rfl, hne⟩ := append_of_scanNumber hs
    have := List.length_pos_iff.2 hne
    simp only [List.length_append]
    omega
  all_goals
    cases h
    simp only [List.length_cons]
    omega

def tokens? : List Char → Option (List Token)
  | [] => some []
  | c :: cs =>
    if isSpace c then tokens? cs
    else
      match _h : next? (c :: cs) with
      | none => none
      | some (t, rest) => (tokens? rest).map (t :: ·)
termination_by cs => cs.length
decreasing_by
  · simp
  · exact length_of_next? _h

end StackAssembler.Json

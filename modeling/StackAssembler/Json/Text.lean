/-!
# JSON strings

The text between the quotes of a JSON string. It is read in two steps: escapes are recognised one by
one, and then the code units written as `\u` escapes are put together to characters. Text that is
only skipped needs the first step alone, so there a surrogate may stand by itself.
-/

namespace StackAssembler.Json

/-- A character of a string, or a code unit written as four hexadecimal digits. -/
inductive StringUnit where
  | char (c : Char)
  | code (n : Nat)
  deriving DecidableEq, Repr

/-! ### Writing -/

/-- The lower-case hexadecimal digits of a code unit. -/
def codeDigits (n : Nat) : List Char := (Nat.toDigits 16 n).leftpad 4 '0'

/-- A character inside quotes. -/
def escape (c : Char) : List Char :=
  match c with
  | '"' => ['\\', '"']
  | '\\' => ['\\', '\\']
  | '\x08' => ['\\', 'b']
  | '\x0C' => ['\\', 'f']
  | '\n' => ['\\', 'n']
  | '\r' => ['\\', 'r']
  | '\t' => ['\\', 't']
  | c => [c]

namespace StringUnit

/-- The unit inside quotes. -/
def render : StringUnit → List Char
  | .char c => escape c
  | .code n => '\\' :: 'u' :: codeDigits n

/-- The unit that a character is written as. A control character without an escape of its own is
written by its code. -/
def ofChar (c : Char) : StringUnit :=
  if c.toNat < 0x20 && (escape c).length == 1 then .code c.toNat else .char c

end StringUnit

def unitsOf (s : String) : List StringUnit := s.toList.map StringUnit.ofChar

/-! ### Reading -/

/-- The value of a hexadecimal digit. -/
def hexValue? (c : Char) : Option Nat :=
  if '0' ≤ c ∧ c ≤ '9' then some (c.toNat - '0'.toNat)
  else if 'a' ≤ c ∧ c ≤ 'f' then some (c.toNat - 'a'.toNat + 10)
  else if 'A' ≤ c ∧ c ≤ 'F' then some (c.toNat - 'A'.toNat + 10)
  else none

/-- The code unit of four hexadecimal digits. -/
def codeValue? (a b c d : Char) : Option Nat := do
  return (((← hexValue? a) * 16 + (← hexValue? b)) * 16 + (← hexValue? c)) * 16 + (← hexValue? d)

/-- The character that a letter behind a backslash stands for. -/
def unescape? : Char → Option Char
  | '"' => some '"'
  | '\\' => some '\\'
  | '/' => some '/'
  | 'b' => some '\x08'
  | 'f' => some '\x0C'
  | 'n' => some '\n'
  | 'r' => some '\r'
  | 't' => some '\t'
  | _ => none

/-- Read a string up to its closing quote. Control characters have to be escaped. -/
def scanString : List Char → Option (List StringUnit × List Char)
  | [] => none
  | '"' :: rest => some ([], rest)
  | '\\' :: 'u' :: a :: b :: c :: d :: rest => do
    let n ← codeValue? a b c d
    let (units, rest) ← scanString rest
    return (.code n :: units, rest)
  | '\\' :: c :: rest => do
    let c ← unescape? c
    let (units, rest) ← scanString rest
    return (.char c :: units, rest)
  | c :: rest =>
    if c.toNat < 0x20 || c == '\\' then none
    else do
      let (units, rest) ← scanString rest
      return (.char c :: units, rest)

/-- A code unit that opens a pair. -/
def isHighSurrogate (n : Nat) : Bool := 0xD800 ≤ n && n < 0xDC00

/-- A code unit that closes a pair. -/
def isLowSurrogate (n : Nat) : Bool := 0xDC00 ≤ n && n < 0xE000

/-- The characters that units stand for. Surrogates have to come in pairs. -/
def decodeUnits : List StringUnit → Option (List Char)
  | [] => some []
  | .char c :: units => (decodeUnits units).map (c :: ·)
  | .code high :: .code low :: units =>
    if isHighSurrogate high && isLowSurrogate low then
      let n := 0x10000 + (high - 0xD800) * 0x400 + (low - 0xDC00)
      (decodeUnits units).map (Char.ofNat n :: ·)
    else if isHighSurrogate high || isLowSurrogate high then none
    else (decodeUnits (.code low :: units)).map (Char.ofNat high :: ·)
  | .code n :: units =>
    if isHighSurrogate n || isLowSurrogate n then none
    else (decodeUnits units).map (Char.ofNat n :: ·)

theorem length_of_scanString {cs rest : List Char} {units : List StringUnit}
    (h : scanString cs = some (units, rest)) : rest.length < cs.length := by
  fun_induction scanString cs generalizing units with
  | case1 => cases h
  | case2 => cases h; simp
  | case3 a b c d tail ih =>
    simp only [Option.bind_eq_bind, Option.bind_eq_some_iff, Option.pure_def, Option.some.injEq,
      Prod.exists, Prod.mk.injEq] at h
    obtain ⟨_, _, _, _, hs, _, rfl⟩ := h
    have := ih hs
    simp only [List.length_cons]
    omega
  | case4 c tail _ ih =>
    simp only [Option.bind_eq_bind, Option.bind_eq_some_iff, Option.pure_def, Option.some.injEq,
      Prod.exists, Prod.mk.injEq] at h
    obtain ⟨_, _, _, _, hs, _, rfl⟩ := h
    have := ih hs
    simp only [List.length_cons]
    omega
  | case5 => cases h
  | case6 c tail _ _ _ _ ih =>
    simp only [Option.bind_eq_bind, Option.bind_eq_some_iff, Option.pure_def, Option.some.injEq,
      Prod.exists, Prod.mk.injEq] at h
    obtain ⟨_, _, hs, _, rfl⟩ := h
    have := ih hs
    simp only [List.length_cons]
    omega

end StackAssembler.Json

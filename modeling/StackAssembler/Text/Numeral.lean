/-!
# Numerals

Numbers as text: decimal and hexadecimal writing, and the reading of counts and signed literals.
A count is a natural number below `2 ^ 64`, written with digits after an optional plus sign. A
literal is a 64-bit two's-complement number, written with digits after an optional sign. Leading
zeros are free.
-/

namespace StackAssembler.Text

/-! ### Writing -/

/-- The decimal digits of a number. -/
def decimal (n : Nat) : String := String.ofList (Nat.toDigits 10 n)

/-- The decimal digits of a number, with zeros in front up to the width. -/
def paddedDecimal (width n : Nat) : String :=
  String.ofList ((Nat.toDigits 10 n).leftpad width '0')

/-- The upper-case hexadecimal digits of a number, with zeros in front up to the width. -/
def hex (width n : Nat) : String :=
  String.ofList (((Nat.toDigits 16 n).map Char.toUpper).leftpad width '0')

/-- A text with spaces behind it up to the width. -/
def padRight (width : Nat) (s : String) : String :=
  String.ofList (s.toList.rightpad width ' ')

/-! ### Reading -/

/-- The number that a list of decimal digits denotes. -/
def digitsValue (ds : List Char) : Nat :=
  ds.foldl (fun n d => 10 * n + (d.toNat - '0'.toNat)) 0

/-- Read one or more decimal digits. -/
def natural? (cs : List Char) : Option Nat :=
  if !cs.isEmpty && cs.all Char.isDigit then some (digitsValue cs) else none

/-- Counts are below this number, the power of two with exponent 64. -/
def countLimit : Nat := 0x10000000000000000

def count? (cs : List Char) : Option Nat :=
  let digits := match cs with
    | '+' :: rest => rest
    | _ => cs
  (natural? digits).filter (· < countLimit)

/-- Read a signed number of any size. -/
def integer? : List Char → Option Int
  | '-' :: rest => (natural? rest).map fun n => -(n : Int)
  | '+' :: rest => (natural? rest).map fun n => (n : Int)
  | cs => (natural? cs).map fun n => (n : Int)

/-- Literals are below this number, the power of two with exponent 63, and not below its negative. -/
def literalLimit : Int := 0x8000000000000000

def literal? (cs : List Char) : Option Int :=
  (integer? cs).filter fun v => -literalLimit ≤ v && v < literalLimit

end StackAssembler.Text

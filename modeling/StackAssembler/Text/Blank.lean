/-!
# Blank characters

The characters of the Unicode property `White_Space`, and the removal of blanks from both ends of a
text. Texts quoted in messages are trimmed this way. Blanks are more than the gaps that part tokens
(`StackAssembler.Text.Token`): only a space or a tab ends a token.
-/

namespace StackAssembler.Text

/-- A character of the Unicode property `White_Space`. -/
def isBlank (c : Char) : Bool :=
  let n := c.toNat
  (0x09 ≤ n && n ≤ 0x0D) || n == 0x20 || n == 0x85 || n == 0xA0 || n == 0x1680 ||
    (0x2000 ≤ n && n ≤ 0x200A) || n == 0x2028 || n == 0x2029 || n == 0x202F || n == 0x205F ||
    n == 0x3000

/-- The text without the blanks at its two ends. -/
def trim (cs : List Char) : List Char :=
  ((cs.dropWhile isBlank).reverse.dropWhile isBlank).reverse

end StackAssembler.Text

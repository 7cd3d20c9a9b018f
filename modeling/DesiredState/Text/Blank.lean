/-
White space around a text.

Trimming takes away the characters of the Unicode category Zs, the ASCII spacing
controls, the two line separators and the byte order mark; the set is wider than
what separates tokens, which is ASCII alone.
-/
import DesiredState.Text.Basic

namespace DesiredState.Text

/-- The white space outside ASCII that trimming removes. -/
def blankRanges : List (Nat × Nat) := [
  (0xA0, 0xA0), (0x1680, 0x1680), (0x2000, 0x200A), (0x2028, 0x2029), (0x202F, 0x202F),
  (0x205F, 0x205F), (0x3000, 0x3000), (0xFEFF, 0xFEFF)]

/-- Whether trimming removes a character. -/
def isBlank (c : Char) : Bool :=
  if c.toNat < 128 then c == ' ' || (9 ≤ c.toNat && c.toNat ≤ 13)
  else blankRanges.any fun range => range.1 ≤ c.toNat && c.toNat ≤ range.2

/-- A text without the white space at its start. -/
def trimStart (t : Text) : Text := t.dropWhile isBlank

/-- A text without the white space at its end. -/
def trimEnd (t : Text) : Text := (t.reverse.dropWhile isBlank).reverse

/-- A text without the white space around it. -/
def trim (t : Text) : Text := trimEnd (trimStart t)

end DesiredState.Text

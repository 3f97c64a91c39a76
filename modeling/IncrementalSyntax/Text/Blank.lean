import IncrementalSyntax.Text.Basic

/-!
# Blank characters

The characters with the property `White_Space` of Unicode, which has not changed since version 6.3.

## Main definitions

* `isBlank`: the property
* `isBlankInLine`: a blank character that does not end a line
* `Text.trim`: a text without the blanks at its ends
-/

namespace IncrementalSyntax

/-- Whether a character has the property `White_Space`. -/
def isBlank (c : Char) : Bool :=
  let n := c.toNat
  9 ≤ n && n ≤ 13 || n == 0x20 || n == 0x85 || n == 0xa0 || n == 0x1680 ||
    0x2000 ≤ n && n ≤ 0x200a || n == 0x2028 || n == 0x2029 || n == 0x202f || n == 0x205f || n == 0x3000

/-- A blank character that leaves the line open. -/
def isBlankInLine (c : Char) : Bool := isBlank c && !Text.isLineBreak c

namespace Text

/-- The text without the blank characters at its start. -/
def trimStart (t : Text) : Text := t.dropWhile isBlank

/-- The text without the blank characters at its end. -/
def trimEnd (t : Text) : Text := (t.reverse.dropWhile isBlank).reverse

/-- The text without the blank characters at its two ends. -/
def trim (t : Text) : Text := trimEnd (trimStart t)

end Text

end IncrementalSyntax

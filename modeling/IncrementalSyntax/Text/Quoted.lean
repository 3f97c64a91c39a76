import IncrementalSyntax.Text.Basic

/-!
# Quoted text

Dumps show a text between double quotes, with escapes for the quote, the backslash and the control
characters of ASCII. All other characters stand for themselves.

## Main definitions

* `Text.quote`: the quoted form of a text
-/

namespace IncrementalSyntax

namespace Text

/-- The digits of a number to the base sixteen. -/
def hexDigits (n : Nat) : Text := Nat.toDigits 16 n

/-- A character as it stands inside the quotes. -/
def escape (c : Char) : Text :=
  if c = '"' then ['\\', '"']
  else if c = '\\' then ['\\', '\\']
  else if c = '\n' then ['\\', 'n']
  else if c = '\r' then ['\\', 'r']
  else if c = '\t' then ['\\', 't']
  else if c.toNat = 0 then ['\\', '0']
  else if c.toNat < 32 ∨ c.toNat = 127 then
    ['\\', 'u', '\x7b'] ++ hexDigits c.toNat ++ ['\x7d']
  else [c]

/-- The quoted form of a text. -/
def quote (t : Text) : String := String.ofList ('"' :: t.flatMap escape ++ ['"'])

end Text

end IncrementalSyntax

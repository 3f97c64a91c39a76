import IncrementalSyntax.Text.Basic

/-!
# Literals between delimiters

String and character literals are read after their opening delimiter. Reading stops after the closing
one, or where the literal has to end without it: at a line break, or for a verbatim string at the end
of the text.

## Main definitions

* `Cut`: the part of a text that belongs to a literal, and the rest
* `Cut.string`, `Cut.verbatim`, `Cut.interpolated`, `Cut.char`: the forms of literals
-/

namespace IncrementalSyntax

/-- **Cut.** What was read of a text, the rest, and whether the closing delimiter was found. -/
structure Cut where
  taken : Text
  rest : Text
  closed : Bool
  deriving DecidableEq, Repr

namespace Cut

/-- The cut with one more character in front. -/
def cons (c : Char) (cut : Cut) : Cut := { cut with taken := c :: cut.taken }

/-- Stops before the rest without having found the closing delimiter. -/
def openAt (rest : Text) : Cut := ⟨[], rest, false⟩

/-- Stops after the closing delimiter. -/
def close (delimiter : Char) (rest : Text) : Cut := ⟨[delimiter], rest, true⟩

/-- A string on one line, in which a backslash takes the quote's meaning away from the next character. -/
def string : Text → Cut
  | [] => openAt []
  | '\\' :: c :: t =>
    if Text.isLineBreak c then cons '\\' (openAt (c :: t)) else cons '\\' (cons c (string t))
  | c :: t =>
    if c = '"' then close '"' t
    else if Text.isLineBreak c then openAt (c :: t)
    else cons c (string t)

/-- A string over any number of lines, in which a quote is written twice. -/
def verbatim : Text → Cut
  | [] => openAt []
  | '"' :: '"' :: t => cons '"' (cons '"' (verbatim t))
  | c :: t => if c = '"' then close '"' t else cons c (verbatim t)

/-- **Place.** Where a character of an interpolated string stands: in the text of the string, in a hole
under a number of further braces, or in a string inside such a hole. -/
inductive Place where
  | text
  | hole (depth : Nat)
  | nested (depth : Nat)
  deriving DecidableEq, Repr

/-- The place after a closing brace in a hole. -/
def Place.leave : Nat → Place
  | 0 => .text
  | depth + 1 => .hole depth

/-- A string with holes between braces. A quote in a hole begins a string of its own, and there a
backslash passes over the next character, whatever it is. Doubled braces in the text begin no hole. -/
def interpolated : Place → Text → Cut
  | _, [] => openAt []
  | .nested depth, '\\' :: c :: t => cons '\\' (cons c (interpolated (.nested depth) t))
  | .nested depth, c :: t =>
    if c = '"' then cons c (interpolated (.hole depth) t)
    else if Text.isLineBreak c then openAt (c :: t)
    else cons c (interpolated (.nested depth) t)
  | .hole depth, c :: t =>
    if Text.isLineBreak c then openAt (c :: t)
    else if c = '\x7b' then cons c (interpolated (.hole (depth + 1)) t)
    else if c = '\x7d' then cons c (interpolated (.leave depth) t)
    else if c = '"' then cons c (interpolated (.nested depth) t)
    else cons c (interpolated (.hole depth) t)
  | .text, '\\' :: c :: t =>
    if Text.isLineBreak c then cons '\\' (openAt (c :: t))
    else cons '\\' (cons c (interpolated .text t))
  | .text, '\x7b' :: '\x7b' :: t => cons '\x7b' (cons '\x7b' (interpolated .text t))
  | .text, '\x7d' :: '\x7d' :: t => cons '\x7d' (cons '\x7d' (interpolated .text t))
  | .text, c :: t =>
    if Text.isLineBreak c then openAt (c :: t)
    else if c = '\x7b' then cons c (interpolated (.hole 0) t)
    else if c = '"' then close '"' t
    else cons c (interpolated .text t)

/-- The characters up to the next apostrophe of the line. -/
def apostrophe : Text → Cut
  | [] => openAt []
  | c :: t =>
    if c = '\'' then close '\'' t
    else if Text.isLineBreak c then openAt (c :: t)
    else cons c (apostrophe t)

/-- A character literal. Only the first character of it can be a backslash that takes the meaning away
from the next one. -/
def char : Text → Cut
  | '\\' :: c :: t =>
    if Text.isLineBreak c then cons '\\' (openAt (c :: t)) else cons '\\' (cons c (apostrophe t))
  | t => apostrophe t

end Cut

end IncrementalSyntax

import IncrementalSyntax.Green.Basic

/-!
# Looking up offsets

Every byte of a tree belongs to exactly one token, the one of positive width whose range holds it.
Tokens and nodes of no width never are the answer of a look-up, with one exception: the token that ends
a text starts at the very end. The look-ups here go through the children from left to right.

## Main definitions

* `Green.tokenStarting?`, `Green.nodeStarting?`: the token, or the outermost node, that starts at an
  offset
-/

namespace IncrementalSyntax

namespace Green

mutual

/-- The token of positive width that starts at the offset. -/
def tokenBelow? : Green → Nat → Option Token
  | token t, offset => if offset = 0 then some t else none
  | node _ cs, offset => tokenAmong? cs offset

/-- The token of positive width that starts at the offset of elements in a row. -/
def tokenAmong? : List Green → Nat → Option Token
  | [], _ => none
  | c :: cs, offset =>
    if offset < c.width then c.tokenBelow? offset else tokenAmong? cs (offset - c.width)

end

/-- The scanned token that starts at the offset. At the end of the text this is the token of no width
that ends it, if the tree has one. -/
def tokenStarting? (g : Green) (offset : Nat) : Option Token :=
  if offset = g.width then
    g.lastToken?.filter fun t => t.leaf.tokenKind = .eof && t.leaf.width = 0
  else g.tokenBelow? offset

mutual

/-- The outermost node below an element that starts at the offset and is accepted. -/
def nodeStarting? (accept : Green → Bool) : Green → Nat → Option Green
  | token _, _ => none
  | node _ cs, offset => nodeAmong? accept cs offset

/-- The outermost accepted node that starts at the offset of elements in a row. -/
def nodeAmong? (accept : Green → Bool) : List Green → Nat → Option Green
  | [], _ => none
  | c :: cs, offset =>
    if offset < c.width then
      if offset = 0 && c.isNode && accept c then some c else c.nodeStarting? accept offset
    else nodeAmong? accept cs (offset - c.width)

end

end Green

end IncrementalSyntax

import IncrementalSyntax.Green.Leaf

/-!
# The token pool

Short tokens with plain trivia are handed out as the same token again and again, so text that is
scanned anew gives tokens that a comparison can skip. The pool decides about identities only, never
about content, and it stops growing at a limit.

## Main definitions

* `Leaf.isPoolable`: which leaves are short and plain
* `TokenTree`: tokens in a search tree, ordered by their texts
* `Pool`: the tokens handed out so far
* `Pool.token`: the token for a leaf
-/

namespace IncrementalSyntax

/-- Trivia that a pooled token may have: two short pieces of blanks and line ends. -/
def Trivia.arePlain (pieces : List Trivia) : Bool :=
  pieces.length ≤ 2 && pieces.all fun p =>
    (p.kind = .trivia .whitespace || p.kind = .trivia .endOfLine) && Text.width p.text ≤ 16

/-- A leaf that is short, has plain trivia and nothing attached to it. -/
def Leaf.isPoolable (l : Leaf) : Bool :=
  Text.width l.text ≤ 32 && Trivia.arePlain l.leading && Trivia.arePlain l.trailing &&
    l.diagnostics.isEmpty && l.annotations.isEmpty && !l.missing

/-- **Token tree.** Tokens by their texts: those with smaller texts on the left, those with larger texts on
the right. -/
inductive TokenTree where
  | empty
  | branch (text : Text) (tokens : List Token) (left right : TokenTree)

namespace TokenTree

/-- The tokens with a text, the latest first. -/
def withText (text : Text) : TokenTree → List Token
  | empty => []
  | branch x tokens left right =>
    if text = x then tokens
    else if text < x then left.withText text
    else right.withText text

/-- The tree with one more token. -/
def insert (t : Token) : TokenTree → TokenTree
  | empty => branch t.leaf.text [t] empty empty
  | branch x tokens left right =>
    if t.leaf.text = x then branch x (t :: tokens) left right
    else if t.leaf.text < x then branch x tokens (left.insert t) right
    else branch x tokens left (right.insert t)

/-- An inserted token stands with those of its text, and no other text is affected. -/
theorem withText_insert (t : Token) (tree : TokenTree) (text : Text) :
    (tree.insert t).withText text =
      if text = t.leaf.text then t :: tree.withText text else tree.withText text := by
  induction tree with
  | empty => by_cases h : text = t.leaf.text <;> simp [insert, withText, h]
  | branch x tokens left right ihl ihr =>
    by_cases hx : t.leaf.text = x
    · by_cases h : text = x <;> simp [insert, withText, hx, h]
    · by_cases hl : t.leaf.text < x
      · by_cases h : text = x
        · simp [insert, withText, hx, hl, h, Ne.symm hx]
        · by_cases h' : text < x <;> simp only [insert, withText, hx, hl, h, h', if_true, if_false, ihl]
          by_cases e : text = t.leaf.text
          · exact absurd (e ▸ hl) h'
          · simp [e]
      · by_cases h : text = x
        · simp [insert, withText, hx, hl, h, Ne.symm hx]
        · by_cases h' : text < x <;> simp only [insert, withText, hx, hl, h, h', if_true, if_false, ihr]
          by_cases e : text = t.leaf.text
          · exact absurd (e ▸ h') hl
          · simp [e]

end TokenTree

/-- **Pool.** The tokens that are handed out again, with their number, and the next identity. -/
structure Pool where
  tokens : TokenTree := .empty
  count : Nat := 0
  nextId : Id := 0

namespace Pool

/-- The number of tokens that a pool holds at most. -/
def limit : Nat := 8192

/-- The pooled token for a leaf. -/
def find? (p : Pool) (l : Leaf) : Option Token :=
  (p.tokens.withText l.text).find? fun t => t.leaf = l

/-- An identity that has not been used. -/
def fresh (p : Pool) : Id × Pool := (p.nextId, { p with nextId := p.nextId + 1 })

/-- The pool with one more token, made of a leaf. -/
def add (p : Pool) (l : Leaf) : Pool :=
  ⟨p.tokens.insert ⟨p.nextId, l⟩, p.count + 1, p.nextId + 1⟩

/-- The token for a leaf: the pooled one if the leaf is poolable and known, a new one otherwise. -/
def token (p : Pool) (l : Leaf) : Token × Pool :=
  if l.isPoolable then
    match p.find? l with
    | some t => (t, p)
    | none => (⟨p.nextId, l⟩, if p.count < limit then p.add l else p.fresh.2)
  else (⟨p.nextId, l⟩, p.fresh.2)

/-- A token found in the pool is made of the leaf asked for. -/
theorem leaf_of_find? {p : Pool} {l : Leaf} {t : Token} (h : p.find? l = some t) : t.leaf = l := by
  simpa using List.find?_some h

/-- The pool never changes the content of a token. -/
theorem leaf_token (p : Pool) (l : Leaf) : (p.token l).1.leaf = l := by
  unfold token
  split
  · split
    · exact leaf_of_find? ‹_›
    · rfl
  · rfl

end Pool

end IncrementalSyntax

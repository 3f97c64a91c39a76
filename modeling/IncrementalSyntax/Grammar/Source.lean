import IncrementalSyntax.Stream.Cursor

/-!
# Token sources

The parser reads tokens from a source and may ask it for a whole node instead. A cursor is such a source,
and so is a plain list of tokens, which offers no nodes.

## Main definitions

* `TokenSource`: what the parser needs to know of a source
* `TokenList`: a list of tokens as a source
-/

namespace IncrementalSyntax

/-- **Token source.** A supply of tokens that never runs dry, since the token that ends the text comes
again and again. -/
class TokenSource (σ : Type) where
  /-- The token at the front, and the source behind it. -/
  next : σ → Token × σ
  /-- A finished node of an accepted kind at the front, and the source behind it. -/
  reuse? : (NodeKind → Bool) → σ → Option (Green × σ)
  /-- An identity that has not been used. -/
  fresh : σ → Id × σ
  /-- At least the number of tokens before the end. -/
  remaining : σ → Nat

instance : TokenSource Cursor where
  next c := (c.next.1, c.next.2.2)
  reuse? kinds c := c.reuseNode? kinds
  fresh := Cursor.fresh
  remaining c := c.rest.length

/-- **Token list.** Tokens in a row, the token that ends the text behind them, and the next identity. -/
structure TokenList where
  tokens : List Token
  last : Token
  nextId : Id

instance : TokenSource TokenList where
  next s := match s.tokens with
    | t :: ts => (t, { s with tokens := ts })
    | [] => (s.last, s)
  reuse? _ _ := none
  fresh s := (s.nextId, { s with nextId := s.nextId + 1 })
  remaining s := s.tokens.length

end IncrementalSyntax

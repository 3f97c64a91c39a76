import IncrementalSyntax.Grammar.Member

/-!
# Whole texts

A file is a compilation unit, all of it members. Any other text is a fragment: one production if its
first token can begin it, then all that is left as skipped tokens. Both end with the token that ends
the text.

## Main definitions

* `Parsed`: what a parse gives
* `parse`: the parse of all tokens of a source
-/

namespace IncrementalSyntax

/-- **Result of a parse.** The root of the tree, the status, and the source behind the last token. -/
structure Parsed (σ : Type) where
  root : Green
  status : ParseStatus
  source : σ

namespace Parse

variable {σ : Type} [TokenSource σ]

/-- A production if the token at the front can begin it. -/
def ifStarts (starts : TokenKind → Bool) (body : Parse σ Unit) : Parse σ Unit := do
  if starts (← peek) then body

/-- One production, the tokens that it leaves, and the end of the text. -/
def fragment (body : Parse σ Unit) : Parse σ Unit := do
  body
  let _ ← skipToRecovery
  bump

/-- The kind of the root for an entry point. -/
def rootKind : EntryPoint → NodeKind
  | .compilationUnit => .compilationUnit
  | .member | .statement | .expression => .fragment

/-- All that stands below the root. -/
def rootBody : EntryPoint → Parse σ Unit
  | .compilationUnit => do
    members
    bump
  | .member => fragment (ifStarts TokenKind.startsMember member)
  | .statement => fragment (ifStarts TokenKind.startsStatement statement)
  | .expression => fragment (ifStarts TokenKind.startsExpression expression)

end Parse

/-- The parse of all tokens of a source. -/
def parse {σ : Type} [TokenSource σ] (version : LanguageVersion) (entry : EntryPoint) (source : σ) :
    Parsed σ :=
  let p := ((Parse.rootBody entry).run { source := source, version := version }).2
  let id := TokenSource.fresh p.source
  ⟨.ofChildren id.1 (Parse.rootKind entry) p.out, p.status, id.2⟩

end IncrementalSyntax

import IncrementalSyntax.Grammar.ListContext
import IncrementalSyntax.Grammar.Options
import IncrementalSyntax.Grammar.Source

/-!
# The parser

A production of the grammar is an action on the state of the parser. It takes tokens from the source and
emits elements, the children of the node that is being built. No production fails: a token that is
missing is made up with a diagnostic, and tokens that nothing can use are wrapped in a node of their own.

## Main definitions

* `Parser`, `Parse`: the state, and actions on it
* `Parse.peek`, `Parse.bump`, `Parse.expect`, `Parse.missing`: single tokens
* `Parse.scope`, `Parse.enclose`, `Parse.node`: nodes around what is emitted
* `Parse.fix`, `Parse.loop`: recursion, and repetition
* `Parse.speculate`: looking ahead without effect
* `Parse.skipToRecovery`: skipping tokens
-/

namespace IncrementalSyntax

/-- **Status.** Whether a token was missing at the end of the text. -/
inductive ParseStatus where
  | complete | unexpectedEnd
  deriving DecidableEq, Repr

/-- **Parser.** The state of a parse: the tokens to come, the elements emitted for the node that is being
built, the open lists, the innermost first, the status, and the version of the language. -/
structure Parser (σ : Type) where
  source : σ
  out : List Green := []
  contexts : List ListContext := []
  status : ParseStatus := .complete
  version : LanguageVersion := .latest

/-- **Action.** A step of the parser with a result. -/
abbrev Parse (σ : Type) := StateM (Parser σ)

namespace Parse

variable {σ : Type} [TokenSource σ]

/-! ## Tokens -/

/-- The kind of the token at the front. -/
def peek : Parse σ TokenKind := fun p => ((TokenSource.next p.source).1.leaf.tokenKind, p)

/-- The kind of the token behind the one at the front. -/
def peekSecond : Parse σ TokenKind := fun p =>
  ((TokenSource.next (TokenSource.next p.source).2).1.leaf.tokenKind, p)

/-- The text of the token at the front. -/
def peekText : Parse σ Text := fun p => ((TokenSource.next p.source).1.leaf.text, p)

/-- Whether the token at the front is of a kind. -/
def isAt (kind : TokenKind) : Parse σ Bool := do return (← peek) = kind

/-- Emits an element. -/
def emit (g : Green) : Parse σ Unit := fun p => ((), { p with out := p.out ++ [g] })

/-- An identity that has not been used. -/
def fresh : Parse σ Id := fun p =>
  ((TokenSource.fresh p.source).1, { p with source := (TokenSource.fresh p.source).2 })

/-- Takes the token at the front. -/
def take : Parse σ Token := fun p =>
  ((TokenSource.next p.source).1, { p with source := (TokenSource.next p.source).2 })

/-- Emits the token at the front. -/
def bump : Parse σ Unit := do emit (.token (← take))

/-- Emits the token at the front if it is of a kind. -/
def eat (kind : TokenKind) : Parse σ Bool := do
  if ← isAt kind then
    bump
    return true
  else return false

/-- Notes that a token is missing; at the end of the text this shows in the status. -/
def noteMissing : Parse σ Unit := fun p =>
  ((), if (TokenSource.next p.source).1.leaf.tokenKind = .eof then { p with status := .unexpectedEnd } else p)

/-- Emits a token of a kind that is missing. -/
def missing (kind : TokenKind) (code : Code) : Parse σ Unit := do
  let args := if code = .tokenExpected then [Kind.describe kind] else []
  noteMissing
  emit (.token ⟨← fresh, .absent kind (.ofCode code 0 0 args)⟩)

/-- Emits the token at the front if it is of the kind that has to come, and a missing one otherwise. -/
def expect (kind : TokenKind) : Parse σ Unit := do
  if ← eat kind then pure ()
  else missing kind (if kind = .ident then .identifierExpected else .tokenExpected)

/-! ## Nodes -/

/-- Lets an action see only what it emits itself. -/
def scope {α : Type} (body : Parse σ α) : Parse σ α := fun p =>
  let r := body { p with out := [] }
  (r.1, { r.2 with out := p.out ++ r.2.out })

/-- Makes one node out of all that was emitted in the scope. -/
def enclose (kind : NodeKind) : Parse σ Unit := do
  let id ← fresh
  modify fun p => { p with out := [.ofChildren id kind p.out] }

/-- Emits a node over what an action emits. -/
def node (kind : NodeKind) (body : Parse σ Unit) : Parse σ Unit := scope do
  body
  enclose kind

/-- Emits a finished node of the source if there is an acceptable one, and acts otherwise. -/
def reuseOr (kinds : NodeKind → Bool) (body : Parse σ Unit) : Parse σ Unit := fun p =>
  match TokenSource.reuse? kinds p.source with
  | some (g, s) => ((), { p with source := s, out := p.out ++ [g] })
  | none => body p

/-- Acts with one more list open. -/
def within (context : ListContext) (body : Parse σ Unit) : Parse σ Unit := fun p =>
  let r := body { p with contexts := context :: p.contexts }
  (r.1, { r.2 with contexts := p.contexts })

/-! ## Recursion -/

/-- Recursion to a depth; beyond it nothing happens. -/
def fixUpTo (body : Parse σ Unit → Parse σ Unit) : Nat → Parser σ → Unit × Parser σ
  | 0, p => ((), p)
  | depth + 1, p => body (fixUpTo body depth) p

/-- Recursion in which every call comes after a token was taken since the call before, so that the number
of tokens bounds its depth. -/
def fix (body : Parse σ Unit → Parse σ Unit) : Parse σ Unit := fun p =>
  fixUpTo body (TokenSource.remaining p.source + 1) p

/-- Repetition until the action says no; each round but the last takes a token. -/
def loop (round : Parse σ Bool) : Parse σ Unit := fix fun again => do
  if ← round then again

/-! ## Looking ahead and skipping -/

/-- The result of an action that is then undone. -/
def speculate {α : Type} (body : Parse σ α) : Parse σ α := fun p => ((body p).1, p)

/-- Passes over the token at the front without emitting it; the end of the text stays. -/
def skip : Parse σ Unit := do
  unless (← peek) = .eof do
    let _ ← take

/-- Whether skipping has to stop at the token at the front. -/
def atRecoveryPoint : Parse σ Bool := do
  let kind ← peek
  return kind = .eof || (← get).contexts.any (·.isRecoveryPoint kind)

/-- Emits the token at the front with a diagnostic that covers its text. -/
def bumpUnexpected : Parse σ Unit := do
  let t ← take
  let d := Diagnostic.ofCode .unexpectedToken t.leaf.leadingWidth t.leaf.textWidth
    [t.leaf.kind.describe]
  emit (.token ⟨← fresh, t.leaf.withDiagnostic d⟩)

/-- Skips the tokens that no open list can use; says whether there were any. -/
def skipToRecovery : Parse σ Bool := do
  if ← atRecoveryPoint then return false
  node .skippedTokens do
    bumpUnexpected
    loop do
      if ← atRecoveryPoint then return false
      bump
      return true
  return true

end Parse

end IncrementalSyntax

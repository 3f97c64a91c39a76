import IncrementalSyntax.Token.Raw
import IncrementalSyntax.Token.Trivia

/-!
# Scanning

The scanner reads one token with its trivia off the front of a text. It is given the text from there on
and the context that the text before has left, and nothing else.

## Main definitions

* `Context`: what the text before a place means for scanning there
* `Scan`, `scan`: one token, the rest of the text and the context there
* `tokenize`: all tokens of a text
* `lookaheadEnd`: how far the scanner may look past the end of a token
-/

namespace IncrementalSyntax

/-- **Context.** The directive state at a place, and whether only blanks precede it on its line. -/
structure Context where
  directives : DirectiveState
  lineStart : Bool
  deriving DecidableEq, Repr

/-- The context at the start of a text with some symbols defined beforehand. -/
def Context.initial (symbols : List Text) : Context := ⟨.ofSymbols symbols, true⟩

/-- **Scan.** A token, the text behind it, the context there, and the directives in its leading trivia,
with ranges from the start of the token. -/
structure Scan where
  leaf : Leaf
  rest : Text
  context : Context
  entries : List DirectiveEntry

/-- The diagnostic of a raw token at an offset. -/
def RawToken.complain (r : RawToken) (offset : Nat) : List Diagnostic :=
  match r.code with
  | none => []
  | some .invalidCharacter =>
    [.ofCode .invalidCharacter offset (Text.width r.text) [String.ofList r.text]]
  | some code => [.ofCode code offset (Text.width r.text) []]

/-- The token at the end of a text. A directive that is still open is reported there. -/
def Scan.atEnd (context : Context) (l : Leading) : Scan :=
  let missingCloser : List Diagnostic := match l.state.expectedCloser? with
    | some closer => [.ofCode .closerExpected l.offset 0 [closer]]
    | none => []
  { leaf :=
      { kind := .token .eof
        text := []
        leading := l.pieces
        diagnostics := l.diagnostics ++ missingCloser }
    rest := []
    context :=
      { directives := l.state
        lineStart := if l.pieces = [] then context.lineStart
          else Text.endsLine (Trivia.textAll l.pieces) }
    entries := l.entries }

/-- The token made of a raw token, its leading trivia and the trailing trivia behind it. -/
def Scan.ofRaw (l : Leading) (raw : RawToken) : Scan :=
  let offset := l.offset
  let trailing := Trailing.read (offset + Text.width raw.text) raw.rest
  let leaf : Leaf :=
    { kind := raw.kind
      text := raw.text
      leading := l.pieces
      trailing := trailing.pieces
      diagnostics := l.diagnostics ++ raw.complain offset ++ trailing.diagnostics }
  { leaf := leaf
    rest := trailing.rest
    context := ⟨l.state, leaf.fullText.endsLine⟩
    entries := l.entries }

/-- The token at the front of a text. -/
def scan (context : Context) (t : Text) : Scan :=
  let l := Leading.read context.directives context.lineStart t
  match l.rest with
  | [] => .atEnd context l
  | c :: r => .ofRaw l (RawToken.read c r)

/-- The tokens of a text from a context on, the last of which ends the text. Each token but that takes at
least one character, so `fuel` of them are enough for a text of that length. -/
def tokenizeFrom : Nat → Context → Text → List Leaf
  | 0, context, t => [(scan context t).leaf]
  | fuel + 1, context, t =>
    let s := scan context t
    if s.leaf.tokenKind = .eof then [s.leaf] else s.leaf :: tokenizeFrom fuel s.context s.rest

/-- All tokens of a text, given the symbols defined beforehand. -/
def tokenize (symbols : List Text) (t : Text) : List Leaf :=
  tokenizeFrom t.length (.initial symbols) t

/-- The width of the next two characters. One byte past the end counts as well if there are fewer. -/
def lookaheadWidth : Text → Nat
  | [] => 1
  | [c] => c.utf8Size + 1
  | c :: d :: _ => c.utf8Size + d.utf8Size

/-- The offset up to which the scanner may have looked for a token that ends at `stop`: two characters
further, or no further at all if the token ends with a line feed. Where the text ends earlier the
offset lies past its end, so that text added there counts as looked at. -/
def lookaheadEnd (t : Text) (stop : Nat) : Nat :=
  match t.splitAt? stop with
  | none => stop + 1
  | some (before, after) =>
    if before.getLast? = some '\n' then stop else stop + lookaheadWidth after

end IncrementalSyntax

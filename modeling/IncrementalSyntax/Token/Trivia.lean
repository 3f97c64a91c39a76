import IncrementalSyntax.Directive.Line
import IncrementalSyntax.Directive.Table
import IncrementalSyntax.Green.Leaf

/-!
# Trivia around a token

All that stands between two tokens belongs to one of them. What follows a token on its line, up to and
with the end of the line, is its trailing trivia, and the rest is the leading trivia of the next token.
Directives are lines of leading trivia, and so are the lines that an inactive branch leaves out.

## Main definitions

* `Text.line`, `Text.terminator`: the first line of a text
* `Leading`, `Leading.step?`, `Leading.run`: leading trivia, piece by piece
* `Trailing`, `Trailing.read`: trailing trivia
-/

namespace IncrementalSyntax

namespace Text

/-- The first line of a text without its terminator. -/
def line (t : Text) : Text := t.takeWhile fun c => !isLineBreak c

/-- The line terminator at the front of a text; empty if there is none. -/
def terminator : Text → Text
  | '\r' :: '\n' :: _ => ['\r', '\n']
  | c :: _ => if isLineBreak c then [c] else []
  | [] => []

/-- The first line of a text with its terminator. -/
def fullLine (t : Text) : Text := t.line ++ terminator (t.drop t.line.length)

/-- A text up to and with the first `*/`, and the rest; `none` if there is none. -/
def throughCommentEnd? : Text → Option (Text × Text)
  | [] => none
  | '*' :: '/' :: t => some (['*', '/'], t)
  | c :: t => (throughCommentEnd? t).map fun p => (c :: p.1, p.2)

end Text

/-- **Comment.** A block comment at the front of a text: its text, the rest, and whether it is closed. -/
structure Comment where
  text : Text
  rest : Text
  closed : Bool

/-- The block comment that begins with the two characters in front of `t`. -/
def Comment.ofBody (t : Text) : Comment :=
  match Text.throughCommentEnd? t with
  | some (body, rest) => ⟨'/' :: '*' :: body, rest, true⟩
  | none => ⟨'/' :: '*' :: t, [], false⟩

/-- What is reported of a block comment that starts at an offset. -/
def Comment.complain (comment : Comment) (offset : Nat) : List Diagnostic :=
  if comment.closed then [] else [.ofCode .openComment offset (Text.width comment.text) []]

/-- **Leading.** Leading trivia read so far: the pieces in order, what was reported in them, the
directives among them with ranges from the start of the trivia, the directive state, whether only
blanks precede on the line, and the text that is left. -/
structure Leading where
  state : DirectiveState
  lineStart : Bool
  rest : Text
  pieces : List Trivia := []
  diagnostics : List Diagnostic := []
  entries : List DirectiveEntry := []

namespace Leading

/-- The number of bytes read. -/
def offset (l : Leading) : Nat := Trivia.widthAll l.pieces

/-- Adds a piece of trivia, and says whether a line starts behind it. -/
def push (l : Leading) (kind : TriviaKind) (text rest : Text) (lineStart : Bool) : Leading :=
  { l with pieces := l.pieces ++ [⟨kind, text⟩], rest := rest, lineStart := lineStart }

/-- Pieces with one more line of disabled text, in one piece with the disabled text before it. -/
def appendDisabled (text : Text) : List Trivia → List Trivia
  | [] => [⟨.trivia .disabledText, text⟩]
  | [p] => if p.kind = .trivia .disabledText then [⟨p.kind, p.text ++ text⟩]
    else [p, ⟨.trivia .disabledText, text⟩]
  | p :: q :: ps => p :: appendDisabled text (q :: ps)

/-- Passes over a line that is left out. -/
def disable (l : Leading) : Leading :=
  { l with
    pieces := appendDisabled l.rest.fullLine l.pieces
    rest := l.rest.drop l.rest.fullLine.length
    lineStart := true }

/-- Passes over a directive line and makes it take effect. -/
def directive (l : Leading) : Leading :=
  let outcome := DirectiveLine.process l.rest.line l.state
  { l.push (.directive outcome.kind) l.rest.fullLine (l.rest.drop l.rest.fullLine.length) true with
    state := outcome.state
    diagnostics := l.diagnostics ++ outcome.diagnostics.map (·.shift l.offset)
    entries := l.entries ++ [⟨outcome.kind, ⟨l.offset, Text.width l.rest.fullLine⟩, outcome.state⟩] }

/-- Passes over a block comment; `body` is the text behind its first two characters. -/
def comment (l : Leading) (body : Text) : Leading :=
  let c := Comment.ofBody body
  { l.push .multiLineComment c.text c.rest false with
    diagnostics := l.diagnostics ++ c.complain l.offset }

/-- Whether the next line is left out: text is not compiled here, and the line is not a conditional
directive. -/
def isDisabled (l : Leading) : Bool :=
  !l.state.isActive &&
    !(l.lineStart && DirectiveLine.isConditional (l.rest.line.dropWhile isBlankInLine))

/-- The next piece of leading trivia, if there is one. -/
def step? (l : Leading) : Option Leading :=
  if l.rest = [] then none
  else if l.isDisabled then some l.disable
  else
    match l.rest with
    | [] => none
    | c :: t =>
      if isBlankInLine c then
        some (l.push .whitespace (c :: t.takeWhile isBlankInLine) (t.dropWhile isBlankInLine)
          l.lineStart)
      else if Text.isLineBreak c then
        some (l.push .endOfLine (Text.terminator (c :: t))
          ((c :: t).drop (Text.terminator (c :: t)).length) true)
      else if c = '/' && t.head? == some '/' then
        some (l.push .singleLineComment (Text.line (c :: t)) ((c :: t).drop (Text.line (c :: t)).length)
          false)
      else if c = '/' && t.head? == some '*' then some (l.comment t.tail)
      else if c = '#' && l.lineStart then some l.directive
      else none

/-- The leading trivia to its end. Each piece takes at least one character, so `fuel` of them are enough
for a text of that length. -/
def run : Nat → Leading → Leading
  | 0, l => l
  | fuel + 1, l =>
    match l.step? with
    | some l' => run fuel l'
    | none => l

/-- The leading trivia at the front of a text. -/
def read (state : DirectiveState) (lineStart : Bool) (t : Text) : Leading :=
  run t.length ⟨state, lineStart, t, [], [], []⟩

end Leading

/-- **Trailing.** Trailing trivia: the pieces, what was reported in them, and the text that is left. -/
structure Trailing where
  pieces : List Trivia
  diagnostics : List Diagnostic
  rest : Text

namespace Trailing

/-- The trailing trivia with one more piece in front. -/
def cons (kind : TriviaKind) (text : Text) (diagnostics : List Diagnostic) (r : Trailing) : Trailing :=
  ⟨⟨kind, text⟩ :: r.pieces, diagnostics ++ r.diagnostics, r.rest⟩

/-- The trailing trivia at the front of a text that stands at an offset of its token. A line terminator
ends it. Each piece takes at least one character, so `fuel` of them are enough for a text of that
length. -/
def run : Nat → Nat → Text → Trailing
  | 0, _, t => ⟨[], [], t⟩
  | _, _, [] => ⟨[], [], []⟩
  | fuel + 1, offset, c :: t =>
    if isBlankInLine c then
      let text := c :: t.takeWhile isBlankInLine
      (run fuel (offset + Text.width text) (t.dropWhile isBlankInLine)).cons .whitespace text []
    else if c = '/' && t.head? == some '/' then
      let text := Text.line (c :: t)
      (run fuel (offset + Text.width text) ((c :: t).drop text.length)).cons .singleLineComment text []
    else if c = '/' && t.head? == some '*' then
      let comment := Comment.ofBody t.tail
      (run fuel (offset + Text.width comment.text) comment.rest).cons .multiLineComment comment.text
        (comment.complain offset)
    else if Text.isLineBreak c then
      let text := Text.terminator (c :: t)
      ⟨[⟨.trivia .endOfLine, text⟩], [], (c :: t).drop text.length⟩
    else ⟨[], [], c :: t⟩

/-- The trailing trivia at the front of a text that stands at an offset of its token. -/
def read (offset : Nat) (t : Text) : Trailing := run t.length offset t

end Trailing

end IncrementalSyntax

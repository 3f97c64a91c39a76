import IncrementalSyntax.Kind.Classes
import IncrementalSyntax.Diagnostic.Basic

/-!
# Leaves

A leaf is the content of a token: its text, the trivia on both sides, and what has been attached to
it. A token is a leaf with an identity. Two tokens are the same one if their identities agree, and they
are equal in structure if their leaves agree.

Kinds are labels here. The scanner gives every leaf the kind of a token and every piece of trivia a kind
of trivia, but a tree can be put together by hand from elements of any kind.

## Main definitions

* `Trivia`, `Annotation`, `Flags`: what leaves are made of and what sums them up
* `Leaf`: the content of a token
* `Leaf.tokenKind`: what the grammar takes a leaf for
* `Leaf.withDiagnostic`, `Leaf.withAnnotation`, `Leaf.withLeading`: the changed copies of a leaf
* `Token`: a leaf with an identity
-/

namespace IncrementalSyntax

/-- **Identity.** Tokens and nodes are told apart by numbers, never used twice. -/
abbrev Id := Nat

/-- **Trivia.** A piece of text beside a token. -/
structure Trivia where
  kind : Kind
  text : Text
  deriving DecidableEq, Repr

/-- **Annotation.** A mark that a client puts on an element. Its number tells it from other marks of the
same kind and data. -/
structure Annotation where
  id : Id
  kind : String
  data : Option String
  deriving DecidableEq, Repr

/-- **Flags.** What an element holds somewhere inside. -/
structure Flags where
  /-- A diagnostic. -/
  diagnostics : Bool := false
  /-- An annotation, on itself or inside. -/
  annotations : Bool := false
  /-- Disabled text or skipped tokens. -/
  skippedText : Bool := false
  /-- A preprocessor directive. -/
  directives : Bool := false
  /-- A token that is missing. -/
  missing : Bool := false
  deriving DecidableEq, Repr

namespace Flags

/-- No flag. -/
def none : Flags := {}

/-- The flags of two things together. -/
def union (a b : Flags) : Flags where
  diagnostics := a.diagnostics || b.diagnostics
  annotations := a.annotations || b.annotations
  skippedText := a.skippedText || b.skippedText
  directives := a.directives || b.directives
  missing := a.missing || b.missing

/-- The flags as a number, one bit each. -/
def bits (f : Flags) : Nat :=
  f.diagnostics.toNat + 2 * f.annotations.toNat + 4 * f.skippedText.toNat +
    8 * f.directives.toNat + 16 * f.missing.toNat

end Flags

/-- The width of pieces of trivia in a row. -/
def Trivia.widthAll : List Trivia → Nat
  | [] => 0
  | p :: pieces => Text.width p.text + widthAll pieces

/-- The texts of pieces of trivia in a row. -/
def Trivia.textAll (pieces : List Trivia) : Text := pieces.flatMap Trivia.text

/-- Whether a piece of trivia is a preprocessor directive. -/
def Trivia.isDirective (p : Trivia) : Bool := p.kind.isTriviaThat TriviaKind.isDirective

/-- **Leaf.** The content of a token: its text between leading and trailing trivia, the diagnostics in
it and the annotations on it. A missing token is one that the grammar asks for and the text lacks. -/
structure Leaf where
  kind : Kind
  text : Text
  leading : List Trivia := []
  trailing : List Trivia := []
  diagnostics : List Diagnostic := []
  annotations : List Annotation := []
  missing : Bool := false
  deriving DecidableEq, Repr

namespace Leaf

/-- What the grammar takes the leaf for. No production asks for a leaf whose kind is not that of a token,
so such a leaf counts as bad. -/
def tokenKind (l : Leaf) : TokenKind :=
  match l.kind with
  | .token k => k
  | _ => .bad

/-- A token that was expected and not found: no text, one diagnostic. -/
def absent (kind : Kind) (d : Diagnostic) : Leaf :=
  { kind := kind, text := [], diagnostics := [d], missing := true }

def leadingWidth (l : Leaf) : Nat := Trivia.widthAll l.leading

def textWidth (l : Leaf) : Nat := Text.width l.text

def trailingWidth (l : Leaf) : Nat := Trivia.widthAll l.trailing

/-- The width of the text with its trivia. -/
def width (l : Leaf) : Nat := l.leadingWidth + l.textWidth + l.trailingWidth

/-- Leading trivia, text and trailing trivia in a row. -/
def fullText (l : Leaf) : Text := Trivia.textAll l.leading ++ l.text ++ Trivia.textAll l.trailing

/-- All trivia of a leaf. -/
def trivia (l : Leaf) : List Trivia := l.leading ++ l.trailing

/-- What the leaf holds. -/
def flags (l : Leaf) : Flags where
  diagnostics := !l.diagnostics.isEmpty
  annotations := !l.annotations.isEmpty
  skippedText := l.trivia.any (·.kind = .trivia .disabledText)
  directives := l.trivia.any Trivia.isDirective
  missing := l.missing

def withDiagnostic (l : Leaf) (d : Diagnostic) : Leaf :=
  { l with diagnostics := l.diagnostics ++ [d] }

def withAnnotation (l : Leaf) (a : Annotation) : Leaf :=
  { l with annotations := l.annotations ++ [a] }

/-- The leaf with other leading trivia. Diagnostics in the old leading trivia go with it, and the others
move with the text; their offsets are stored ones. -/
def withLeading (l : Leaf) (leading : List Trivia) : Leaf :=
  { l with
    leading := leading
    diagnostics := (l.diagnostics.filter fun d => l.leadingWidth ≤ d.offset).map fun d =>
      { d with offset := Offset.wrap (d.offset - l.leadingWidth + Trivia.widthAll leading) } }

end Leaf

/-- **Token.** A leaf with an identity. -/
structure Token where
  id : Id
  leaf : Leaf
  deriving DecidableEq, Repr

namespace Token

/-- Whether two tokens are the same one. -/
def isSame (a b : Token) : Bool := a.id == b.id

end Token

end IncrementalSyntax

import IncrementalSyntax.Text.Basic

/-!
# Lines and columns

A line ends with a line feed, a carriage return, or the two together as one terminator. Lines and
columns count from zero, and a column is a number of bytes.

## Main definitions

* `Text.lineStarts`: the offsets at which the lines of a text begin
* `LineIndex`: these offsets beside the width of the text
* `LineIndex.position`, `LineIndex.offset?`: from offsets to positions and back
-/

namespace IncrementalSyntax

/-- The offsets right after each line terminator of a text that begins at offset `base`. -/
def Text.lineEnds (base : Nat) : Text → List Nat
  | [] => []
  | '\r' :: '\n' :: t => (base + 2) :: lineEnds (base + 2) t
  | c :: t =>
    if isLineBreak c then (base + c.utf8Size) :: lineEnds (base + c.utf8Size) t
    else lineEnds (base + c.utf8Size) t

/-- The offsets at which the lines of a text begin; the first line begins at 0. -/
def Text.lineStarts (t : Text) : List Nat := 0 :: t.lineEnds 0

/-- **Position.** A line and a column in bytes, both from zero. -/
structure Position where
  line : Nat
  column : Nat
  deriving DecidableEq, Repr

namespace Position

/-- Positions come in the order of their lines, then of their columns. -/
def le (p q : Position) : Bool := p.line < q.line || p.line == q.line && p.column ≤ q.column

instance : LE Position := ⟨fun p q => p.le q⟩

instance (p q : Position) : Decidable (p ≤ q) := inferInstanceAs (Decidable (p.le q = true))

end Position

/-- **Span.** The positions from `start` to `stop`, both included. -/
structure Span where
  start : Position
  stop : Position
  deriving DecidableEq, Repr

/-- Whether a position lies in a span. -/
def Span.contains (s : Span) (p : Position) : Bool := s.start ≤ p && p ≤ s.stop

/-- **Line index.** The starts of the lines of a text, and its width. -/
structure LineIndex where
  starts : List Nat
  width : Nat
  deriving DecidableEq, Repr

namespace LineIndex

def ofText (t : Text) : LineIndex := ⟨t.lineStarts, t.width⟩

def lineCount (ix : LineIndex) : Nat := ix.starts.length

/-- The position of an offset: its line is the last one that starts at or before it. Offsets past the
end have the position of the end. -/
def position (ix : LineIndex) (offset : Nat) : Position :=
  let o := min offset ix.width
  let reached := ix.starts.takeWhile (· ≤ o)
  ⟨reached.length - 1, o - reached.getLast?.getD 0⟩

/-- The span of a range, between the positions of its two ends. -/
def span (ix : LineIndex) (r : Range) : Span := ⟨ix.position r.start, ix.position r.stop⟩

/-- The offset of a position, if the line exists and the offset does not pass the end of the text. A
column that leads past the last offset comes out where counting from zero again takes it. -/
def offset? (ix : LineIndex) (p : Position) : Option Nat :=
  match ix.starts[p.line]? with
  | some start =>
    let o := start + p.column
    if o ≤ ix.width then some o
    else if Offset.wrap o ≤ ix.width then some (Offset.wrap o)
    else none
  | none => none

end LineIndex

end IncrementalSyntax

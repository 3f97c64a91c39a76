import IncrementalSyntax.Text.Basic

/-!
# Change sets

A change replaces a range of a text. A change set holds changes in the order of their ranges, all of
which speak of the text before any of them is made, so the set replaces all ranges at once. Two changes
may touch, but not overlap.

## Main definitions

* `Change`, `ChangeSet`: one replacement, and replacements in order
* `ChangeSet.ofList`: the one way to make a change set out of several changes
* `ChangeSet.spans`: where each replaced range stands in the new text
* `ChangeSet.storedSpans`: the same ranges as they are stored
* `ChangeSet.applyTo`: the new text
* `TextError`: what can be wrong with a change set or a pair of snapshots
-/

namespace IncrementalSyntax

/-- **Text error.** Why a change set is refused, cannot be applied or cannot be recovered. -/
inductive TextError where
  /-- The change with this index starts before its predecessor ends. -/
  | unordered (index : Nat)
  /-- The range reaches past the end of a text of this length. -/
  | outOfBounds (range : Range) (length : Nat)
  /-- An end of the range lies inside a character. -/
  | notBoundary (range : Range)
  /-- The snapshot of version `new` does not come from the one of version `old`. -/
  | stale (old new : Nat)
  deriving DecidableEq, Repr

/-- The two offsets of a range with two dots between them. -/
def Range.render (r : Range) : String := s!"{r.start}..{r.stop}"

/-- The wording of an error. -/
def TextError.message : TextError → String
  | unordered index => s!"change {index} starts before the end of the previous change"
  | outOfBounds range length =>
    s!"change {range.render} is out of bounds for text of length {length}"
  | notBoundary range => s!"change {range.render} does not fall on character boundaries"
  | stale old new => s!"snapshot version {new} is not derived from version {old}"

/-- **Change.** The characters of `range` become `newText`. -/
structure Change where
  range : Range
  newText : Text
  deriving DecidableEq, Repr

namespace Change

def newWidth (c : Change) : Nat := Text.width c.newText

/-- How many bytes longer the text gets. -/
def delta (c : Change) : Int := c.newWidth - c.range.length

/-- The second change starts where the first one ends, or later. -/
def Precedes (a b : Change) : Prop := a.range.stop ≤ b.range.start

instance (a b : Change) : Decidable (Precedes a b) := inferInstanceAs (Decidable (_ ≤ _))

end Change

/-- Each change precedes the next one. -/
def Ordered : List Change → Prop
  | a :: b :: rest => a.Precedes b ∧ Ordered (b :: rest)
  | _ => True

instance decidableOrdered : (cs : List Change) → Decidable (Ordered cs)
  | [] => .isTrue trivial
  | [_] => .isTrue trivial
  | a :: b :: rest =>
    have := decidableOrdered (b :: rest)
    inferInstanceAs (Decidable (a.Precedes b ∧ Ordered (b :: rest)))

/-- The index of the first change that does not follow its predecessor; `index` is that of the head. -/
def firstUnordered (index : Nat) : List Change → Option Nat
  | a :: b :: rest =>
    if a.Precedes b then firstUnordered (index + 1) (b :: rest) else some (index + 1)
  | _ => none

theorem firstUnordered_eq_none_iff {cs : List Change} {index : Nat} :
    firstUnordered index cs = none ↔ Ordered cs := by
  fun_induction firstUnordered index cs with
  | case1 index a b rest h ih => simp [Ordered, h, ih]
  | case2 index a b rest h => simp [Ordered, h]
  | case3 index cs h =>
    unfold Ordered
    split
    · exact absurd rfl (h _ _ _)
    · simp

/-- **Change set.** Changes in order, made at once. -/
structure ChangeSet where
  changes : List Change
  ordered : Ordered changes := by trivial
  deriving DecidableEq, Repr

namespace ChangeSet

/-- No change. -/
def empty : ChangeSet := ⟨[], trivial⟩

instance : Inhabited ChangeSet := ⟨empty⟩

def single (c : Change) : ChangeSet := ⟨[c], trivial⟩

/-- The set of the given changes; refused at the first one that does not follow its predecessor. -/
def ofList (cs : List Change) : Except TextError ChangeSet :=
  match h : firstUnordered 0 cs with
  | some index => .error (.unordered index)
  | none => .ok ⟨cs, firstUnordered_eq_none_iff.1 h⟩

/-- The ranges of changes in the old text, each with the range of its new text in the new one. The old
text has been passed up to `oldEnd`, which stands at `newEnd` in the new text. -/
def spansFrom (oldEnd newEnd : Nat) : List Change → List (Range × Range)
  | [] => []
  | c :: cs =>
    let start := newEnd + (c.range.start - oldEnd)
    (c.range, ⟨start, c.newWidth⟩) :: spansFrom c.range.stop (start + c.newWidth) cs

/-- Each replaced range with the range of its new text in the new text. -/
def spans (set : ChangeSet) : List (Range × Range) := spansFrom 0 0 set.changes

/-- The spans as they are stored. Changes that are impossible in every text have spans too, so a new
range may start behind the last offset. -/
def storedSpans (set : ChangeSet) : List (Range × Range) :=
  set.spans.map fun span => (span.1, span.2.wrap)

/-- Spans that start at offsets are stored as they are. -/
theorem storedSpans_eq_spans {set : ChangeSet} (h : ∀ span ∈ set.spans, span.2.start < Offset.limit) :
    set.storedSpans = set.spans := by
  refine (List.map_congr_left fun span hs => ?_).trans (List.map_id set.spans)
  simp [Range.wrap_of_lt (h span hs)]

/-- What makes a change impossible in a text, if anything does. -/
def obstacle? (t : Text) (c : Change) : Option TextError :=
  if Text.width t < c.range.stop then some (.outOfBounds c.range (Text.width t))
  else if t.isBoundary c.range.start && t.isBoundary c.range.stop then none
  else some (.notBoundary c.range)

/-- The text from `oldEnd` on with the given changes made. -/
def replaceFrom (t : Text) (oldEnd : Nat) : List Change → Text
  | [] => t.after oldEnd
  | c :: cs =>
    t.between oldEnd c.range.start ++ c.newText ++ replaceFrom t c.range.stop cs

/-- The text with all changes made at once; an error if one of them is impossible. -/
def applyTo (set : ChangeSet) (t : Text) : Except TextError Text :=
  match set.changes.findSome? (obstacle? t) with
  | some e => .error e
  | none => .ok (replaceFrom t 0 set.changes)

end ChangeSet

end IncrementalSyntax

/-!
# Texts and byte offsets

A text is the list of its characters. Every offset, width and column of this library counts the
bytes of the UTF-8 encoding, so an offset names a place between two characters only if it is the
width of a prefix of the text. The library counts without a bound. Where an offset is
stored it has 32 bits, and the number that is stored for it has a definition of its own.

## Main definitions

* `Text.width`: the number of bytes of a text
* `Text.splitAt?`: the two parts of a text at an offset, if the offset falls between characters
* `Offset.wrap`: a number as it is stored for an offset
* `Range`: a stretch of a text, given by its start and its length
-/

namespace IncrementalSyntax

/-- **Text.** The characters of a source text in order. -/
abbrev Text := List Char

namespace Text

/-- **Width.** The number of bytes of the UTF-8 encoding. -/
def width : Text → Nat
  | [] => 0
  | c :: t => c.utf8Size + width t

@[simp] theorem width_nil : width [] = 0 := rfl

@[simp] theorem width_cons (c : Char) (t : Text) : width (c :: t) = c.utf8Size + width t := rfl

@[simp] theorem width_append (s t : Text) : width (s ++ t) = width s + width t := by
  induction s with
  | nil => simp
  | cons c s ih => simp [ih, Nat.add_assoc]

/-- The parts of a text before and after a byte offset; `none` if the offset lies inside a character
or past the end. -/
def splitAt? : Text → Nat → Option (Text × Text)
  | t, 0 => some ([], t)
  | [], _ + 1 => none
  | c :: t, n + 1 =>
    if c.utf8Size ≤ n + 1 then
      (splitAt? t (n + 1 - c.utf8Size)).map fun p => (c :: p.1, p.2)
    else none

/-- The two parts put together are the text, and the first is as wide as the offset says. -/
theorem splitAt?_eq_some {t a b : Text} {n : Nat} (h : splitAt? t n = some (a, b)) :
    t = a ++ b ∧ width a = n := by
  induction t generalizing n a with
  | nil =>
    cases n with
    | zero => simp [splitAt?] at h; simp [h]
    | succ n => simp [splitAt?] at h
  | cons c t ih =>
    cases n with
    | zero => simp [splitAt?] at h; simp [h.1, h.2]
    | succ n =>
      simp only [splitAt?] at h
      split at h
      · obtain ⟨p, hp, hq⟩ := Option.map_eq_some_iff.1 h
        cases hq
        obtain ⟨rfl, hw⟩ := ih hp
        exact ⟨rfl, by simp [hw]; omega⟩
      · cases h

/-- An offset between two characters, before the first or after the last one. -/
def isBoundary (t : Text) (offset : Nat) : Bool := (splitAt? t offset).isSome

/-- The text before an offset; all of it for an offset that is no boundary. -/
def before (t : Text) (offset : Nat) : Text := ((splitAt? t offset).map Prod.fst).getD t

/-- The text from an offset on; nothing for an offset that is no boundary. -/
def after (t : Text) (offset : Nat) : Text := ((splitAt? t offset).map Prod.snd).getD []

/-- The text between two offsets. -/
def between (t : Text) (start stop : Nat) : Text := before (after t start) (stop - start)

/-- Line feed and carriage return, the two characters that end a line. -/
def isLineBreak (c : Char) : Bool := c == '\n' || c == '\r'

/-- A text whose last character ends a line. -/
def endsLine (t : Text) : Bool := t.getLast?.any isLineBreak

end Text

namespace Offset

/-- How many offsets can be stored. -/
def limit : Nat := 0x100000000

/-- The offset that is stored for a number: behind the last offset, counting starts again from zero. -/
def wrap (n : Nat) : Nat := n % limit

theorem wrap_of_lt {n : Nat} (h : n < limit) : wrap n = n := Nat.mod_eq_of_lt h

end Offset

/-- **Range.** The bytes from `start` on, `length` of them. -/
structure Range where
  start : Nat
  length : Nat
  deriving DecidableEq, Repr, Inhabited

namespace Range

/-- The offset right after the last byte. -/
def stop (r : Range) : Nat := r.start + r.length

/-- The range between two offsets, empty at the first if they come in the wrong order. -/
def between (start stop : Nat) : Range := ⟨start, stop - start⟩

/-- The range moved to the right. -/
def shift (r : Range) (amount : Nat) : Range := { r with start := r.start + amount }

/-- The range as it is stored, by its start and its length. -/
def wrap (r : Range) : Range := { r with start := Offset.wrap r.start }

theorem wrap_of_lt {r : Range} (h : r.start < Offset.limit) : r.wrap = r := by
  simp [wrap, Offset.wrap_of_lt h]

theorem start_le_stop (r : Range) : r.start ≤ r.stop := Nat.le_add_right _ _

end Range

end IncrementalSyntax

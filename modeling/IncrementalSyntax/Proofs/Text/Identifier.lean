import Mathlib
import IncrementalSyntax.Text.Blank
import IncrementalSyntax.Text.Identifier

/-!
# What is taken for granted of identifiers

Unicode grows, and the tables of the characters that identifiers are made of grow with it. What is proved about
scanning rests on a few facts about the two classes alone: what they hold of ASCII, that a character that begins an
identifier may stand inside one as well, and that no blank begins one. The tables are one case of this.

## Main definitions

* `IdentifierClasses`: two classes of characters with these facts

## Main results

* `identifierClasses`: the classes that the tables give
* `isWordStart_of_ascii`, `isWordStart_of_isBlank`: which characters begin no word
* `isIdentifierPart_of_isWordStart`: what begins a word may stand inside one
-/

namespace IncrementalSyntax

/-- **Identifier classes.** The characters that begin an identifier and those that go on with it. Past ASCII
nothing is said of them but how the two classes lie to each other and to the blanks. -/
structure IdentifierClasses (start part : Char → Bool) : Prop where
  start_of_ascii : ∀ {c : Char}, c.toNat < 128 → start c = c.isAlpha
  part_of_ascii : ∀ {c : Char}, c.toNat < 128 → part c = (c.isAlphanum || c == '_')
  part_of_start : ∀ {c : Char}, start c = true → part c = true
  start_of_isBlank : ∀ {c : Char}, isBlank c = true → start c = false

/-- The blank characters, one by one. -/
theorem exists_of_isBlank {c : Char} (h : isBlank c = true) :
    ∃ n ∈ [9, 10, 11, 12, 13, 0x20, 0x85, 0xa0, 0x1680, 0x2000, 0x2001, 0x2002, 0x2003, 0x2004, 0x2005, 0x2006,
      0x2007, 0x2008, 0x2009, 0x200a, 0x2028, 0x2029, 0x202f, 0x205f, 0x3000], c = Char.ofNat n := by
  refine ⟨c.toNat, ?_, (Char.ofNat_toNat c).symm⟩
  simp only [isBlank, Bool.or_eq_true, Bool.and_eq_true, decide_eq_true_eq, beq_iff_eq] at h
  simp only [List.mem_cons, List.not_mem_nil, or_false]
  omega

theorem toNat_lt_of_isAlphanum {c : Char} (h : c.isAlphanum = true) : c.toNat < 128 := by
  simp only [Char.isAlphanum, Char.isAlpha, Char.isUpper, Char.isLower, Char.isDigit, Bool.or_eq_true,
    Bool.and_eq_true, decide_eq_true_eq, UInt32.le_iff_toNat_le] at h
  rcases h with (⟨_, h⟩ | ⟨_, h⟩) | ⟨_, h⟩ <;> exact Nat.lt_of_le_of_lt h (by decide)

/-- The tables give identifier classes. Nothing else reads them. -/
theorem identifierClasses : IdentifierClasses isIdentifierStart isIdentifierPart where
  start_of_ascii hc := if_pos hc
  part_of_ascii hc := if_pos hc
  part_of_start {c} h := by
    unfold isIdentifierStart at h
    unfold isIdentifierPart
    split at h
    · next hc => rw [if_pos hc, Char.isAlphanum, h, Bool.true_or, Bool.true_or]
    · next hc => rw [if_neg hc, h, Bool.true_or]
  start_of_isBlank h := by
    obtain ⟨n, hn, rfl⟩ := exists_of_isBlank h
    revert n
    decide +kernel

namespace IdentifierClasses

variable {start part : Char → Bool} {c : Char}

theorem part_lowLine (h : IdentifierClasses start part) : part '_' = true :=
  (h.part_of_ascii (by decide)).trans (by decide)

/-- The letters of ASCII begin an identifier. -/
theorem start_of_isAlpha (h : IdentifierClasses start part) (hc : c.isAlpha = true) : start c = true := by
  rw [h.start_of_ascii (toNat_lt_of_isAlphanum (by rw [Char.isAlphanum, hc, Bool.true_or])), hc]

/-- The letters and digits of ASCII may stand inside an identifier. -/
theorem part_of_isAlphanum (h : IdentifierClasses start part) (hc : c.isAlphanum = true) : part c = true := by
  rw [h.part_of_ascii (toNat_lt_of_isAlphanum hc), hc, Bool.true_or]

theorem part_of_isLineBreak (h : IdentifierClasses start part) (hc : Text.isLineBreak c = true) :
    part c = false := by
  have hc : c = '\n' ∨ c = '\r' := by simpa [Text.isLineBreak] using hc
  rcases hc with rfl | rfl
  · exact (h.part_of_ascii (by decide)).trans (by decide)
  · exact (h.part_of_ascii (by decide)).trans (by decide)

end IdentifierClasses

section Words

variable {c : Char}

/-- Which characters of ASCII begin a word. -/
theorem isWordStart_of_ascii (hc : c.toNat < 128) : isWordStart c = (c == '_' || c.isAlpha) :=
  congrArg (c == '_' || ·) (identifierClasses.start_of_ascii hc)

/-- A word begins with no other character of ASCII. -/
theorem ne_of_isWordStart {d : Char} (hc : isWordStart c = true) (hd : d.toNat < 128)
    (h : (d == '_' || d.isAlpha) = false) : c ≠ d := by
  rintro rfl
  rw [isWordStart_of_ascii hd, h] at hc
  cases hc

theorem isWordStart_of_isBlank (h : isBlank c = true) : isWordStart c = false := by
  have hlow : (c == '_') = false := by
    rw [beq_eq_false_iff_ne]
    rintro rfl
    cases h
  rw [isWordStart, hlow, identifierClasses.start_of_isBlank h, Bool.false_or]

/-- The low line goes on with an identifier as it is, so it need not be added to make words. -/
theorem isWordPart_eq (c : Char) : isWordPart c = isIdentifierPart c := by
  by_cases hc : c = '_'
  · subst hc
    rw [isWordPart, identifierClasses.part_lowLine, Bool.or_true]
  · rw [isWordPart, beq_eq_false_iff_ne.2 hc, Bool.false_or]

theorem isWordPart_of_ascii (hc : c.toNat < 128) : isWordPart c = (c.isAlphanum || c == '_') :=
  (isWordPart_eq c).trans (identifierClasses.part_of_ascii hc)

theorem isIdentifierPart_of_isWordStart (h : isWordStart c = true) : isIdentifierPart c = true := by
  rcases (Bool.or_eq_true _ _).mp h with hc | hc
  · rw [beq_iff_eq] at hc
    exact hc ▸ identifierClasses.part_lowLine
  · exact identifierClasses.part_of_start hc

end Words

end IncrementalSyntax

import IncrementalSyntax.Proofs.Text.Split
import IncrementalSyntax.Text.LineIndex

/-!
# The lines of a text

The index of the lines of a text is built in one run over the text and then searched. Here its
positions are compared with the line terminators themselves. Which offsets end a line is said of the
characters on both sides of an offset, without a run over the text: a carriage return ends a line
unless a line feed follows it, so the two together end one line, and they end it behind the line feed.

## Main definitions

* `Text.endsLineAt`: the offsets at which a line terminator ends
* `Text.lineEndsUpTo`: those of them that do not pass an offset
* `Position.Before`: the order of positions, by lines and then by columns

## Main results

* `Text.mem_lineEnds`: the run over the text finds every terminator, and nothing else
* `LineIndex.position_eq`: the line of a position counts terminators, the column starts at the last one
* `LineIndex.position_spec`: positions are in the order of the offsets they come from, lead back to
  them, and lie in a span when the offsets lie in the range
-/

namespace IncrementalSyntax

namespace Text

/-! ## Where lines end -/

/-- **End of a line.** An offset right behind a line feed, or right behind a carriage return that no
line feed follows. An offset inside a character ends no line. -/
def endsLineAt (t : Text) (offset : Nat) : Bool :=
  (t.splitAt? offset).any fun p =>
    p.1.getLast? == some '\n' || p.1.getLast? == some '\r' && p.2.head? != some '\n'

/-- The ends of the lines of a text that do not pass an offset, in order. -/
def lineEndsUpTo (t : Text) (offset : Nat) : List Nat := (List.range (offset + 1)).filter t.endsLineAt

/-- The start of the line of an offset: the last end of a line that does not pass it, or the start of
the text. -/
def lineStartOf (t : Text) (offset : Nat) : Nat := (t.lineEndsUpTo offset).getLast?.getD 0

theorem endsLineAt_iff {t : Text} {o : Nat} :
    t.endsLineAt o = true ↔ ∃ a b, t = a ++ b ∧ width a = o ∧
      (a.getLast? = some '\n' ∨ a.getLast? = some '\r' ∧ b.head? ≠ some '\n') := by
  simp only [endsLineAt, Option.any_eq_true_iff_get, Option.isSome_iff_exists]
  constructor
  · rintro ⟨⟨⟨a, b⟩, hs⟩, h⟩
    obtain ⟨ht, hw⟩ := splitAt?_eq_some hs
    exact ⟨a, b, ht, hw, by simpa [hs] using h⟩
  · rintro ⟨a, b, ht, hw, h⟩
    have hs := splitAt?_eq_some_iff.2 ⟨ht, hw⟩
    exact ⟨⟨_, hs⟩, by simpa [hs] using h⟩

@[simp] theorem endsLineAt_nil (o : Nat) : endsLineAt [] o = false := by
  rw [← Bool.not_eq_true, endsLineAt_iff]
  rintro ⟨a, b, h, -, ha⟩
  obtain ⟨rfl, rfl⟩ : a = [] ∧ b = [] := by simpa using h.symm
  simp at ha

/-- The first character of a text may end the first line; every other line ends where one ends in the
rest of the text. -/
theorem endsLineAt_cons {c : Char} {t : Text} {o : Nat} :
    endsLineAt (c :: t) o = true ↔
      (o = c.utf8Size ∧ (c = '\n' ∨ c = '\r' ∧ t.head? ≠ some '\n')) ∨
      ∃ o', t.endsLineAt o' = true ∧ o = c.utf8Size + o' := by
  simp only [endsLineAt_iff]
  constructor
  · rintro ⟨a, b, ht, rfl, h⟩
    match a, ht, h with
    | [], _, h => simp at h
    | [d], ht, h =>
      obtain ⟨rfl, rfl⟩ : c = d ∧ t = b := by simpa using ht
      exact .inl ⟨by simp, by simpa using h⟩
    | d :: d' :: a, ht, h =>
      obtain ⟨rfl, rfl⟩ : c = d ∧ t = d' :: a ++ b := by simpa using ht
      exact .inr ⟨_, ⟨d' :: a, b, rfl, rfl, by simpa using h⟩, by simp⟩
  · rintro (⟨rfl, h⟩ | ⟨_, ⟨a, b, rfl, rfl, h⟩, rfl⟩)
    · exact ⟨[c], t, rfl, by simp, by simpa using h⟩
    · refine ⟨c :: a, b, rfl, by simp, ?_⟩
      cases a with
      | nil => simp at h
      | cons d a => simpa using h

theorem pos_of_endsLineAt {t : Text} {o : Nat} (h : t.endsLineAt o = true) : 0 < o := by
  obtain ⟨a, b, -, rfl, ha⟩ := endsLineAt_iff.1 h
  refine width_pos_of_ne_nil ?_
  rintro rfl
  simp at ha

/-- Of a carriage return and a line feed behind it, only the line feed ends a line. -/
theorem endsLineAt_crlf {t : Text} {o : Nat} :
    endsLineAt ('\r' :: '\n' :: t) o = true ↔ o = 2 ∨ ∃ o', t.endsLineAt o' = true ∧ o = 2 + o' := by
  have hr : '\r'.utf8Size = 1 := by decide
  have hn : '\n'.utf8Size = 1 := by decide
  simp only [endsLineAt_cons, hr, hn, List.head?_cons, ne_eq, not_true_eq_false, and_false, true_or,
    and_true, or_false, false_or, Char.reduceEq]
  constructor
  · rintro ⟨_, rfl | ⟨o', ho', rfl⟩, rfl⟩
    · exact .inl rfl
    · exact .inr ⟨o', ho', by omega⟩
  · rintro (rfl | ⟨o', ho', rfl⟩)
    · exact ⟨1, .inl rfl, rfl⟩
    · exact ⟨1 + o', .inr ⟨o', ho', rfl⟩, by omega⟩

/-- The run over a text finds exactly the ends of its lines. -/
theorem mem_lineEnds {t : Text} {base e : Nat} :
    e ∈ t.lineEnds base ↔ ∃ o, t.endsLineAt o = true ∧ e = base + o := by
  fun_induction lineEnds base t with
  | case1 base => simp
  | case2 base t ih =>
    simp only [List.mem_cons, ih, endsLineAt_crlf]
    grind
  | case3 base c t hcrlf hbreak ih =>
    have hc : c = '\n' ∨ c = '\r' ∧ t.head? ≠ some '\n' := by
      rcases (by simpa [isLineBreak] using hbreak : c = '\n' ∨ c = '\r') with rfl | rfl
      · exact .inl rfl
      · refine .inr ⟨rfl, fun h => ?_⟩
        cases t with
        | nil => simp at h
        | cons d t => exact hcrlf t rfl (by simpa using h)
    simp only [List.mem_cons, ih, endsLineAt_cons]
    grind
  | case4 base c t hcrlf hbreak ih =>
    have hc : c ≠ '\n' ∧ c ≠ '\r' := by simpa [isLineBreak] using hbreak
    simp only [ih, endsLineAt_cons]
    grind

/-- The run over a text finds the ends of its lines in order. -/
theorem pairwise_lineEnds (t : Text) (base : Nat) : (t.lineEnds base).Pairwise (· < ·) := by
  have hlt : ∀ {base : Nat} {t : Text}, ∀ e ∈ t.lineEnds base, base < e := by
    intro base t e he
    obtain ⟨o, ho, rfl⟩ := mem_lineEnds.1 he
    have := pos_of_endsLineAt ho
    omega
  fun_induction lineEnds base t with
  | case1 base => exact .nil
  | case2 base t ih => exact .cons hlt ih
  | case3 base c t hcrlf hbreak ih => exact .cons hlt ih
  | case4 base c t hcrlf hbreak ih => exact ih

/-! ## Up to an offset -/

theorem mem_lineEndsUpTo {t : Text} {o e : Nat} :
    e ∈ t.lineEndsUpTo o ↔ e ≤ o ∧ t.endsLineAt e = true := by
  simp [lineEndsUpTo]

theorem pairwise_lineEndsUpTo (t : Text) (o : Nat) : (t.lineEndsUpTo o).Pairwise (· < ·) :=
  List.pairwise_lt_range.filter _

theorem lineStartOf_le (t : Text) (o : Nat) : t.lineStartOf o ≤ o := by
  rw [lineStartOf]
  cases h : (t.lineEndsUpTo o).getLast? with
  | none => exact Nat.zero_le o
  | some e => exact (mem_lineEndsUpTo.1 (List.mem_of_getLast? h)).1

/-- Up to a later offset there are the same ends of lines, and maybe more. -/
theorem exists_lineEndsUpTo_eq_append (t : Text) {o o' : Nat} (h : o ≤ o') :
    ∃ more, t.lineEndsUpTo o' = t.lineEndsUpTo o ++ more := by
  obtain ⟨d, rfl⟩ := Nat.exists_eq_add_of_le h
  exact ⟨_, by rw [lineEndsUpTo, Nat.add_right_comm, List.range_add, List.filter_append]; rfl⟩

/-- Of ascending numbers, those before the first one that passes a bound are all that do not pass it. -/
theorem mem_takeWhile_le {l : List Nat} (hl : l.Pairwise (· < ·)) {o e : Nat} :
    e ∈ l.takeWhile (· ≤ o) ↔ e ∈ l ∧ e ≤ o := by
  induction hl with
  | nil => simp
  | @cons a l ha hl ih =>
    by_cases h : a ≤ o
    · simp only [List.takeWhile_cons, h, decide_true, if_true, List.mem_cons, ih]
      grind
    · simp only [List.takeWhile_cons, h, decide_false, Bool.false_eq_true, if_false, List.mem_cons]
      grind

/-- The lines that have begun at an offset are the first one and those behind the terminators that end
up to there. -/
theorem takeWhile_lineStarts (t : Text) (o : Nat) :
    t.lineStarts.takeWhile (· ≤ o) = 0 :: t.lineEndsUpTo o := by
  have hends : (t.lineEnds 0).takeWhile (· ≤ o) = t.lineEndsUpTo o := by
    refine List.Pairwise.eq_of_mem_iff ((pairwise_lineEnds t 0).sublist (List.takeWhile_sublist _))
      (pairwise_lineEndsUpTo t o) fun e => ?_
    rw [mem_takeWhile_le (pairwise_lineEnds t 0), mem_lineEnds, mem_lineEndsUpTo]
    grind
  simp [lineStarts, hends]

end Text

/-! ## Positions in order -/

namespace Position

/-- **Order of positions.** A position on an earlier line comes before one on a later line, and on one
line the smaller column comes first. -/
def Before (p q : Position) : Prop := p.line < q.line ∨ p.line = q.line ∧ p.column < q.column

theorem le_iff {p q : Position} : p ≤ q ↔ p.Before q ∨ p = q := by
  obtain ⟨l, c⟩ := p
  obtain ⟨l', c'⟩ := q
  change le _ _ = true ↔ _
  simp only [le, Before, Bool.or_eq_true, Bool.and_eq_true, decide_eq_true_eq, beq_iff_eq, mk.injEq]
  omega

theorem Before.not_le {p q : Position} (h : p.Before q) : ¬ q ≤ p := by
  rw [le_iff]
  rintro (hq | rfl)
  · simp only [Before] at h hq
    omega
  · simp only [Before] at h
    omega

end Position

namespace LineIndex

/-- The line of a position counts the terminators that end up to the offset, and its column counts the
bytes since the last of them. -/
theorem position_eq {t : Text} {o : Nat} (h : o ≤ t.width) :
    (ofText t).position o = ⟨(t.lineEndsUpTo o).length, o - t.lineStartOf o⟩ := by
  have hmin : min o (ofText t).width = o := Nat.min_eq_left h
  have hreached : (ofText t).starts.takeWhile (· ≤ o) = 0 :: t.lineEndsUpTo o :=
    Text.takeWhile_lineStarts t o
  simp only [position, hmin, hreached, Text.lineStartOf, List.length_cons, Nat.add_sub_cancel,
    List.getLast?_cons, Option.getD_some]

/-- Offsets past the end of the text have the position of the end. -/
theorem position_of_width_le {t : Text} {o : Nat} (h : t.width ≤ o) :
    (ofText t).position o = (ofText t).position t.width := by
  have hmin : min o (ofText t).width = min t.width (ofText t).width := by
    simp only [ofText]
    omega
  simp only [position, hmin]

theorem before_of_lt {t : Text} {o o' : Nat} (h : o < o') (ho' : o' ≤ t.width) :
    ((ofText t).position o).Before ((ofText t).position o') := by
  obtain ⟨more, hmore⟩ := t.exists_lineEndsUpTo_eq_append h.le
  have hstart := t.lineStartOf_le o
  rw [position_eq (h.le.trans ho'), position_eq ho']
  cases more with
  | nil =>
    have heq : t.lineEndsUpTo o' = t.lineEndsUpTo o := by simpa using hmore
    refine .inr ⟨by rw [heq], ?_⟩
    have : t.lineStartOf o' = t.lineStartOf o := by rw [Text.lineStartOf, heq, Text.lineStartOf]
    dsimp only
    omega
  | cons e more =>
    refine .inl ?_
    simp [hmore]

theorem position_le_iff {t : Text} {o o' : Nat} (ho : o ≤ t.width) (ho' : o' ≤ t.width) :
    (ofText t).position o ≤ (ofText t).position o' ↔ o ≤ o' := by
  constructor
  · intro h
    by_contra hlt
    exact (before_of_lt (by omega) ho).not_le h
  · intro h
    rcases h.lt_or_eq with hlt | rfl
    · exact Position.le_iff.2 (.inl (before_of_lt hlt ho'))
    · exact Position.le_iff.2 (.inr rfl)

/-- The line that is reached at an offset starts where the index says that this line starts. -/
theorem starts_getElem? (t : Text) (o : Nat) :
    (ofText t).starts[(t.lineEndsUpTo o).length]? = some (t.lineStartOf o) := by
  have hsplit : (ofText t).starts = (0 :: t.lineEndsUpTo o) ++ t.lineStarts.dropWhile (· ≤ o) := by
    rw [← Text.takeWhile_lineStarts, List.takeWhile_append_dropWhile]
    rfl
  have hlast : (0 :: t.lineEndsUpTo o)[(t.lineEndsUpTo o).length]? = some (t.lineStartOf o) := by
    rw [Text.lineStartOf, ← List.getLast?_cons, List.getLast?_eq_getElem?, List.length_cons,
      Nat.add_sub_cancel]
  rw [hsplit, List.getElem?_append_left (by simp), hlast]

theorem offset?_position {t : Text} {o : Nat} (h : o ≤ t.width) :
    (ofText t).offset? ((ofText t).position o) = some o := by
  have hsum : t.lineStartOf o + (o - t.lineStartOf o) = o := Nat.add_sub_cancel' (t.lineStartOf_le o)
  have hle : o ≤ (ofText t).width := h
  simp only [offset?, position_eq h, starts_getElem?, hsum, if_pos hle]

theorem span_contains_iff {t : Text} {r : Range} {o : Nat} (hr : r.stop ≤ t.width) (ho : o ≤ t.width) :
    ((ofText t).span r).contains ((ofText t).position o) = true ↔ r.start ≤ o ∧ o ≤ r.stop := by
  rw [Span.contains, Bool.and_eq_true, decide_eq_true_eq, decide_eq_true_eq]
  exact and_congr (position_le_iff (r.start_le_stop.trans hr) ho) (position_le_iff ho hr)

/-- **The positions of a text.** They are strictly in the order of the offsets up to the end of the text,
and stay there. The line of a position is the number of terminators that end at or before the offset,
its column the distance from the last one of them, or from the start of the text. A position leads back
to its offset, and it lies in the span of a range exactly when the offset is between the two ends. -/
theorem position_spec (t : Text) :
    (∀ o o', o < o' → o' ≤ t.width → ((ofText t).position o).Before ((ofText t).position o')) ∧
    (∀ o, t.width ≤ o → (ofText t).position o = (ofText t).position t.width) ∧
    (∀ o ≤ t.width,
      ((ofText t).position o).line = (t.lineEndsUpTo o).length ∧
      (t.lineEndsUpTo o).getLast?.getD 0 + ((ofText t).position o).column = o ∧
      (ofText t).offset? ((ofText t).position o) = some o) ∧
    ∀ r : Range, r.stop ≤ t.width → ∀ o ≤ t.width,
      (((ofText t).span r).contains ((ofText t).position o) = true ↔ r.start ≤ o ∧ o ≤ r.stop) := by
  refine ⟨fun o o' => before_of_lt, fun o => position_of_width_le, fun o ho => ⟨?_, ?_, ?_⟩,
    fun r hr o ho => span_contains_iff hr ho⟩
  · rw [position_eq ho]
  · rw [position_eq ho]
    exact Nat.add_sub_cancel' (t.lineStartOf_le o)
  · exact offset?_position ho

/-- A line that ends with both characters, one that ends with a line feed, an empty one that ends with a
carriage return, and one that ends with the text. -/
theorem position_spec_mixed :
    ((ofText "a\r\nb\n\rc\r".toList).position 2).Before ((ofText "a\r\nb\n\rc\r".toList).position 3) ∧
    (ofText "a\r\nb\n\rc\r".toList).position 9 = (ofText "a\r\nb\n\rc\r".toList).position 8 ∧
    ((ofText "a\r\nb\n\rc\r".toList).position 7).line = 3 ∧
    6 + ((ofText "a\r\nb\n\rc\r".toList).position 7).column = 7 ∧
    (ofText "a\r\nb\n\rc\r".toList).offset? ((ofText "a\r\nb\n\rc\r".toList).position 2) = some 2 ∧
    (((ofText "a\r\nb\n\rc\r".toList).span ⟨2, 3⟩).contains
      ((ofText "a\r\nb\n\rc\r".toList).position 5) = true ↔ 2 ≤ 5 ∧ 5 ≤ 5) := by
  obtain ⟨hlt, hend, hat, hspan⟩ := position_spec "a\r\nb\n\rc\r".toList
  obtain ⟨hline, hcolumn, -⟩ := hat 7 (by decide)
  have hends : Text.lineEndsUpTo "a\r\nb\n\rc\r".toList 7 = [3, 5, 6] := by decide
  rw [hends] at hline hcolumn
  exact ⟨hlt 2 3 (by decide) (by decide), hend 9 (by decide), hline, hcolumn,
    (hat 2 (by decide)).2.2, hspan ⟨2, 3⟩ (by decide) 5 (by decide)⟩

end LineIndex

end IncrementalSyntax

import IncrementalSyntax.Proofs.Stream.Mapped
import IncrementalSyntax.Proofs.Token.Bytes

/-!
# Clean stretches, byte by byte

A place of the new text need not stand between two characters to have an old offset. Behind any two places that
correspond, the two texts have the same bytes as far as no change begins, and if no change begins any more they have the
same bytes to their ends. A clean stretch lies in front of all changes behind it, with all that the scanner looks at,
so the new text holds the same there. Where the scanner looks for the end of the old text, the new one ends too.

## Main definitions

* `Text.AgreeFrom`: two texts with the same bytes from two places on

## Main results

* `Edits.agreeFrom`: the texts agree from corresponding places on up to the next change
* `Reuse.oldOffset?_le_width`: an old offset lies in the old text
* `Reuse.lt_of_oldOffset?`: later places have later old offsets
* `Reuse.clean_spec`: a clean stretch holds the same bytes in both texts
-/

namespace IncrementalSyntax

namespace Text

theorem bytes_append (s t : Text) : bytes (s ++ t) = s.bytes ++ t.bytes := List.flatMap_append

/-- **Agreement.** From an offset of each text on, both texts have the same bytes. The common bytes reach up to a limit
in the first text, or to the end of both texts. -/
def AgreeFrom (t t' : Text) (start start' limit : Nat) : Prop :=
  ∃ front front' common rest rest', t.bytes = front ++ (common ++ rest) ∧ t'.bytes = front' ++ (common ++ rest') ∧
    front.length = start ∧ front'.length = start' ∧
    (limit ≤ start + common.length ∨ rest = [] ∧ rest' = [])

namespace AgreeFrom

variable {t t' : Text} {start start' limit : Nat}

/-- Two texts agree from any place in what they have in common. -/
theorem of_common {a a' common rest rest' : Text} {k : Nat} (hk : k ≤ common.width)
    (hlimit : limit ≤ a.width + common.width ∨ rest = [] ∧ rest' = []) :
    AgreeFrom (a ++ (common ++ rest)) (a' ++ (common ++ rest')) (a.width + k) (a'.width + k) limit := by
  have hlength : min k common.width = k := Nat.min_eq_left hk
  have hcut (r : Text) : common.bytes ++ r.bytes = common.bytes.take k ++ (common.bytes.drop k ++ r.bytes) := by
    rw [← List.append_assoc, List.take_append_drop]
  refine ⟨a.bytes ++ common.bytes.take k, a'.bytes ++ common.bytes.take k, common.bytes.drop k, rest.bytes,
    rest'.bytes, ?_, ?_, ?_, ?_, ?_⟩
  · rw [bytes_append, bytes_append, hcut, List.append_assoc]
  · rw [bytes_append, bytes_append, hcut, List.append_assoc]
  · simp [length_bytes, hlength]
  · simp [length_bytes, hlength]
  · rcases hlimit with hlimit | ⟨rfl, rfl⟩
    · refine .inl ?_
      rw [List.length_drop, length_bytes]
      omega
    · exact .inr ⟨rfl, rfl⟩

/-- The bytes up to the limit are the same. -/
theorem take_eq (h : AgreeFrom t t' start start' limit) :
    (t.bytes.drop start).take (limit - start) = (t'.bytes.drop start').take (limit - start) := by
  obtain ⟨front, front', common, rest, rest', ht, ht', rfl, rfl, hlimit⟩ := h
  rw [ht, ht', List.drop_left, List.drop_left]
  rcases hlimit with hlimit | ⟨rfl, rfl⟩
  · have hle : limit - front.length ≤ common.length := by omega
    rw [List.take_append_of_le_length hle, List.take_append_of_le_length hle]
  · rfl

/-- If the limit lies behind the end of the first text, as much is left of the second text as of the first one. -/
theorem width_eq (h : AgreeFrom t t' start start' limit) (hlimit : t.width < limit) :
    t'.width = start' + (t.width - start) := by
  obtain ⟨front, front', common, rest, rest', ht, ht', rfl, rfl, hrest⟩ := h
  have hwidth := congrArg List.length ht
  have hwidth' := congrArg List.length ht'
  simp only [length_bytes, List.length_append] at hwidth hwidth'
  rcases hrest with hle | ⟨rfl, rfl⟩
  · omega
  · simp only [List.length_nil] at hwidth hwidth'
    omega

end AgreeFrom

end Text

/-- **Up to the next change.** From a place of the new text and its old offset on the texts agree, up to a limit that no
change behind the old offset begins in front of. By induction on the changes: the place lies in the gap in front of the
first one, or behind its new text. -/
theorem Edits.agreeFrom {oldEnd newEnd offset start limit : Nat} {cs : List Change} {a a' r r' : Text}
    (h : Edits oldEnd cs r r') (ha : a.width = oldEnd) (ha' : a'.width = newEnd) (hpassed : newEnd ≤ offset)
    (hstart : start ≤ Text.width (a ++ r))
    (hold : Reuse.oldOffsetFrom? oldEnd newEnd offset (ChangeSet.spansFrom oldEnd newEnd cs) = some start)
    (hclean : ∀ c ∈ cs, limit ≤ c.range.start ∨ c.range.stop ≤ start) :
    Text.AgreeFrom (a ++ r) (a' ++ r') start offset limit := by
  induction h generalizing a a' newEnd with
  | done oldEnd t =>
    obtain rfl : oldEnd + (offset - newEnd) = start := Option.some.inj hold
    obtain ⟨k, rfl⟩ := Nat.exists_eq_add_of_le hpassed
    rw [Text.width_append] at hstart
    subst ha ha'
    rw [Nat.add_sub_cancel_left] at hstart ⊢
    have hagree : Text.AgreeFrom (a ++ (t ++ [])) (a' ++ (t ++ [])) (a.width + k) (a'.width + k) limit :=
      .of_common (Nat.le_of_add_le_add_left hstart) (.inr ⟨rfl, rfl⟩)
    rwa [List.append_nil] at hagree
  | @change oldEnd c cs r r' gap cut hgap hcut h ih =>
    have hwidth : c.range.start - oldEnd = gap.width := by omega
    have hstop := c.range.start_le_stop
    rw [ChangeSet.spansFrom, Reuse.oldOffsetFrom?, hwidth] at hold
    dsimp only at hold
    split_ifs at hold with hfront hnew
    · obtain rfl : oldEnd + (offset - newEnd) = start := Option.some.inj hold
      obtain ⟨k, rfl⟩ := Nat.exists_eq_add_of_le hpassed
      subst ha ha'
      rw [Nat.add_sub_cancel_left] at hclean ⊢
      refine Text.AgreeFrom.of_common (by omega) (.inl ?_)
      rcases hclean c List.mem_cons_self with hlimit | hbehind <;> omega
    · -- the change joins what lies in front of both places
      have hold' : Text.width (a ++ (gap ++ cut)) = c.range.stop := by
        rw [Text.width_append, Text.width_append, Range.stop, hcut]
        omega
      have hnew' : Text.width (a' ++ (gap ++ c.newText)) = newEnd + gap.width + c.newWidth := by
        rw [Text.width_append, Text.width_append, Change.newWidth]
        omega
      simpa using ih hold' hnew' (Nat.not_lt.1 hnew) (by simpa using hstart) hold
        (fun d hd => hclean d (List.mem_cons_of_mem _ hd))

/-- An old offset is none behind the end of the old text: the place lies in the gap in front of the first change, or
behind its new text. -/
theorem Edits.oldOffset_le {oldEnd newEnd offset start : Nat} {cs : List Change} {t t' : Text}
    (h : Edits oldEnd cs t t') (hpassed : newEnd ≤ offset) (hle : offset ≤ newEnd + t'.width)
    (hold : Reuse.oldOffsetFrom? oldEnd newEnd offset (ChangeSet.spansFrom oldEnd newEnd cs) = some start) :
    start ≤ oldEnd + t.width := by
  induction h generalizing newEnd with
  | done oldEnd t =>
    obtain rfl : oldEnd + (offset - newEnd) = start := Option.some.inj hold
    omega
  | @change oldEnd c cs t t' gap cut hgap hcut h ih =>
    have hstop : c.range.stop = oldEnd + gap.width + cut.width := by
      rw [Range.stop, hcut]
      omega
    have hwidth : c.range.start - oldEnd = gap.width := by omega
    rw [ChangeSet.spansFrom, Reuse.oldOffsetFrom?, hwidth] at hold
    simp only [Text.width_append] at hle ⊢
    dsimp only at hold
    split_ifs at hold with hfront hnew
    · obtain rfl : oldEnd + (offset - newEnd) = start := Option.some.inj hold
      omega
    · have hrest : offset ≤ newEnd + gap.width + c.newWidth + t'.width := by
        rw [Change.newWidth]
        omega
      have hbehind := ih (Nat.not_lt.1 hnew) hrest hold
      omega

namespace Reuse

variable {r : Reuse} {set : ChangeSet} {new : Text}

/-! ## Old offsets -/

/-- An old offset lies outside of all changes, so it is not the start of text that is replaced. -/
theorem outside_of_oldOffsetFrom? {cs : List Change} (hcs : cs.Pairwise Change.Precedes)
    {oldEnd newEnd offset start : Nat} (hfirst : ∀ c ∈ cs, oldEnd ≤ c.range.start) (hpassed : newEnd ≤ offset)
    (h : oldOffsetFrom? oldEnd newEnd offset (ChangeSet.spansFrom oldEnd newEnd cs) = some start) :
    ∀ c ∈ cs, start + 1 ≤ c.range.start ∨ c.range.stop ≤ start := by
  induction cs generalizing oldEnd newEnd with
  | nil => nofun
  | cons c cs ih =>
    obtain ⟨hbehind, hcs⟩ := List.pairwise_cons.1 hcs
    have hc := hfirst c List.mem_cons_self
    have hstop := c.range.start_le_stop
    rw [ChangeSet.spansFrom, oldOffsetFrom?] at h
    dsimp only at h
    split_ifs at h with hgap hnew
    · -- the place lies in front of this change, and so in front of all that follow it
      obtain rfl : oldEnd + (offset - newEnd) = start := Option.some.inj h
      have hlt : oldEnd + (offset - newEnd) + 1 ≤ c.range.start := by omega
      intro d hd
      rcases List.mem_cons.1 hd with rfl | hd
      · exact .inl hlt
      · have hd : c.range.stop ≤ d.range.start := hbehind d hd
        exact .inl (by omega)
    · have hc : c.range.stop ≤ start := le_of_oldOffsetFrom?_eq_some hcs hbehind h
      intro d hd
      rcases List.mem_cons.1 hd with rfl | hd
      · exact .inr hc
      · exact ih hcs hbehind (Nat.not_lt.1 hnew) h d hd

/-- Later places have later old offsets: the byte at an old offset is untouched. -/
theorem lt_of_oldOffset? (hspans : r.spans = set.spans) {offset offset' start start' : Nat}
    (h : r.oldOffset? offset = some start) (h' : r.oldOffset? offset' = some start') (hlt : offset < offset') :
    start < start' := by
  suffices huntouched : r.Untouched ⟨start, 1⟩ from stop_le_of_untouched hspans huntouched h h' hlt
  rw [oldOffset?, hspans] at h
  have houtside := outside_of_oldOffsetFrom? (ordered_iff_pairwise.1 set.ordered) (fun _ _ => Nat.zero_le _)
    (Nat.zero_le _) h
  intro span hspan
  have hspan : span ∈ set.spans := hspans ▸ hspan
  have hmem : span.1 ∈ set.changes.map Change.range := by
    rw [← ChangeSet.map_fst_spansFrom 0 0]
    exact List.mem_map_of_mem hspan
  obtain ⟨c, hc, hrange⟩ := List.mem_map.1 hmem
  exact hrange ▸ houtside c hc

/-- An offset of the new text has its old offset in the old text. -/
theorem oldOffset?_le_width (hspans : r.spans = set.spans) (happly : set.applyTo r.old.text = .ok new)
    {offset start : Nat} (hle : offset ≤ new.width) (h : r.oldOffset? offset = some start) :
    start ≤ r.old.text.width := by
  have hedits : Edits 0 set.changes r.old.text new := ChangeSet.applyTo_eq_ok_iff.1 happly
  rw [oldOffset?, hspans] at h
  simpa using hedits.oldOffset_le (Nat.zero_le _) (by simpa using hle) h

/-- New ranges lie behind the text that has been passed. -/
theorem le_start_of_mem_spansFrom {cs : List Change} {oldEnd newEnd : Nat} {span : Range × Range}
    (h : span ∈ ChangeSet.spansFrom oldEnd newEnd cs) : newEnd ≤ span.2.start := by
  induction cs generalizing oldEnd newEnd with
  | nil => cases h
  | cons c cs ih =>
    rcases List.mem_cons.1 h with rfl | h
    · exact Nat.le_add_right _ _
    · have := ih h
      omega

/-- Just the places inside new ranges have no old offset. -/
theorem oldOffsetFrom?_eq_none_iff {cs : List Change} {oldEnd newEnd offset : Nat} :
    oldOffsetFrom? oldEnd newEnd offset (ChangeSet.spansFrom oldEnd newEnd cs) = none ↔
      ∃ span ∈ ChangeSet.spansFrom oldEnd newEnd cs, span.2.start ≤ offset ∧ offset < span.2.stop := by
  induction cs generalizing oldEnd newEnd with
  | nil => simp [ChangeSet.spansFrom, oldOffsetFrom?]
  | cons c cs ih =>
    rw [ChangeSet.spansFrom, oldOffsetFrom?]
    simp only [List.mem_cons, exists_eq_or_imp]
    split_ifs with hgap hnew
    · -- in front of the first new range there is no new range
      have hnone : ∀ span ∈ ChangeSet.spansFrom c.range.stop (newEnd + (c.range.start - oldEnd) + c.newWidth) cs,
          ¬ span.2.start ≤ offset := by
        intro span hspan
        have := le_start_of_mem_spansFrom hspan
        omega
      constructor
      · intro hsome
        cases hsome
      · rintro (⟨hle, -⟩ | ⟨span, hspan, hle, -⟩)
        · exact absurd hle (Nat.not_le.2 hgap)
        · exact absurd hle (hnone span hspan)
    · exact ⟨fun _ => .inl ⟨Nat.not_lt.1 hgap, hnew⟩, fun _ => rfl⟩
    · exact ⟨fun h => .inr (ih.1 h), fun h => ih.2 (h.resolve_left fun h => hnew h.2)⟩

theorem oldOffset?_eq_none_iff (hspans : r.spans = set.spans) {offset : Nat} :
    r.oldOffset? offset = none ↔ ∃ span ∈ set.spans, span.2.start ≤ offset ∧ offset < span.2.stop := by
  rw [oldOffset?, hspans]
  exact oldOffsetFrom?_eq_none_iff

/-! ## Clean stretches -/

/-- **Clean stretches.** Let a change set lead from the old text to a new one. If the old text is clean from the old
offset of a new place up to the end of a window, then both texts go on with the same bytes as far as the scanner looks
from the end of the window, and if it looks past the end of the old text the new text ends at the same distance. Later
places have later old offsets, and just the places inside text that a change has put there have none. -/
theorem clean_spec (hspans : r.spans = set.spans) (happly : set.applyTo r.old.text = .ok new) :
    (∀ offset start stop, r.oldOffset? offset = some start → start ≤ stop → stop ≤ r.old.text.width →
      r.isClean start stop = true →
        let n := lookaheadEnd r.old.text stop - start
        (r.old.text.bytes.drop start).take n = (new.bytes.drop offset).take n ∧
        (r.old.text.width < start + n → new.width = offset + (r.old.text.width - start))) ∧
    (∀ offset offset' start start', r.oldOffset? offset = some start → r.oldOffset? offset' = some start' →
      offset < offset' → start < start') ∧
    ∀ offset, r.oldOffset? offset = none ↔ ∃ p ∈ set.changes.zip set.spans,
      new.Part p.2.2 p.1.newText ∧ p.2.2.start ≤ offset ∧ offset < p.2.2.stop := by
  have hedits : Edits 0 set.changes r.old.text new := ChangeSet.applyTo_eq_ok_iff.1 happly
  refine ⟨fun offset start stop hold hle hstop hclean => ?_, fun _ _ _ _ => lt_of_oldOffset? hspans, fun offset => ?_⟩
  · have hlook := le_lookaheadEnd r.old.text stop
    rw [oldOffset?, hspans] at hold
    have hagree : Text.AgreeFrom ([] ++ r.old.text) ([] ++ new) start offset (lookaheadEnd r.old.text stop) :=
      hedits.agreeFrom rfl rfl (Nat.zero_le _) (hle.trans hstop) hold ((isClean_iff hspans).1 hclean)
    rw [List.nil_append, List.nil_append] at hagree
    exact ⟨hagree.take_eq, fun hlt => hagree.width_eq (by omega)⟩
  · obtain ⟨hlength, hpart⟩ := List.forall₂_iff_zip.1 hedits.replaced.new
    rw [oldOffset?_eq_none_iff hspans]
    constructor
    · rintro ⟨span, hspan, hin⟩
      rw [← List.map_snd_zip hlength.ge] at hspan
      obtain ⟨p, hp, rfl⟩ := List.mem_map.1 hspan
      exact ⟨p, hp, hpart hp, hin⟩
    · rintro ⟨p, hp, -, hin⟩
      exact ⟨p.2, (List.of_mem_zip hp).2, hin⟩

/-- A text is inserted where another one is deleted. The rest is clean right behind both, up to the end of the text. -/
theorem clean_spec_touching :
    let set : ChangeSet := ⟨[⟨⟨0, 0⟩, ['x']⟩, ⟨⟨0, 1⟩, []⟩], by decide⟩
    let r : Reuse := ⟨⟨default, ['a', 'b', 'c'], ⟨.ofSymbols [], []⟩⟩, set.spans⟩
    set.applyTo ['a', 'b', 'c'] = .ok ['x', 'b', 'c'] ∧ r.oldOffset? 1 = some 1 ∧ r.isClean 1 3 = true ∧
      ((Text.bytes ['a', 'b', 'c']).drop 1).take 3 = ((Text.bytes ['x', 'b', 'c']).drop 1).take 3 ∧
      Text.width ['x', 'b', 'c'] = 1 + (Text.width ['a', 'b', 'c'] - 1) ∧ r.oldOffset? 0 = none := by
  intro set r
  have hspans : r.spans = set.spans := rfl
  have happly : set.applyTo r.old.text = .ok ['x', 'b', 'c'] := rfl
  obtain ⟨hclean, -, hnone⟩ := clean_spec hspans happly
  obtain ⟨hsame, hend⟩ := hclean 1 1 3 (by decide) (by decide) (by decide) (by decide)
  exact ⟨happly, by decide, by decide, hsame, hend (by decide),
    (hnone 0).2 ⟨(⟨⟨0, 0⟩, ['x']⟩, ⟨0, 0⟩, ⟨0, 1⟩), by decide, ⟨[], ['b', 'c'], rfl, rfl, rfl⟩, by decide⟩⟩

end Reuse

end IncrementalSyntax

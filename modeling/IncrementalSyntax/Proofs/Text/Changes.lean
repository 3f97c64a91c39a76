import IncrementalSyntax.Proofs.Text.Edits

/-!
# When changes can be made, and where they stand afterwards

Changes make a set if each of them starts at the end of every earlier one or behind it, and a set can be
applied if every one of its changes cuts a piece out of the text. The spans of the set then say where the
pieces went: each new range holds the new text of its change, and what lies between two new ranges is
what lay between the two old ones.

## Main definitions

* `Text.Part`: what stands at a range of a text
* `Change.Fits`: a change that a text can be changed by
* `Range.gaps`: the ranges around and between some ranges
* `Replaced`: a text in which all ranges are replaced at once, with the spans that describe it

## Main results

* `ordered_iff_pairwise`: the order of a set holds between any two of its changes
* `Edits.replaced`: the spans of a set describe the text that its changes lead to
* `ChangeSet.applyTo_spec`: which changes make a set, which sets can be applied, and to what effect
-/

namespace IncrementalSyntax

/-! ## Parts of a text -/

namespace Text

/-- **Part.** The characters of `s` are what stands in the text at the range. -/
def Part (t : Text) (r : Range) (s : Text) : Prop :=
  ∃ a b, t = a ++ (s ++ b) ∧ width a = r.start ∧ width s = r.length

namespace Part

variable {t s s' : Text} {r : Range}

/-- What stands at a range is what the range cuts out. -/
theorem between_eq (h : t.Part r s) : t.between r.start r.stop = s := by
  obtain ⟨a, b, rfl, ha, hs⟩ := h
  have hwidth : r.stop - r.start = width s := by
    rw [Range.stop, Nat.add_sub_cancel_left, hs]
  rw [between, ← ha, after_append, ha, hwidth, before_append]

/-- Only one text stands at a range. -/
theorem unique (h : t.Part r s) (h' : t.Part r s') : s = s' := h.between_eq.symm.trans h'.between_eq

end Part

end Text

/-! ## The order of a set -/

namespace Change

/-- A change that follows one which follows a third follows the third. -/
theorem Precedes.trans {a b c : Change} (hab : a.Precedes b) (hbc : b.Precedes c) : a.Precedes c :=
  calc a.range.stop ≤ b.range.start := hab
    _ ≤ b.range.stop := b.range.start_le_stop
    _ ≤ c.range.start := hbc

instance : Trans Precedes Precedes Precedes := ⟨Precedes.trans⟩

end Change

theorem ordered_iff_isChain {cs : List Change} : Ordered cs ↔ cs.IsChain Change.Precedes := by
  induction cs with
  | nil => simp [Ordered]
  | cons a cs ih =>
    cases cs with
    | nil => simp [Ordered]
    | cons b cs => rw [Ordered, List.isChain_cons_cons, ih]

/-- The order of a set holds between any two of its changes. -/
theorem ordered_iff_pairwise {cs : List Change} : Ordered cs ↔ cs.Pairwise Change.Precedes :=
  ordered_iff_isChain.trans List.isChain_iff_pairwise

/-- The index that is reported is that of the first change which does not follow its predecessor. -/
theorem firstUnordered_eq_some_iff {cs : List Change} {start index : Nat} :
    firstUnordered start cs = some index ↔ ∃ i, index = start + i + 1 ∧ ∃ h : i + 1 < cs.length,
      ¬ cs[i].Precedes cs[i + 1] ∧ ∀ j (hj : j < i), cs[j].Precedes cs[j + 1] := by
  fun_induction firstUnordered start cs with
  | case1 start a b rest hab ih =>
    -- the first pair is in order, so it shifts all indices by one and asks for nothing else
    rw [ih]
    constructor
    · rintro ⟨i, rfl, h, hi, hbefore⟩
      refine ⟨i + 1, by omega, Nat.succ_lt_succ h, hi, ?_⟩
      intro j hj
      cases j with
      | zero => exact hab
      | succ j => exact hbefore j (Nat.lt_of_succ_lt_succ hj)
    · rintro ⟨i, rfl, h, hi, hbefore⟩
      cases i with
      | zero => exact absurd hab hi
      | succ i =>
        refine ⟨i, by omega, Nat.lt_of_succ_lt_succ h, hi, ?_⟩
        intro j hj
        exact hbefore (j + 1) (Nat.succ_lt_succ hj)
  | case2 start a b rest hab =>
    constructor
    · intro h
      cases h
      exact ⟨0, rfl, by simp, hab, by simp⟩
    · rintro ⟨i, rfl, h, hi, hbefore⟩
      cases i with
      | zero => rfl
      | succ i => exact absurd (hbefore 0 (Nat.succ_pos i)) hab
  | case3 cs start hshort =>
    constructor
    · intro h
      cases h
    · rintro ⟨i, -, h, -⟩
      obtain _ | ⟨a, _ | ⟨b, rest⟩⟩ := cs
      · cases h
      · cases Nat.lt_of_succ_lt_succ h
      · exact (hshort _ _ _ rfl).elim

namespace ChangeSet

/-- A list makes a set just if its changes are in order, and it makes the set of these changes. -/
theorem ofList_eq_ok_iff {cs : List Change} {set : ChangeSet} :
    ofList cs = .ok set ↔ set.changes = cs := by
  unfold ofList
  constructor
  · intro h
    split at h
    · cases h
    · cases h
      rfl
  · rintro rfl
    split
    · next index hindex =>
      rw [firstUnordered_eq_none_iff.2 set.ordered] at hindex
      cases hindex
    · rfl

theorem ofList_eq_error_iff {cs : List Change} {e : TextError} :
    ofList cs = .error e ↔ ∃ index, firstUnordered 0 cs = some index ∧ e = .unordered index := by
  unfold ofList
  split
  · next index hindex => simp [hindex, eq_comm]
  · next hnone => simp [hnone]

end ChangeSet

/-! ## Changes that fit -/

/-- **Fits.** The range of the change ends in the text, and both of its ends stand between characters. -/
def Change.Fits (c : Change) (t : Text) : Prop :=
  c.range.stop ≤ t.width ∧ t.isBoundary c.range.start = true ∧ t.isBoundary c.range.stop = true

namespace ChangeSet

theorem obstacle?_eq_none_iff_fits {t : Text} {c : Change} : obstacle? t c = none ↔ c.Fits t := by
  unfold obstacle? Change.Fits
  split_ifs with hout hboth
  · simp
    omega
  · simpa using ⟨Nat.le_of_not_lt hout, Bool.and_eq_true_iff.1 hboth⟩
  · simpa using fun _ => hboth

/-- What is reported of a change: first that it reaches too far. -/
theorem obstacle?_eq_some_iff {t : Text} {c : Change} {e : TextError} :
    obstacle? t c = some e ↔ (t.width < c.range.stop ∧ e = .outOfBounds c.range t.width) ∨
      (c.range.stop ≤ t.width ∧ ¬ c.Fits t ∧ e = .notBoundary c.range) := by
  rw [← obstacle?_eq_none_iff_fits]
  unfold obstacle?
  split_ifs with hout hboth
  · simp [hout, eq_comm]
  · simp [hout]
  · simp [hout, Nat.le_of_not_lt hout, eq_comm]

/-- A set cannot be applied just if one of its changes does not fit, and the first of these is reported. -/
theorem applyTo_eq_error_iff {set : ChangeSet} {t : Text} {e : TextError} :
    set.applyTo t = .error e ↔ ∃ before c after, set.changes = before ++ c :: after ∧
      (∀ d ∈ before, d.Fits t) ∧ obstacle? t c = some e := by
  have hfound : set.applyTo t = .error e ↔ set.changes.findSome? (obstacle? t) = some e := by
    unfold applyTo
    split
    · next d hd => simp [hd]
    · next hnone => simp [hnone]
  rw [hfound, List.findSome?_eq_some_iff]
  simp only [obstacle?_eq_none_iff_fits, and_comm]

/-- A set can be applied just if all of its changes fit. -/
theorem exists_applyTo_iff {set : ChangeSet} {t : Text} :
    (∃ t', set.applyTo t = .ok t') ↔ ∀ c ∈ set.changes, c.Fits t := by
  constructor
  · rintro ⟨t', h⟩ c hc
    have hedits : Edits (Text.width []) set.changes t t' := applyTo_eq_ok_iff.1 h
    exact obstacle?_eq_none_iff_fits.1 (obstacle?_of_edits (a := []) hedits c hc)
  · intro h
    have hnone : set.changes.findSome? (obstacle? t) = none :=
      List.findSome?_eq_none_iff.2 fun c hc => obstacle?_eq_none_iff_fits.2 (h c hc)
    exact ⟨replaceFrom t 0 set.changes, by rw [applyTo, hnone]⟩

end ChangeSet

/-! ## Spans and gaps -/

/-- The stretches in front of, between and behind some ranges in order, from one offset to another. -/
def Range.gaps (start stop : Nat) : List Range → List Range
  | [] => [between start stop]
  | r :: rs => between start r.start :: gaps r.stop stop rs

/-- The changes make a text this much longer. -/
def Change.deltaAll (cs : List Change) : Int := (cs.map Change.delta).sum

/-- **Replaced.** The second text is the first one with all ranges replaced at once, and the spans, each a
range of the first text and one of the second, describe it. -/
structure Replaced (cs : List Change) (spans : List (Range × Range)) (t t' : Text) : Prop where
  edits : Edits 0 cs t t'
  old : spans.map Prod.fst = cs.map Change.range
  /-- Every new range holds the new text. -/
  new : List.Forall₂ (fun c span => t'.Part span.2 c.newText) cs spans
  /-- Between the new ranges stands what stood between the old ones. -/
  gaps : List.Forall₂ (fun old new => ∃ s, t.Part old s ∧ t'.Part new s)
    (Range.gaps 0 t.width (spans.map Prod.fst)) (Range.gaps 0 t'.width (spans.map Prod.snd))
  /-- Every range moves by what the changes in front of it add up to. -/
  moved : ∀ i (h : i < spans.length),
    (spans[i].2.start : Int) = spans[i].1.start + Change.deltaAll (cs.take i)
  width : (t'.width : Int) = t.width + Change.deltaAll cs

namespace ChangeSet

/-- The old ranges of spans are those of the changes. -/
theorem map_fst_spansFrom (oldEnd newEnd : Nat) (cs : List Change) :
    (spansFrom oldEnd newEnd cs).map Prod.fst = cs.map Change.range := by
  induction cs generalizing oldEnd newEnd with
  | nil => rfl
  | cons c cs ih => rw [spansFrom, List.map_cons, List.map_cons, ih]

end ChangeSet

namespace Edits

open ChangeSet (spansFrom)

variable {oldEnd newEnd : Nat} {cs : List Change} {a a' r r' : Text}

/-- The new ranges hold the new texts. -/
theorem forall₂_part (h : Edits oldEnd cs r r') (ha' : Text.width a' = newEnd) :
    List.Forall₂ (fun c span => Text.Part (a' ++ r') span.2 c.newText) cs (spansFrom oldEnd newEnd cs) := by
  induction h generalizing a' newEnd with
  | done => exact .nil
  | @change oldEnd c cs r r' gap cut hstart hlength h ih =>
    have hgap : c.range.start - oldEnd = gap.width := by omega
    rw [spansFrom, hgap]
    refine .cons ⟨a' ++ gap, r', by simp, by simp [ha'], rfl⟩ ?_
    -- the gap and the new text join what lies in front of the next change
    have hnewEnd : Text.width (a' ++ (gap ++ c.newText)) = newEnd + gap.width + c.newWidth := by
      simp [ha', Change.newWidth, Nat.add_assoc]
    simpa using ih hnewEnd

/-- The gaps between the new ranges hold what the gaps between the old ones held. -/
theorem forall₂_gaps (h : Edits oldEnd cs r r') (ha : Text.width a = oldEnd) (ha' : Text.width a' = newEnd) :
    List.Forall₂ (fun old new => ∃ s, Text.Part (a ++ r) old s ∧ Text.Part (a' ++ r') new s)
      (Range.gaps oldEnd (Text.width (a ++ r)) ((spansFrom oldEnd newEnd cs).map Prod.fst))
      (Range.gaps newEnd (Text.width (a' ++ r')) ((spansFrom oldEnd newEnd cs).map Prod.snd)) := by
  induction h generalizing a a' newEnd with
  | done oldEnd t =>
    refine .cons ⟨t, ⟨a, [], by simp, ha, ?_⟩, ⟨a', [], by simp, ha', ?_⟩⟩ .nil
    · simp [Range.between, ← ha]
    · simp [Range.between, ← ha']
  | @change oldEnd c cs r r' gap cut hstart hlength h ih =>
    have hgap : c.range.start - oldEnd = gap.width := by omega
    have hstop : c.range.stop = Text.width (a ++ (gap ++ cut)) := by
      rw [Range.stop, hstart, hlength, ← ha]
      simp
      omega
    rw [spansFrom, hgap]
    rw [List.map_cons, List.map_cons, Range.gaps, Range.gaps]
    -- both texts have the gap, and behind it each has its own side of the change
    refine .cons ⟨gap, ⟨a, cut ++ r, rfl, ha, ?_⟩, ⟨a', c.newText ++ r', rfl, ha', ?_⟩⟩ ?_
    · exact hgap.symm
    · simp [Range.between]
    · have hnewEnd : Text.width (a' ++ (gap ++ c.newText)) = newEnd + gap.width + c.newWidth := by
        simp [ha', Change.newWidth, Nat.add_assoc]
      simpa [Range.stop] using ih hstop.symm hnewEnd

/-- Every range moves by what the changes in front of it add up to. -/
theorem start_eq (h : Edits oldEnd cs r r') (i : Nat) (hi : i < (spansFrom oldEnd newEnd cs).length) :
    ((spansFrom oldEnd newEnd cs)[i].2.start : Int) =
      (spansFrom oldEnd newEnd cs)[i].1.start + (newEnd - oldEnd) + Change.deltaAll (cs.take i) := by
  induction h generalizing newEnd i with
  | done => cases hi
  | @change oldEnd c cs r r' gap cut hstart hlength h ih =>
    cases i with
    | zero =>
      simp only [spansFrom, List.getElem_cons_zero, List.take_zero, Change.deltaAll, List.map_nil, List.sum_nil]
      omega
    | succ i =>
      -- the gap is as wide in both texts, so the change alone moves what comes behind it
      have hnext := @ih (newEnd + (c.range.start - oldEnd) + c.newWidth) i (Nat.lt_of_succ_lt_succ hi)
      have hsum : Change.deltaAll (c :: cs.take i) = c.delta + Change.deltaAll (cs.take i) := List.sum_cons
      have hstop : (c.range.stop : Int) = c.range.start + c.range.length := Int.natCast_add _ _
      simp only [spansFrom, List.getElem_cons_succ, List.take_succ_cons, hsum, Change.delta]
      rw [hnext]
      omega

/-- The text gets longer by what the changes add up to. -/
theorem width_eq (h : Edits oldEnd cs r r') : (r'.width : Int) = r.width + Change.deltaAll cs := by
  induction h with
  | done => simp [Change.deltaAll]
  | @change oldEnd c cs r r' gap cut hstart hlength h ih =>
    have hsum : Change.deltaAll (c :: cs) = c.delta + Change.deltaAll cs := List.sum_cons
    rw [hsum, Change.delta, Change.newWidth, hlength]
    simp only [Text.width_append]
    push_cast
    omega

/-- **Spans.** The spans of a set describe the text that its changes lead to. -/
theorem replaced {set : ChangeSet} {t t' : Text} (h : Edits 0 set.changes t t') :
    Replaced set.changes set.spans t t' where
  edits := h
  old := ChangeSet.map_fst_spansFrom 0 0 set.changes
  new := @forall₂_part 0 0 set.changes [] t t' h rfl
  gaps := @forall₂_gaps 0 0 set.changes [] [] t t' h rfl rfl
  moved := by
    intro i hi
    have hmoved := @start_eq 0 0 set.changes t t' h i hi
    rwa [sub_self, add_zero] at hmoved
  width := h.width_eq

end Edits

/-- New ranges that lie in a text whose offsets can be stored are stored as they are. -/
theorem Replaced.storedSpans_eq {set : ChangeSet} {t t' : Text} (h : Replaced set.changes set.spans t t')
    (hlimit : t'.width < Offset.limit) : set.storedSpans = set.spans := by
  refine ChangeSet.storedSpans_eq_spans fun span hspan => ?_
  obtain ⟨i, hi, rfl⟩ := List.getElem_of_mem hspan
  obtain ⟨a, b, ht', ha, -⟩ := h.new.get (h.new.length_eq ▸ hi) hi
  refine lt_of_le_of_lt ?_ hlimit
  rw [ht', Text.width_append]
  exact ha ▸ Nat.le_add_right _ _

namespace ChangeSet

/-- **Change sets.** A list of changes makes a set just if each of its changes starts where any earlier one
ends or behind that; otherwise the first change is named that does not follow its predecessor. A set can be
applied just if all of its changes fit, and otherwise the first change that does not is reported, with the
bounds of the text coming before the ends of characters. The text that it gives has all ranges replaced at
once, and the spans describe it, also as they are stored. -/
theorem applyTo_spec (t : Text) (cs : List Change) :
    ((∃ set, ofList cs = .ok set) ↔ cs.Pairwise fun a b => a.range.stop ≤ b.range.start) ∧
      (∀ e, ofList cs = .error e ↔ ∃ i, e = .unordered (i + 1) ∧ ∃ h : i + 1 < cs.length,
        cs[i + 1].range.start < cs[i].range.stop ∧
          ∀ j (hj : j < i), cs[j].range.stop ≤ cs[j + 1].range.start) ∧
      ∀ set, ofList cs = .ok set → set.changes = cs ∧
        (∀ e, set.applyTo t = .error e ↔ ∃ before c after, cs = before ++ c :: after ∧
          (∀ d ∈ before, d.Fits t) ∧ ((t.width < c.range.stop ∧ e = .outOfBounds c.range t.width) ∨
            (c.range.stop ≤ t.width ∧ ¬ c.Fits t ∧ e = .notBoundary c.range))) ∧
        ((∃ t', set.applyTo t = .ok t') ↔ ∀ c ∈ cs, c.Fits t) ∧
        ∀ t', set.applyTo t = .ok t' → Replaced cs set.spans t t' ∧
          (t'.width < Offset.limit → set.storedSpans = set.spans) := by
  refine ⟨?_, ?_, ?_⟩
  · constructor
    · rintro ⟨set, hset⟩
      exact ordered_iff_pairwise.1 (ofList_eq_ok_iff.1 hset ▸ set.ordered)
    · intro h
      exact ⟨⟨cs, ordered_iff_pairwise.2 h⟩, ofList_eq_ok_iff.2 rfl⟩
  · intro e
    rw [ofList_eq_error_iff]
    constructor
    · rintro ⟨index, hindex, rfl⟩
      obtain ⟨i, rfl, h, hi, hbefore⟩ := firstUnordered_eq_some_iff.1 hindex
      exact ⟨i, by simp, h, Nat.lt_of_not_le hi, hbefore⟩
    · rintro ⟨i, rfl, h, hi, hbefore⟩
      exact ⟨i + 1, firstUnordered_eq_some_iff.2 ⟨i, by simp, h, Nat.not_le_of_lt hi, hbefore⟩, rfl⟩
  · intro set hset
    obtain rfl := ofList_eq_ok_iff.1 hset
    refine ⟨rfl, ?_, exists_applyTo_iff, ?_⟩
    · intro e
      rw [applyTo_eq_error_iff]
      simp only [obstacle?_eq_some_iff]
    · intro t' ht'
      have hreplaced := (applyTo_eq_ok_iff.1 ht').replaced
      exact ⟨hreplaced, hreplaced.storedSpans_eq⟩

/-- Two texts inserted at one offset, a wide character deleted, and a longer text for the last character. -/
theorem applyTo_spec_touching :
    let cs : List Change := [⟨⟨0, 0⟩, ['x']⟩, ⟨⟨0, 0⟩, ['ü']⟩, ⟨⟨1, 2⟩, []⟩, ⟨⟨4, 1⟩, ['c', 'd']⟩]
    ∃ set, ofList cs = .ok set ∧
      set.applyTo ['a', 'é', '\n', 'b'] = .ok ['x', 'ü', 'a', '\n', 'c', 'd'] ∧
      set.storedSpans = [(⟨0, 0⟩, ⟨0, 1⟩), (⟨0, 0⟩, ⟨1, 2⟩), (⟨1, 2⟩, ⟨4, 0⟩), (⟨4, 1⟩, ⟨5, 2⟩)] ∧
      Replaced cs set.spans ['a', 'é', '\n', 'b'] ['x', 'ü', 'a', '\n', 'c', 'd'] := by
  intro cs
  obtain ⟨haccepted, -, heffect⟩ := applyTo_spec ['a', 'é', '\n', 'b'] cs
  obtain ⟨set, hset⟩ := haccepted.2 (by decide)
  obtain ⟨hchanges, -, -, hreplaced⟩ := heffect set hset
  obtain ⟨changes, hordered⟩ := set
  obtain rfl : changes = cs := hchanges
  exact ⟨_, hset, rfl, rfl, (hreplaced _ rfl).1⟩

end ChangeSet

end IncrementalSyntax

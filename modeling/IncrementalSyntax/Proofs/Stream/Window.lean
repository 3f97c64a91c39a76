import IncrementalSyntax.Proofs.Text.Edits
import IncrementalSyntax.Proofs.Token.Locality
import IncrementalSyntax.Stream.Reuse

/-!
# What stands where an edit left a text intact

A place of the new text that has an old offset stands outside of all new texts, so the changes that remain
lead from the text behind its old offset to the text behind the place. Where a stretch of old text is
clean, the changes begin behind all that the scanner may have looked at.

## Main results

* `Edits.exists_behind`: the changes behind a place that has an old offset
* `Edits.exists_clean`: a clean stretch stands in the new text, and what is seen behind it is the same
-/

namespace IncrementalSyntax

theorem Edits.le_start {oldEnd : Nat} {cs : List Change} {r r' : Text} (h : Edits oldEnd cs r r') :
    ∀ c ∈ cs, oldEnd ≤ c.range.start := by
  induction h with
  | done => nofun
  | change gap cut hstart hlength h ih =>
    refine List.forall_mem_cons.2 ⟨by omega, fun d hd => ?_⟩
    have := ih d hd
    unfold Range.stop at this
    omega

/-- The changes behind a place of the new text that has an old offset, all of which begin behind it. -/
theorem Edits.exists_behind {oldEnd newEnd offset start : Nat} {cs : List Change} {r r' x' y' : Text}
    (h : Edits oldEnd cs r r') (hr' : r' = x' ++ y') (hx' : newEnd + x'.width = offset)
    (hold : Reuse.oldOffsetFrom? oldEnd newEnd offset (ChangeSet.spansFrom oldEnd newEnd cs) = some start) :
    ∃ x y cs', r = x ++ y ∧ start = oldEnd + x.width ∧ Edits start cs' y y' ∧
      ∀ c ∈ cs', c ∈ cs ∧ start < c.range.start := by
  induction h generalizing newEnd x' with
  | done oldEnd t =>
    rw [ChangeSet.spansFrom, Reuse.oldOffsetFrom?, Option.some_inj] at hold
    refine ⟨x', y', [], hr', by omega, .done _ _, nofun⟩
  | @change oldEnd c cs r r' gap cut hstart hlength h ih =>
    rw [ChangeSet.spansFrom, Reuse.oldOffsetFrom?] at hold
    have hgap : c.range.start - oldEnd = gap.width := by omega
    dsimp only at hold
    rw [hgap] at hold
    split at hold
    · -- the place stands inside the gap in front of the change
      next hlt =>
      rw [Option.some_inj] at hold
      obtain ⟨gap', rfl⟩ : x' <+: gap :=
        Text.prefix_of_width_le ⟨y', hr'.symm⟩ ⟨_, rfl⟩ (by omega)
      rw [Text.width_append] at hlt hgap
      have hy' : y' = gap' ++ (c.newText ++ r') := by
        rw [List.append_assoc] at hr'
        exact (List.append_cancel_left hr').symm
      refine ⟨x', gap' ++ (cut ++ r), c :: cs, by rw [List.append_assoc], by omega, ?_, ?_⟩
      · rw [hy']
        exact .change gap' cut (by rw [hstart, Text.width_append]; omega) hlength h
      · have hc : start < c.range.start := by
          rw [Text.width_append] at hstart
          omega
        intro d hd
        refine ⟨hd, ?_⟩
        rcases List.mem_cons.1 hd with rfl | hd
        · exact hc
        · have := h.le_start d hd
          unfold Range.stop at this
          omega
    · split at hold
      · cases hold
      · -- the place stands behind the new text of the change
        next hge hnot =>
        have hstop : newEnd + gap.width + c.newWidth ≤ offset := by
          simpa [Range.stop] using hnot
        obtain ⟨x'', hx''⟩ : gap ++ c.newText <+: x' := by
          refine Text.prefix_of_width_le (t := gap ++ (c.newText ++ r')) ⟨r', by simp⟩ ⟨y', hr'.symm⟩ ?_
          rw [Text.width_append]
          unfold Change.newWidth at hstop
          omega
        subst hx''
        rw [Text.width_append, Text.width_append] at hx'
        obtain ⟨x, y, cs', hx, hw, hedits, hcs'⟩ := @ih (newEnd + gap.width + c.newWidth) x''
          (by simpa using hr') (by unfold Change.newWidth; omega) (by simpa [Range.stop] using hold)
        refine ⟨gap ++ (cut ++ x), y, cs', by simp [hx], ?_, hedits, fun d hd => ?_⟩
        · rw [hw, Text.width_append, Text.width_append]
          unfold Range.stop
          omega
        · exact ⟨List.mem_cons_of_mem _ (hcs' d hd).1, (hcs' d hd).2⟩

/-- Changes that begin behind a stretch of text leave it alone. -/
theorem Edits.of_append {start : Nat} {cs : List Change} {u r y y' : Text} (h : Edits start cs y y')
    (hy : y = u ++ r) (hcs : ∀ c ∈ cs, start + u.width ≤ c.range.start) :
    ∃ r', y' = u ++ r' ∧ Edits (start + u.width) cs r r' := by
  cases h with
  | done => exact ⟨r, hy, .done _ _⟩
  | @change _ c cs s s' gap cut hstart hlength h =>
    have hle := hcs c List.mem_cons_self
    obtain ⟨gap', rfl⟩ : u <+: gap := Text.prefix_of_width_le ⟨r, hy.symm⟩ ⟨_, rfl⟩ (by omega)
    refine ⟨gap' ++ (c.newText ++ s'), by rw [List.append_assoc], ?_⟩
    rw [List.append_assoc] at hy
    rw [← List.append_cancel_left hy]
    exact .change gap' cut (by rw [hstart, Text.width_append]; omega) hlength h

/-- At the end of a text there is nothing to change but the end itself. -/
theorem Edits.eq_nil_or {start : Nat} {cs : List Change} {r r' : Text} (h : Edits start cs r r') (hr : r = []) :
    r' = [] ∨ ∃ c ∈ cs, c.range.start = start := by
  cases h with
  | done => exact .inl hr
  | @change _ c cs s s' gap cut hstart hlength h =>
    obtain ⟨rfl, -⟩ := List.append_eq_nil_iff.1 hr
    exact .inr ⟨c, List.mem_cons_self, hstart⟩

/-- Where nothing is left of the new text, nothing is left of the old one but the changes at its front. -/
theorem Edits.eq_nil_of_right {start : Nat} {cs : List Change} {r r' : Text} (h : Edits start cs r r')
    (hr : r' = []) : r = [] ∨ ∃ c ∈ cs, c.range.start = start := by
  cases h with
  | done => exact .inl hr
  | @change _ c cs s s' gap cut hstart hlength h =>
    obtain ⟨rfl, -⟩ := List.append_eq_nil_iff.1 hr
    exact .inr ⟨c, List.mem_cons_self, hstart⟩

/-- Changes that begin two characters further leave two characters alone. -/
theorem Edits.take_two {start : Nat} {cs : List Change} {r r' : Text} (h : Edits start cs r r')
    (hcs : ∀ c ∈ cs, start + lookaheadWidth r ≤ c.range.start) : r.take 2 = r'.take 2 := by
  cases h with
  | done => rfl
  | @change _ c cs s s' gap cut hstart hlength h =>
    have hle := hcs c List.mem_cons_self
    match gap with
    | [] =>
      have : 0 < lookaheadWidth (cut ++ s) := by
        unfold lookaheadWidth
        split <;> first | omega | exact Nat.add_pos_left (Char.utf8Size_pos _) _
      simp only [List.nil_append, Text.width_nil] at hle hstart
      omega
    | [d] =>
      have : d.utf8Size < lookaheadWidth (d :: (cut ++ s)) := by
        cases cut ++ s with
        | nil => exact Nat.lt_succ_self _
        | cons e z => exact Nat.lt_add_of_pos_right (Char.utf8Size_pos e)
      simp only [List.cons_append, List.nil_append, Text.width_cons, Text.width_nil] at hle hstart
      omega
    | d :: e :: gap => rfl

/-- Further on in a text the scanner looks further, unless there is nothing but a line feed on the way. -/
theorem lookaheadEnd_mono {a u v : Text} (ha : (u ++ v).head? = some '\n' → a.getLast? = some '\n') :
    lookaheadEnd (a ++ (u ++ v)) a.width ≤ lookaheadEnd (a ++ (u ++ v)) (a.width + u.width) := by
  have hle : ∀ b c : Text, c.width ≤ lookaheadEnd (c ++ b) c.width := by
    intro b c
    rw [lookaheadEnd, Text.splitAt?_append]
    dsimp only
    split
    · exact le_rfl
    · exact Nat.le_add_right _ _
  have hnear : lookaheadEnd (a ++ (u ++ v)) a.width ≤ a.width + lookaheadWidth (u ++ v) := by
    rw [lookaheadEnd, Text.splitAt?_append]
    dsimp only
    split
    · exact Nat.le_add_right _ _
    · exact le_rfl
  rw [← List.append_assoc] at hnear ⊢
  rw [← Text.width_append]
  have hfar := hle v (a ++ u)
  obtain _ | ⟨c, _ | ⟨d, u⟩⟩ := u
  · simp
  · -- one character, which may be a line feed
    by_cases hc : c = '\n'
    · rw [lookaheadEnd, List.append_assoc, Text.splitAt?_append]
      dsimp only
      rw [if_pos (ha (by simp [hc])), ← List.append_assoc]
      have hle' : a.width ≤ Text.width (a ++ [c]) := by simp
      exact hle'.trans hfar
    · refine hnear.trans ?_
      rw [lookaheadEnd_eq (by simp), if_neg (by simpa using hc)]
      cases v with
      | nil => simp [lookaheadWidth]
      | cons d v => cases v <;> simp [lookaheadWidth]
  · refine hnear.trans (le_trans ?_ hfar)
    simp [lookaheadWidth]

/-- No change begins inside a clean stretch of old text, or in what is seen behind it. -/
theorem Reuse.isClean_iff {r : Reuse} {set : ChangeSet} (hspans : r.spans = set.spans) {start stop : Nat} :
    r.isClean start stop = true ↔ ∀ c ∈ set.changes, lookaheadEnd r.old.text stop ≤ c.range.start ∨
      c.range.stop ≤ start := by
  have hfst : ∀ (cs : List Change) (m n : Nat), (ChangeSet.spansFrom m n cs).map Prod.fst = cs.map Change.range := by
    intro cs
    induction cs with
    | nil => exact fun _ _ => rfl
    | cons c cs ih => exact fun _ _ => by rw [ChangeSet.spansFrom, List.map_cons, ih, List.map_cons]
  have hall : r.isClean start stop = (r.spans.map Prod.fst).all fun range =>
      !(range.start < lookaheadEnd r.old.text stop && start < range.stop) := by
    rw [isClean, List.all_map]
    rfl
  rw [hall, hspans, ChangeSet.spans, hfst, List.all_map, List.all_eq_true]
  refine forall_congr' fun c => imp_congr_right fun _ => ?_
  simp

/-- **Clean text.** Behind a place of the new text that has an old offset stands the clean stretch that
starts there, and what is seen behind it is the same as before. -/
theorem Edits.exists_clean {r : Reuse} {set : ChangeSet} {text x' y' a u b : Text}
    (h : Edits 0 set.changes r.old.text text) (hspans : r.spans = set.spans) (htext : text = x' ++ y')
    (hold : r.oldOffset? x'.width = some a.width) (hsplit : r.old.text = a ++ (u ++ b)) (hu : u ≠ [])
    (hclean : r.isClean a.width (a.width + u.width) = true) :
    ∃ b' cs, y' = u ++ b' ∧ Text.Behind u b b' ∧ Edits (a.width + u.width) cs b b' ∧
      ∀ c ∈ cs, c ∈ set.changes ∧ lookaheadEnd r.old.text (a.width + u.width) ≤ c.range.start := by
  rw [Reuse.oldOffset?, hspans] at hold
  obtain ⟨x, y, cs, hxy, hw, hedits, hcs⟩ := h.exists_behind htext (Nat.zero_add _) hold
  obtain ⟨rfl, rfl⟩ := Text.append_inj_of_width (hsplit.symm.trans hxy) (by omega)
  have hlimit : ∀ c ∈ cs, lookaheadEnd r.old.text (a.width + u.width) ≤ c.range.start := by
    intro c hc
    rcases (Reuse.isClean_iff hspans).1 hclean c (hcs c hc).1 with hle | hle
    · exact hle
    · have := (hcs c hc).2
      have := c.range.start_le_stop
      omega
  have hlook : lookaheadEnd r.old.text (a.width + u.width) =
      a.width + (u.width + if u.getLast? = some '\n' then 0 else lookaheadWidth b) := by
    rw [hsplit, ← List.append_assoc, ← Text.width_append, lookaheadEnd_eq hu]
  obtain ⟨b', hb', hedits'⟩ := hedits.of_append rfl fun c hc => by
    have := hlimit c hc
    omega
  refine ⟨b', cs, hb', ?_, hedits', fun c hc => ⟨(hcs c hc).1, hlimit c hc⟩⟩
  by_cases hlast : u.getLast? = some '\n'
  · exact .inl hlast
  · refine .inr (hedits'.take_two fun c hc => ?_)
    have := hlimit c hc
    rw [hlook, if_neg hlast] at this
    omega

end IncrementalSyntax

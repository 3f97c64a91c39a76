import IncrementalSyntax.Proofs.Stream.Shared
import IncrementalSyntax.Proofs.Text.Changes

/-!
# Old text in the order of the new one

An edit keeps the order of what it leaves intact. If a stretch of old text is untouched, and a place of the new
text lies behind where it stands now, then the old text of that place lies behind the stretch.

## Main definitions

* `Reuse.Untouched`: a range of old text that no change touches

## Main results

* `Reuse.stop_le_of_untouched`: what stands behind an untouched stretch stood behind it
-/

namespace IncrementalSyntax

namespace Reuse

variable {r : Reuse} {set : ChangeSet} {start stop : Nat} {range : Range}

/-- **Untouched.** No change touches the range of old text. A change may begin or end where the range does. -/
def Untouched (r : Reuse) (range : Range) : Prop :=
  ∀ span ∈ r.spans, range.stop ≤ span.1.start ∨ span.1.stop ≤ range.start

/-- What is clean is untouched, and so is the front of it. -/
theorem untouched_of_isClean (hclean : r.isClean range.start stop = true) (hstop : range.stop ≤ stop) :
    r.Untouched range := by
  intro span hspan
  have hspan := List.all_eq_true.1 hclean span hspan
  have hlook := le_lookaheadEnd r.old.text stop
  simp only [Bool.not_eq_true', Bool.and_eq_false_iff, decide_eq_false_iff_not] at hspan
  rcases hspan with hstart | hbehind
  · exact .inl (by omega)
  · exact .inr (Nat.le_of_not_lt hbehind)

theorem le_windowEnd (r : Reuse) (g : Green) (start : Nat) : start + g.width ≤ r.windowEnd g start := by
  rw [windowEnd]
  split
  · split
    · exact Nat.le_add_right _ _
    · exact le_rfl
  · exact le_rfl

/-- An accepted node is untouched. -/
theorem untouched_of_accepts {g : Green} {context : Context}
    (h : r.accepts g start (r.windowEnd g start) context = true) : r.Untouched ⟨start, g.width⟩ := by
  simp only [accepts, Bool.and_eq_true] at h
  exact @untouched_of_isClean r _ ⟨start, g.width⟩ h.1.2 (r.le_windowEnd g start)

/-- An accepted element carries no diagnostic. -/
theorem unflagged_of_accepts {g : Green} {stop : Nat} {context : Context} (h : r.accepts g start stop context = true) :
    g.flags.diagnostics = false := by
  simp only [accepts, Bool.and_eq_true, Bool.not_eq_true'] at h
  exact h.1.1.1.2

/-! ## Two places of the new text -/

/-- Behind the text that has been passed lies only what was behind it before. -/
theorem le_of_oldOffsetFrom?_eq_some {cs : List Change} (hcs : cs.Pairwise Change.Precedes) {oldEnd newEnd offset : Nat}
    (hfirst : ∀ c ∈ cs, oldEnd ≤ c.range.start)
    (h : oldOffsetFrom? oldEnd newEnd offset (ChangeSet.spansFrom oldEnd newEnd cs) = some start) : oldEnd ≤ start := by
  induction cs generalizing oldEnd newEnd with
  | nil =>
    obtain rfl : oldEnd + (offset - newEnd) = start := Option.some.inj h
    exact Nat.le_add_right _ _
  | cons c cs ih =>
    obtain ⟨hbehind, hcs⟩ := List.pairwise_cons.1 hcs
    rw [ChangeSet.spansFrom, oldOffsetFrom?] at h
    split_ifs at h
    · obtain rfl : oldEnd + (offset - newEnd) = start := Option.some.inj h
      exact Nat.le_add_right _ _
    · calc oldEnd ≤ c.range.start := hfirst c List.mem_cons_self
        _ ≤ c.range.stop := c.range.start_le_stop
        _ ≤ start := ih hcs hbehind h

/-- Behind an untouched stretch, from text on that has been passed. The induction is on the changes; the stretch
lies in the gap in front of the first one, or behind it like the place. -/
theorem stop_le_of_oldOffsetFrom? {cs : List Change} (hcs : cs.Pairwise Change.Precedes)
    {oldEnd newEnd first second start' width : Nat} (hfirst : ∀ c ∈ cs, oldEnd ≤ c.range.start)
    (huntouched : ∀ c ∈ cs, start + width ≤ c.range.start ∨ c.range.stop ≤ start)
    (h : oldOffsetFrom? oldEnd newEnd first (ChangeSet.spansFrom oldEnd newEnd cs) = some start)
    (h' : oldOffsetFrom? oldEnd newEnd second (ChangeSet.spansFrom oldEnd newEnd cs) = some start')
    (hpassed : newEnd ≤ first) (hle : first + width ≤ second) : start + width ≤ start' := by
  induction cs generalizing oldEnd newEnd with
  | nil =>
    obtain rfl : oldEnd + (first - newEnd) = start := Option.some.inj h
    obtain rfl : oldEnd + (second - newEnd) = start' := Option.some.inj h'
    omega
  | cons c cs ih =>
    obtain ⟨hbehind, hcs⟩ := List.pairwise_cons.1 hcs
    have hc := hfirst c List.mem_cons_self
    have hstop := c.range.start_le_stop
    rw [ChangeSet.spansFrom, oldOffsetFrom?] at h h'
    dsimp only at h h'
    by_cases hgap : first < newEnd + (c.range.start - oldEnd)
    · rw [if_pos hgap, Option.some_inj] at h
      by_cases hgap' : second < newEnd + (c.range.start - oldEnd)
      · -- both places lie in the gap in front of the change
        rw [if_pos hgap', Option.some_inj] at h'
        omega
      · -- the change lies between the two places, and it does not touch the stretch
        rw [if_neg hgap'] at h'
        split_ifs at h'
        have hfar : c.range.stop ≤ start' := le_of_oldOffsetFrom?_eq_some hcs hbehind h'
        rcases huntouched c List.mem_cons_self with hfront | hback <;> omega
    · -- both places lie behind the change
      rw [if_neg hgap] at h
      rw [if_neg (by omega)] at h'
      split_ifs at h h' with hnew hnew'
      refine ih hcs hbehind (fun d hd => huntouched d (List.mem_cons_of_mem _ hd)) h h' ?_
      exact Nat.le_of_not_lt hnew

/-- **Behind an untouched stretch.** If a place of the new text lies behind where the stretch stands now, then its old
offset lies behind the stretch. -/
theorem stop_le_of_untouched (hspans : r.spans = set.spans) (huntouched : r.Untouched range) {offset offset' start' : Nat}
    (h : r.oldOffset? offset = some range.start) (h' : r.oldOffset? offset' = some start')
    (hle : offset + range.length ≤ offset') : range.stop ≤ start' := by
  rw [oldOffset?, hspans] at h h'
  refine stop_le_of_oldOffsetFrom? (ordered_iff_pairwise.1 set.ordered) (fun _ _ => Nat.zero_le _) ?_ h h'
    (Nat.zero_le _) hle
  intro c hc
  have hmem : c.range ∈ r.spans.map Prod.fst := by
    rw [hspans, ChangeSet.spans, ChangeSet.map_fst_spansFrom]
    exact List.mem_map_of_mem hc
  obtain ⟨span, hspan, heq⟩ := List.mem_map.1 hmem
  rw [← heq]
  exact huntouched span hspan

end Reuse

end IncrementalSyntax

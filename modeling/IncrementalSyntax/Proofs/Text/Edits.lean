import IncrementalSyntax.Proofs.Text.Split
import IncrementalSyntax.Text.Change

/-!
# What a change set does to a text

A change set cuts a text into the ranges that it replaces and the gaps between them. The new text has the
same gaps, with the new texts between them. This relation says at once that all ranges lie in the text
and between its characters, and what the new text is.

## Main definitions

* `Edits`: changes that lead from the rest of one text to the rest of another one

## Main results

* `ChangeSet.applyTo_eq_ok_iff`: a set can be applied just if it leads somewhere, and gives that text
-/

namespace IncrementalSyntax

/-- **Edits.** The changes turn the text from the offset `oldEnd` on into another one: gap by gap, with one
range replaced behind each gap. -/
inductive Edits : Nat → List Change → Text → Text → Prop
  | done (oldEnd : Nat) (t : Text) : Edits oldEnd [] t t
  | change {oldEnd : Nat} {c : Change} {cs : List Change} {r r' : Text} (gap cut : Text)
      (hstart : c.range.start = oldEnd + gap.width) (hlength : c.range.length = cut.width)
      (h : Edits c.range.stop cs r r') :
      Edits oldEnd (c :: cs) (gap ++ (cut ++ r)) (gap ++ (c.newText ++ r'))

namespace ChangeSet

/-- A change is possible just if it cuts a piece out of the text. -/
theorem obstacle?_eq_none_iff {t : Text} {c : Change} :
    obstacle? t c = none ↔
      ∃ a cut b : Text, t = a ++ (cut ++ b) ∧ c.range.start = a.width ∧ c.range.length = cut.width := by
  unfold obstacle?
  constructor
  · intro h
    split at h
    · cases h
    · split at h
      · next hb =>
        rw [Bool.and_eq_true, Text.isBoundary_iff, Text.isBoundary_iff] at hb
        obtain ⟨⟨a, r, rfl, ha⟩, x, b, hx, hstop⟩ := hb
        obtain ⟨cut, rfl⟩ := Text.prefix_of_width_le ⟨r, rfl⟩ ⟨b, hx.symm⟩ (by
          rw [ha, hstop]
          exact c.range.start_le_stop)
        refine ⟨a, cut, b, by rw [hx, List.append_assoc], ha.symm, ?_⟩
        rw [Text.width_append] at hstop
        unfold Range.stop at hstop
        omega
      · cases h
  · rintro ⟨a, cut, b, rfl, hs, hl⟩
    have hstop : c.range.stop = Text.width (a ++ cut) := by
      rw [Range.stop, hs, hl, Text.width_append]
    rw [if_neg (by rw [hstop]; simp), if_pos]
    rw [Bool.and_eq_true, Text.isBoundary_iff, Text.isBoundary_iff]
    exact ⟨⟨a, _, rfl, hs.symm⟩, a ++ cut, b, by rw [List.append_assoc], hstop.symm⟩

/-- Ordered changes that are possible lead to the text that `replaceFrom` gives. -/
theorem edits_replaceFrom {cs : List Change} {a r : Text} (hord : Ordered cs)
    (hfirst : ∀ c ∈ cs.head?, a.width ≤ c.range.start)
    (hfit : ∀ c ∈ cs, obstacle? (a ++ r) c = none) :
    Edits a.width cs r (replaceFrom (a ++ r) a.width cs) := by
  induction cs generalizing a r with
  | nil =>
    rw [replaceFrom, Text.after_append]
    exact .done _ _
  | cons c cs ih =>
    obtain ⟨x, cut, b, hx, hs, hl⟩ := obstacle?_eq_none_iff.1 (hfit c (by simp))
    have hle : a.width ≤ x.width := hs ▸ hfirst c (by simp)
    obtain ⟨gap, rfl⟩ := Text.prefix_of_width_le ⟨r, rfl⟩ ⟨cut ++ b, hx.symm⟩ hle
    obtain rfl : r = gap ++ (cut ++ b) := by simpa using hx
    have hstop : c.range.stop = Text.width (a ++ gap ++ cut) := by
      rw [Range.stop, hs, hl, Text.width_append (a ++ gap)]
    have hgap : Text.between (a ++ (gap ++ (cut ++ b))) a.width c.range.start = gap := by
      have hwidth : c.range.start - a.width = Text.width gap := by
        rw [hs, Text.width_append, Nat.add_sub_cancel_left]
      rw [Text.between, Text.after_append, hwidth, Text.before_append]
    have hnext := ih (a := a ++ gap ++ cut) (r := b)
      (by cases cs with
        | nil => trivial
        | cons d ds => exact hord.2)
      (fun d hd => by
        cases cs with
        | nil => cases hd
        | cons e es =>
          obtain rfl : e = d := by simpa using hd
          exact hstop ▸ hord.1)
      (fun d hd => by simpa using hfit d (List.mem_cons_of_mem _ hd))
    rw [replaceFrom, hgap, List.append_assoc]
    refine .change gap cut (by rw [hs, Text.width_append]) hl ?_
    rw [hstop]
    simpa using hnext

/-- Changes that lead somewhere are possible. -/
theorem obstacle?_of_edits {cs : List Change} {a r r' : Text} (h : Edits a.width cs r r') :
    ∀ c ∈ cs, obstacle? (a ++ r) c = none := by
  generalize hw : a.width = w at h
  induction h generalizing a with
  | done => simp
  | @change oldEnd c cs r r' gap cut hs hl h ih =>
    have hstop : Text.width (a ++ gap ++ cut) = c.range.stop := by
      rw [Range.stop, hs, hl, ← hw, Text.width_append, Text.width_append]
    intro d hd
    rcases List.mem_cons.1 hd with rfl | hd
    · exact obstacle?_eq_none_iff.2 ⟨a ++ gap, cut, r, by simp, by rw [hs, ← hw, Text.width_append], hl⟩
    · simpa using ih hstop d hd

/-- Changes lead to one text only. -/
theorem replaceFrom_of_edits {cs : List Change} {a r r' : Text} (h : Edits a.width cs r r') :
    replaceFrom (a ++ r) a.width cs = r' := by
  generalize hw : a.width = w at h
  induction h generalizing a with
  | done oldEnd t => rw [replaceFrom, ← hw, Text.after_append]
  | @change oldEnd c cs r r' gap cut hs hl h ih =>
    have hstop : Text.width (a ++ gap ++ cut) = c.range.stop := by
      rw [Range.stop, hs, hl, ← hw, Text.width_append, Text.width_append]
    have hgap : Text.between (a ++ (gap ++ (cut ++ r))) oldEnd c.range.start = gap := by
      rw [Text.between, ← hw, Text.after_append, hs, ← hw, Nat.add_sub_cancel_left, Text.before_append]
    have hnext := ih hstop
    rw [List.append_assoc, List.append_assoc] at hnext
    rw [replaceFrom, hgap, hnext, List.append_assoc]

/-- A change set gives a text just if its changes lead there. -/
theorem applyTo_eq_ok_iff {set : ChangeSet} {t t' : Text} :
    set.applyTo t = .ok t' ↔ Edits 0 set.changes t t' := by
  unfold applyTo
  constructor
  · intro h
    split at h
    · cases h
    · next hnone =>
      cases h
      exact edits_replaceFrom (a := []) set.ordered (by simp) (List.findSome?_eq_none_iff.1 hnone)
  · intro h
    have hnone : set.changes.findSome? (obstacle? t) = none :=
      List.findSome?_eq_none_iff.2 (obstacle?_of_edits (a := []) h)
    rw [hnone]
    exact congrArg Except.ok (replaceFrom_of_edits (a := []) h)

end ChangeSet

end IncrementalSyntax

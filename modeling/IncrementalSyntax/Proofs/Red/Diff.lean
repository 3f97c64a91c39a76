import IncrementalSyntax.Proofs.Red.Places
import IncrementalSyntax.Red.Diff

/-!
# What a difference leaves out

The difference of two trees is a part of the walk through the new one, and all that it leaves out lies in an element
that the old tree has too. At the ends of a list of children the shared ones are counted pair by pair, and in between
a child is compared with an old one, or shared with any old one, or new as a whole.

## Main definitions

* `Red.Shared`: a place inside an element that an old tree has too

## Main results

* `Window.exists_isSame`: a child outside the window is one of the old children
* `Red.exists_diffAll_cons`: what the difference says of one child
* `Red.diff_complete`: the difference is ordered, comes with all places around, and misses nothing that is not shared
-/

namespace IncrementalSyntax

open Green (Sub)

/-! ## Shared ends -/

/-- An element of the shared start of two lists. -/
theorem exists_of_lt_sharedPrefix {as bs : List Green} {i : Nat} {b : Green} (hi : i < sharedPrefix as bs)
    (hb : bs[i]? = some b) : ∃ a ∈ as, a.isSame b = true := by
  induction as generalizing bs i with
  | nil => simp [sharedPrefix] at hi
  | cons a as ih =>
    cases bs with
    | nil => simp at hb
    | cons b' bs =>
      rw [sharedPrefix] at hi
      split at hi
      · next hsame =>
        cases i with
        | zero =>
          obtain rfl : b' = b := by simpa using hb
          exact ⟨a, List.mem_cons_self, hsame⟩
        | succ i =>
          obtain ⟨a', ha', hsame'⟩ := ih (Nat.lt_of_succ_lt_succ hi) (by simpa using hb)
          exact ⟨a', List.mem_cons_of_mem _ ha', hsame'⟩
      · exact absurd hi (Nat.not_lt_zero i)

namespace Window

variable {old new : List Green}

/-- Outside the window every new child is one of the old ones. -/
theorem exists_isSame {i : Nat} {c : Green} (hc : new[i]? = some c)
    (hi : i < (ofChildren old new).start ∨ (ofChildren old new).stop ≤ i) : ∃ o ∈ old, o.isSame c = true := by
  rcases hi with hi | hi
  · exact exists_of_lt_sharedPrefix hi hc
  · -- counted from the end the child is one of those that are shared there
    have hlen : i < new.length := (List.getElem?_eq_some_iff.1 hc).1
    have hstop : new.length - min (min old.length new.length - sharedPrefix old new)
        (sharedPrefix old.reverse new.reverse) ≤ i := hi
    have hshared : new.length - 1 - i < sharedPrefix old.reverse new.reverse := by omega
    have hreverse : new.reverse[new.length - 1 - i]? = some c := by
      rw [List.getElem?_reverse (by omega), ← hc]
      congr 1
      omega
    obtain ⟨o, ho, hsame⟩ := exists_of_lt_sharedPrefix hshared hreverse
    exact ⟨o, List.mem_reverse.1 ho, hsame⟩

theorem mem_of_mem_old {o : Green} (h : o ∈ (ofChildren old new).old) : o ∈ old :=
  List.mem_of_mem_take (List.mem_of_mem_drop h)

theorem mem_old_of_partner? {w : Window} {index : Nat} {c o : Green} (h : w.partner? index c = some o) : o ∈ w.old :=
  List.mem_of_getElem? (Option.filter_eq_some_iff.1 h).1

end Window

namespace Red

variable {g : Green} {cs : List Green} {r parent : Red} {index offset : Nat} {above : List Crumb}

/-! ## One child -/

/-- **One child.** It is left out if it is shared, compared with an old child, or new as a whole. -/
theorem exists_diffAll_cons (w : Window) (parent : Red) (index : Nat) (c : Green) (cs : List Green) :
    ∃ part, diffAll w parent index (c :: cs) = part ++ diffAll w parent (index + 1) cs ∧
      (part = [] ∧ ((index < w.start ∨ w.stop ≤ index) ∨ ∃ o ∈ w.old, o.isSame c = true) ∨
        (∃ o ∈ w.old, part = diffFrom o c (parent.below index c).offset (parent.below index c).above) ∨
        part = (parent.below index c).descendants) := by
  rw [diffAll]
  refine ⟨_, rfl, ?_⟩
  split
  · next h =>
    refine .inl ⟨rfl, ?_⟩
    rcases h with h | h | h
    · exact .inl (.inl h)
    · exact .inl (.inr h)
    · exact .inr (List.any_eq_true.1 h)
  · split
    · next o ho => exact .inr (.inl ⟨o, Window.mem_old_of_partner? ho, rfl⟩)
    · exact .inr (.inr rfl)

/-- The differences of children come in the order of the walk through them. -/
theorem sublist_diffAll {w : Window}
    (h : ∀ c ∈ cs, ∀ o offset above, (diffFrom o c offset above).Sublist (walk c offset above)) :
    (diffAll w parent index cs).Sublist (walkAll parent index cs) := by
  induction cs generalizing index with
  | nil => exact .slnil
  | cons c cs ih =>
    obtain ⟨part, heq, hpart⟩ := exists_diffAll_cons w parent index c cs
    rw [heq, walkAll]
    refine List.Sublist.append ?_ (ih fun d hd => h d (List.mem_cons_of_mem _ hd))
    rcases hpart with ⟨rfl, -⟩ | ⟨o, -, rfl⟩ | rfl
    · exact List.nil_sublist _
    · exact h c List.mem_cons_self o _ _
    · exact .refl _

theorem upward_diffAll {w : Window}
    (h : ∀ c ∈ cs, ∀ o offset above, Upward (ofCrumbs above) (diffFrom o c offset above)) :
    Upward (ofCrumbs (⟨parent.green, parent.offset, 0⟩ :: parent.above)) (diffAll w parent index cs) := by
  induction cs generalizing index with
  | nil => exact fun _ hr => absurd hr List.not_mem_nil
  | cons c cs ih =>
    obtain ⟨part, heq, hpart⟩ := exists_diffAll_cons w parent index c cs
    rw [heq]
    refine .append ?_ (ih fun d hd => h d (List.mem_cons_of_mem _ hd))
    rcases hpart with ⟨rfl, -⟩ | ⟨o, -, rfl⟩ | rfl
    · exact fun _ hr => absurd hr List.not_mem_nil
    · exact h c List.mem_cons_self o _ (⟨parent.green, parent.offset, index⟩ :: parent.above)
    · exact upward_walk c _ (⟨parent.green, parent.offset, index⟩ :: parent.above)

/-- **Shared.** The place lies at or below one whose element the old tree has too. -/
def Shared (old : Green) (r : Red) : Prop := ∃ s ∈ r.ancestors, ∃ o, Sub o old ∧ o.isSame s.green = true

/-- What is left out below children lies in an element of the old tree. -/
theorem shared_of_not_mem_diffAll {root old : Green} {w : Window} (hold : Sub old root)
    (h : ∀ c ∈ cs, ∀ o, Sub o root → ∀ offset above, ∀ r ∈ walk c offset above, r ∉ diffFrom o c offset above →
      Shared root r)
    (hends : ∀ j c, cs[j]? = some c → index + j < w.start ∨ w.stop ≤ index + j → ∃ o ∈ old.children, o.isSame c = true)
    (hwindow : ∀ o ∈ w.old, o ∈ old.children) (hr : r ∈ walkAll parent index cs)
    (hnot : r ∉ diffAll w parent index cs) : Shared root r := by
  induction cs generalizing index with
  | nil => exact absurd hr List.not_mem_nil
  | cons c cs ih =>
    obtain ⟨part, heq, hpart⟩ := exists_diffAll_cons w parent index c cs
    rw [heq, List.mem_append, not_or] at hnot
    rcases List.mem_append.1 hr with hr | hr
    · rcases hpart with ⟨rfl, hshared⟩ | ⟨o, ho, rfl⟩ | rfl
      · -- the child itself is shared, at an end or anywhere in the window
        obtain ⟨o, ho, hsame⟩ : ∃ o ∈ old.children, o.isSame c = true := by
          rcases hshared with hend | ⟨o, ho, hsame⟩
          · exact hends 0 c rfl hend
          · exact ⟨o, hwindow o ho, hsame⟩
        exact ⟨_, mem_ancestors_of_mem_walk hr, o, (Sub.of_mem_children ho).trans hold, hsame⟩
      · exact h c List.mem_cons_self o ((Sub.of_mem_children (hwindow o ho)).trans hold) _ _ r hr hnot.1
      · exact absurd hr hnot.1
    · refine ih (fun d hd => h d (List.mem_cons_of_mem _ hd)) (fun j d hj hend => ?_) hr hnot.2
      refine hends (j + 1) d (by simpa using hj) ?_
      rwa [Nat.add_right_comm index 1 j] at hend

/-! ## Whole trees -/

theorem diffFrom_of_isSame {old : Green} (h : old.isSame g = true) (offset : Nat) (above : List Crumb) :
    diffFrom old g offset above = [] := by
  cases g <;> rw [diffFrom, if_pos h]

theorem diffFrom_of_not_isSame {old : Green} (h : ¬ old.isSame g = true) (offset : Nat) (above : List Crumb) :
    diffFrom old g offset above =
      ⟨g, offset, above⟩ :: diffAll (.ofChildren old.children g.children) ⟨g, offset, above⟩ 0 g.children := by
  cases g <;> rw [diffFrom, if_neg h] <;> rfl

theorem sublist_diffFrom (old g : Green) (offset : Nat) (above : List Crumb) :
    (diffFrom old g offset above).Sublist (walk g offset above) := by
  induction g using Green.induction generalizing old offset above with
  | token t =>
    rw [diffFrom]
    split
    · exact List.nil_sublist _
    · exact .refl _
  | node hd cs ih =>
    by_cases hsame : old.isSame (.node hd cs) = true
    · rw [diffFrom_of_isSame hsame]
      exact List.nil_sublist _
    · rw [diffFrom_of_not_isSame hsame]
      exact .cons_cons _ (sublist_diffAll fun c hc o => ih c hc o)

theorem upward_diffFrom (old g : Green) (offset : Nat) (above : List Crumb) :
    Upward (ofCrumbs above) (diffFrom old g offset above) := by
  induction g using Green.induction generalizing old offset above with
  | token t =>
    by_cases hsame : old.isSame (.token t) = true
    · rw [diffFrom_of_isSame hsame]
      exact fun _ hr => absurd hr List.not_mem_nil
    · rw [diffFrom_of_not_isSame hsame]
      exact Upward.under 0 fun _ hr => absurd hr List.not_mem_nil
  | node hd cs ih =>
    by_cases hsame : old.isSame (.node hd cs) = true
    · rw [diffFrom_of_isSame hsame]
      exact fun _ hr => absurd hr List.not_mem_nil
    · rw [diffFrom_of_not_isSame hsame]
      exact Upward.under 0 (upward_diffAll fun c hc o => ih c hc o)

/-- What is left out of a tree lies in an element of the old one. -/
theorem shared_of_not_mem_diffFrom {root old : Green} (hold : Sub old root) (hr : r ∈ walk g offset above)
    (hnot : r ∉ diffFrom old g offset above) : Shared root r := by
  induction g using Green.induction generalizing old offset above r with
  | token t =>
    by_cases hsame : old.isSame (.token t) = true
    · exact ⟨_, mem_ancestors_of_mem_walk hr, old, hold, hsame⟩
    · rw [diffFrom_of_not_isSame hsame] at hnot
      exact absurd hr hnot
  | node hd cs ih =>
    by_cases hsame : old.isSame (.node hd cs) = true
    · exact ⟨_, mem_ancestors_of_mem_walk hr, old, hold, hsame⟩
    · rw [diffFrom_of_not_isSame hsame, List.mem_cons, not_or] at hnot
      rcases List.mem_cons.1 hr with heq | hr
      · exact absurd heq hnot.1
      · refine shared_of_not_mem_diffAll hold (fun c hc o ho offset above r => ih c hc ho) (fun j c hj hend => ?_)
          (fun o => Window.mem_of_mem_old) hr hnot.2
        rw [Nat.zero_add] at hend
        exact Window.exists_isSame hj hend

/-- **The difference of two trees.** It is empty just if the roots are the same one, it keeps the order of the walk
through the new tree and repeats no place, it comes with all places around, and whatever it leaves out lies in an
element that is one of the old tree. -/
theorem diff_complete (old new : Green) :
    ((ofRoot old).diff (ofRoot new) = [] ↔ old.isSame new = true) ∧
      ((ofRoot old).diff (ofRoot new)).Sublist (ofRoot new).descendants ∧
      (((ofRoot old).diff (ofRoot new)).map path).Nodup ∧
      (∀ r ∈ (ofRoot old).diff (ofRoot new), ∀ a ∈ r.ancestors, a ∈ (ofRoot old).diff (ofRoot new)) ∧
      ∀ r ∈ (ofRoot new).descendants, r ∉ (ofRoot old).diff (ofRoot new) →
        ∃ s ∈ r.ancestors, s ∈ (ofRoot new).descendants ∧
          ∃ o ∈ (ofRoot old).descendants, o.green.isSame s.green = true := by
  have hsublist : ((ofRoot old).diff (ofRoot new)).Sublist (ofRoot new).descendants := sublist_diffFrom old new 0 []
  refine ⟨⟨fun hnil => ?_, fun hsame => diffFrom_of_isSame hsame 0 []⟩, hsublist,
    (nodup_walk new 0 []).sublist (hsublist.map path), fun r hr a ha => ?_, fun r hr hnot => ?_⟩
  · by_contra hsame
    rw [diff, ofRoot, ofRoot, diffFrom_of_not_isSame hsame] at hnil
    exact List.cons_ne_nil _ _ hnil
  · exact (upward_diffFrom old new 0 [] r hr a ha).resolve_right List.not_mem_nil
  · obtain ⟨s, hs, o, ho, hsame⟩ := shared_of_not_mem_diffFrom (.self old) hr hnot
    obtain ⟨p, hp, rfl⟩ := exists_mem_walk ho 0 []
    exact ⟨s, hs, mem_descendants_of_mem_ancestors hr hs, p, hp, hsame⟩

end Red

end IncrementalSyntax

import IncrementalSyntax.Proofs.Green.Leaves
import IncrementalSyntax.Red.Basic

/-!
# The places of a tree

The walk through a tree comes to every element once for each way down to it. What holds of the root and goes from an
element to its children holds of all places, and with a place come all places around it.

## Main definitions

* `Red.path`: the way from the root down to a place
* `Red.Upward`: places that come with all places around them
* `Red.behind`: the leaves behind a place

## Main results

* `Red.forall_descendants`: what goes from an element to its children
* `Red.nodup_walk`, `Red.upward_walk`: the places of a walk
* `Red.exists_leaves_eq`: a place has leaves in front of it and behind it
-/

namespace IncrementalSyntax

open Green (Sub leavesAll)

namespace Red

variable {g : Green} {cs : List Green} {r parent : Red} {index offset : Nat} {above : List Crumb}

/-! ## Places of a walk -/

/-- The indices of the children on the way from the root down to a place. -/
def path (r : Red) : List Nat := (r.above.map Crumb.index).reverse

/-- What lies at or below a place has the way up from there. -/
theorem exists_above_eq (h : r ∈ walk g offset above) : ∃ front, r.above = front ++ above := by
  induction g using Green.induction generalizing offset above with
  | token t =>
    obtain rfl : r = ⟨.token t, offset, above⟩ := by simpa [walk] using h
    exact ⟨[], rfl⟩
  | node hd cs ih =>
    have hall : ∀ ds, (∀ d ∈ ds, d ∈ cs) → ∀ index, r ∈ walkAll ⟨.node hd cs, offset, above⟩ index ds →
        ∃ front, r.above = front ++ above := by
      intro ds
      induction ds with
      | nil => exact fun _ _ h => absurd h List.not_mem_nil
      | cons d ds ihds =>
        intro hds index h
        rcases List.mem_append.1 h with h | h
        · obtain ⟨front, hfront⟩ := ih d (hds d List.mem_cons_self) h
          exact ⟨front ++ [⟨.node hd cs, offset, index⟩], by rw [hfront, List.append_assoc]; rfl⟩
        · exact ihds (fun e he => hds e (List.mem_cons_of_mem _ he)) _ h
    rcases List.mem_cons.1 h with rfl | h
    · exact ⟨[], rfl⟩
    · exact hall cs (fun _ => id) _ h

/-- What lies in one of some children has the way up from there, through the child. -/
theorem exists_above_eq_of_walkAll (h : r ∈ walkAll parent index cs) :
    ∃ front i, index ≤ i ∧ r.above = front ++ ⟨parent.green, parent.offset, i⟩ :: parent.above := by
  induction cs generalizing index with
  | nil => exact absurd h List.not_mem_nil
  | cons c cs ih =>
    rcases List.mem_append.1 h with h | h
    · obtain ⟨front, hfront⟩ := exists_above_eq h
      exact ⟨front, index, le_rfl, hfront⟩
    · obtain ⟨front, i, hi, hfront⟩ := ih h
      exact ⟨front, i, Nat.le_of_succ_le hi, hfront⟩

theorem path_eq_of_above_eq {front : List Crumb} (h : r.above = front ++ above) :
    r.path = (above.map Crumb.index).reverse ++ (front.map Crumb.index).reverse := by
  rw [path, h, List.map_append, List.reverse_append]

/-- No two places of a walk are reached by the same way. -/
theorem nodup_walk (g : Green) (offset : Nat) (above : List Crumb) : ((walk g offset above).map path).Nodup := by
  induction g using Green.induction generalizing offset above with
  | token t => simp [walk]
  | node hd cs ih =>
    have hall : ∀ ds, (∀ d ∈ ds, d ∈ cs) → ∀ index,
        ((walkAll ⟨.node hd cs, offset, above⟩ index ds).map path).Nodup := by
      intro ds
      induction ds with
      | nil => exact fun _ _ => List.nodup_nil
      | cons d ds ihds =>
        intro hds index
        rw [walkAll, List.map_append, List.nodup_append]
        refine ⟨ih d (hds d List.mem_cons_self) _ _, ihds (fun e he => hds e (List.mem_cons_of_mem _ he)) _, ?_⟩
        -- the ways through two children part at the index of the child
        rintro a ha b hb rfl
        obtain ⟨r, hr, hra⟩ := List.mem_map.1 ha
        obtain ⟨s, hs, hsa⟩ := List.mem_map.1 hb
        obtain ⟨front, hfront⟩ : ∃ front, r.above = front ++ ⟨.node hd cs, offset, index⟩ :: above :=
          exists_above_eq hr
        obtain ⟨front', i, hi, hfront'⟩ := exists_above_eq_of_walkAll hs
        have hpath := hra.trans hsa.symm
        rw [path_eq_of_above_eq hfront, path_eq_of_above_eq hfront', List.map_cons, List.map_cons, List.reverse_cons,
          List.reverse_cons, List.append_assoc, List.append_assoc, List.append_cancel_left_eq] at hpath
        have hindex : index = i := (List.cons.inj hpath).1
        omega
    rw [walk, List.map_cons, List.nodup_cons]
    refine ⟨fun hmem => ?_, hall cs (fun _ => id) _⟩
    obtain ⟨s, hs, hpath⟩ := List.mem_map.1 hmem
    obtain ⟨front, i, -, hfront⟩ := exists_above_eq_of_walkAll hs
    have hlength := congrArg List.length hpath
    rw [path_eq_of_above_eq hfront] at hlength
    simp [path] at hlength

/-- Every element of a tree has a place in the walk. -/
theorem exists_mem_walk {o : Green} (h : Sub o g) (offset : Nat) (above : List Crumb) :
    ∃ r ∈ walk g offset above, r.green = o := by
  induction h generalizing offset above with
  | self => exact ⟨⟨o, offset, above⟩, by cases o <;> exact List.mem_cons_self, rfl⟩
  | @child c hd cs hc _ ih =>
    have hall : ∀ ds, c ∈ ds → ∀ index, ∃ r ∈ walkAll ⟨.node hd cs, offset, above⟩ index ds, r.green = o := by
      intro ds
      induction ds with
      | nil => exact fun hc => absurd hc List.not_mem_nil
      | cons d ds ihds =>
        intro hc index
        rcases List.mem_cons.1 hc with rfl | hc
        · obtain ⟨r, hr, hgreen⟩ := ih _ _
          exact ⟨r, List.mem_append_left _ hr, hgreen⟩
        · obtain ⟨r, hr, hgreen⟩ := ihds hc (index + 1)
          exact ⟨r, List.mem_append_right _ hr, hgreen⟩
    obtain ⟨r, hr, hgreen⟩ := hall cs hc 0
    exact ⟨r, List.mem_cons_of_mem _ hr, hgreen⟩

/-! ## Places that come with the places around them -/

/-- **Upward.** With every place there are the places around it, up to those that lie around all of them. -/
def Upward (up places : List Red) : Prop := ∀ r ∈ places, ∀ a ∈ r.ancestors, a ∈ places ∨ a ∈ up

theorem Upward.append {up as bs : List Red} (ha : Upward up as) (hb : Upward up bs) : Upward up (as ++ bs) := by
  intro r hr a har
  rcases List.mem_append.1 hr with hr | hr
  · exact (ha r hr a har).imp_left (List.mem_append_left _)
  · exact (hb r hr a har).imp_left (List.mem_append_right _)

/-- A place in front of what lies below it. -/
theorem Upward.under (index : Nat) {places : List Red}
    (h : Upward (ofCrumbs (⟨g, offset, index⟩ :: above)) places) :
    Upward (ofCrumbs above) (⟨g, offset, above⟩ :: places) := by
  intro r hr a har
  rcases List.mem_cons.1 hr with rfl | hr
  · rcases List.mem_cons.1 har with rfl | har
    · exact .inl List.mem_cons_self
    · exact .inr har
  · rcases h r hr a har with hp | hup
    · exact .inl (List.mem_cons_of_mem _ hp)
    · rcases List.mem_cons.1 hup with rfl | hup
      · exact .inl List.mem_cons_self
      · exact .inr hup

theorem upward_walk (g : Green) (offset : Nat) (above : List Crumb) :
    Upward (ofCrumbs above) (walk g offset above) := by
  induction g using Green.induction generalizing offset above with
  | token t => exact Upward.under (g := .token t) 0 fun _ hr => absurd hr List.not_mem_nil
  | node hd cs ih =>
    refine Upward.under 0 ?_
    have hall : ∀ ds, (∀ d ∈ ds, d ∈ cs) → ∀ index, Upward (ofCrumbs (⟨.node hd cs, offset, 0⟩ :: above))
        (walkAll ⟨.node hd cs, offset, above⟩ index ds) := by
      intro ds
      induction ds with
      | nil => exact fun _ _ _ hr => absurd hr List.not_mem_nil
      | cons d ds ihds =>
        intro hds index
        exact .append (ih d (hds d List.mem_cons_self) _ (⟨.node hd cs, offset, index⟩ :: above))
          (ihds (fun e he => hds e (List.mem_cons_of_mem _ he)) _)
    exact hall cs (fun _ => id) 0

/-- What lies at or below a place has it on the way up. -/
theorem mem_ancestors_of_mem_walk (h : r ∈ walk g offset above) : (⟨g, offset, above⟩ : Red) ∈ r.ancestors := by
  induction g using Green.induction generalizing offset above with
  | token t =>
    obtain rfl : r = ⟨.token t, offset, above⟩ := by simpa [walk] using h
    exact List.mem_cons_self
  | node hd cs ih =>
    rcases List.mem_cons.1 h with rfl | h
    · exact List.mem_cons_self
    · obtain ⟨front, i, -, hfront⟩ := exists_above_eq_of_walkAll h
      have hup : ∀ front : List Crumb, (⟨.node hd cs, offset, above⟩ : Red) ∈
          ofCrumbs (front ++ ⟨.node hd cs, offset, i⟩ :: above) := by
        intro front
        induction front with
        | nil => exact List.mem_cons_self
        | cons c front ihfront => exact List.mem_cons_of_mem _ ihfront
      rw [ancestors, hfront]
      exact List.mem_cons_of_mem _ (hup front)

/-- The elements around a place of a tree have places in it too. -/
theorem mem_descendants_of_mem_ancestors {a : Red} (hr : r ∈ (ofRoot g).descendants) (ha : a ∈ r.ancestors) :
    a ∈ (ofRoot g).descendants :=
  (upward_walk g 0 [] r hr a ha).resolve_right List.not_mem_nil

/-! ## From the root down -/

/-- What lies in one of some children lies at or below a child. -/
theorem exists_of_mem_walkAll (h : r ∈ walkAll parent index cs) :
    ∃ i c, cs[i]? = some c ∧ r ∈ (parent.below (index + i) c).descendants := by
  induction cs generalizing index with
  | nil => exact absurd h List.not_mem_nil
  | cons d ds ih =>
    rcases List.mem_append.1 h with h | h
    · exact ⟨0, d, rfl, h⟩
    · obtain ⟨i, c, hc, hr⟩ := ih h
      refine ⟨i + 1, c, by simpa using hc, ?_⟩
      rwa [Nat.add_comm i 1, ← Nat.add_assoc]

/-- **From the root down.** What holds of an element and goes from a place to its children holds of all places below. -/
theorem forall_descendants {P : Red → Prop} (hchild : ∀ r i c, P r → child? r i = some c → P c) {root : Red}
    (h : P root) : ∀ r ∈ root.descendants, P r := by
  obtain ⟨g, offset, above⟩ := root
  show ∀ r ∈ walk g offset above, P r
  induction g using Green.induction generalizing offset above with
  | token t =>
    intro r hr
    obtain rfl : r = ⟨.token t, offset, above⟩ := by simpa [walk] using hr
    exact h
  | node hd cs ih =>
    intro r hr
    rcases List.mem_cons.1 hr with rfl | hr
    · exact h
    · obtain ⟨i, c, hc, hr⟩ := exists_of_mem_walkAll hr
      rw [Nat.zero_add] at hr
      refine ih c (List.mem_of_getElem? hc) _ _ (hchild _ i (below _ i c) h ?_) r hr
      simp [child?, Green.children, hc]

theorem child?_eq_some_iff {c : Red} {i : Nat} :
    r.child? i = some c ↔ r.green.children[i]? = some c.green ∧
      c = r.below i c.green := by
  rw [child?, Option.map_eq_some_iff]
  constructor
  · rintro ⟨g, hg, rfl⟩
    exact ⟨hg, rfl⟩
  · rintro ⟨hg, hc⟩
    exact ⟨c.green, hg, hc.symm⟩

theorem above_of_child? {c : Red} {i : Nat} (h : r.child? i = some c) :
    c.above = ⟨r.green, r.offset, i⟩ :: r.above :=
  congrArg Red.above (child?_eq_some_iff.1 h).2

/-- The leaves behind a place, up to the end of the tree. -/
def behind (r : Red) : List Leaf := r.above.flatMap fun c => leavesAll (c.parent.children.drop (c.index + 1))

/-- The leaves of a tree lie in front of a place, at it and behind it. -/
theorem exists_leaves_eq (hr : r ∈ (ofRoot g).descendants) :
    ∃ before, g.leaves = before ++ r.green.leaves ++ r.behind := by
  refine forall_descendants (P := fun r => ∃ before, g.leaves = before ++ r.green.leaves ++ r.behind) ?_
    ⟨[], by simp [ofRoot, behind]⟩ r hr
  rintro r i c ⟨before, hbefore⟩ hc
  obtain ⟨hi, heq⟩ := child?_eq_some_iff.1 hc
  obtain ⟨hlt, hget⟩ := List.getElem?_eq_some_iff.1 hi
  have hbehind : c.behind = leavesAll (r.green.children.drop (i + 1)) ++ r.behind := by
    rw [heq]
    rfl
  have hleaves : r.green.leaves = leavesAll r.green.children := by
    cases hg : r.green with
    | token t => simp [hg, Green.children] at hlt
    | node hd cs => rfl
  refine ⟨before ++ leavesAll (r.green.children.take i), ?_⟩
  conv_lhs => rw [hbefore, hleaves, ← List.take_append_drop i r.green.children, List.drop_eq_getElem_cons hlt, hget]
  simp [hbehind, List.append_assoc]

end Red

end IncrementalSyntax

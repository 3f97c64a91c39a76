import IncrementalSyntax.Proofs.Red.Replaced
import IncrementalSyntax.Proofs.Tree.Reports

/-!
# Annotating an element of a tree

An annotation on an element gives a tree that differs from the old one in annotations and flags only: the
element has one annotation more, the nodes around it may have other flags, and all that does not lie at
these places is shared.

## Main definitions

* `Red.AnnotatedAs`: a place before and after an annotation was put somewhere
* `SyntaxTree.AnnotatedAt`: a tree before and after an annotation was put somewhere

## Main results

* `SyntaxTree.annotatedAt_annotate`: what an annotation does to a tree
* `SyntaxTree.replace_spec`: what replacing an element does, and what an annotation does
-/

namespace IncrementalSyntax

/-! ## Leaves up to their annotations -/

namespace Leaf

variable {ls ks : List Leaf}

/-- What does not depend on annotations is the same for leaves that differ in nothing else. -/
theorem map_eq_of_unannotated {α : Type} (f : Leaf → α) (hf : ∀ l, f l.unannotated = f l)
    (h : ls.map unannotated = ks.map unannotated) : ls.map f = ks.map f := by
  have hcomp : f = f ∘ unannotated := funext fun l => (hf l).symm
  rw [hcomp, ← List.map_map, ← List.map_map, h]

theorem reportAll_eq_of_unannotated (h : ls.map unannotated = ks.map unannotated) (start : Nat) :
    reportAll diagnostics start ls = reportAll diagnostics start ks := by
  induction ls generalizing ks start with
  | nil =>
    cases ks with
    | nil => rfl
    | cons k ks => cases h
  | cons l ls ih =>
    cases ks with
    | nil => cases h
    | cons k ks =>
      obtain ⟨hhead, htail⟩ := List.cons.inj h
      have hdiagnostics : l.diagnostics = k.diagnostics := (congrArg diagnostics hhead :)
      have hwidth : l.width = k.width := (congrArg width hhead :)
      rw [reportAll, reportAll, hdiagnostics, hwidth, ih htail]

end Leaf

namespace Green.Annotated

variable {g g' : Green}

theorem width_eq (h : Annotated g g') (hexact : g.Exact) : g'.width = g.width := by
  rw [(h.exact hexact).width_eq, hexact.width_eq, Leaf.map_eq_of_unannotated Leaf.width (fun _ => rfl) h.leaves_eq]

theorem text_eq (h : Annotated g g') : g'.text = g.text := by
  have htexts : ∀ g : Green, g.text = (g.leaves.map Leaf.fullText).flatten := by
    intro g
    rw [text, leaves, List.map_map, List.flatMap_def]
    rfl
  rw [htexts, htexts, Leaf.map_eq_of_unannotated Leaf.fullText (fun _ => rfl) h.leaves_eq]

theorem kind_eq (h : Annotated g g') : g'.kind = g.kind := by
  cases h with
  | here g id a => cases g <;> rfl
  | inside => rfl

theorem length_children (h : Annotated g g') : g'.children.length = g.children.length := by
  cases h with
  | here g id a => cases g <;> rfl
  | inside => exact List.length_set

end Green.Annotated

/-- The range without outer trivia depends on the leaves and on the full range. -/
theorem Red.range_eq {r s : Red} (hfull : s.fullRange = r.fullRange)
    (hleaves : s.green.leaves.map Leaf.unannotated = r.green.leaves.map Leaf.unannotated) : s.range = r.range := by
  have hleading : ∀ u : Red, u.green.firstToken?.map (·.leaf.leadingWidth) =
      (u.green.leaves.map Leaf.leadingWidth).head? := by
    intro u
    rw [Green.leaves, List.map_map, List.head?_map]
    rfl
  have htrailing : ∀ u : Red, u.green.lastToken?.map (·.leaf.trailingWidth) =
      (u.green.leaves.map Leaf.trailingWidth).getLast? := by
    intro u
    rw [Green.leaves, List.map_map, List.getLast?_map]
    rfl
  have hoffset : s.offset = r.offset := congrArg Range.start hfull
  simp only [range]
  rw [hleading, hleading, htrailing, htrailing, hfull, hoffset,
    Leaf.map_eq_of_unannotated Leaf.leadingWidth (fun _ => rfl) hleaves,
    Leaf.map_eq_of_unannotated Leaf.trailingWidth (fun _ => rfl) hleaves]

/-! ## Places -/

/-- **Annotated as.** The place at `q`, before and after an annotation was put on the element at `path`. -/
structure Red.AnnotatedAs (path : List Nat) (a : Annotation) (q : List Nat) (r r' : Red) : Prop where
  kind : r'.kind = r.kind
  fullRange : r'.fullRange = r.fullRange
  range : r'.range = r.range
  tokens : r'.green.leaves.map Leaf.unannotated = r.green.leaves.map Leaf.unannotated
  children : r'.green.children.length = r.green.children.length
  annotations : r'.green.annotations = r.green.annotations ++ if q = path then [a] else []
  /-- Where the annotation does not lie at the place or below it, the element is shared. -/
  shared : ¬ q <+: path → r'.green = r.green

namespace Green.PutAt

variable {old root new : Green} {path q : List Nat} {id : Id} {a : Annotation}

theorem annotate_children (g : Green) (id : Id) (a : Annotation) : (g.annotate id a).children = g.children := by
  cases g <;> rfl

theorem annotate_annotations (g : Green) (id : Id) (a : Annotation) :
    (g.annotate id a).annotations = g.annotations ++ [a] := by
  cases g <;> rfl

/-- Each place of the tree, before and after. -/
theorem annotatedAs (h : PutAt old (old.annotate id a) path root new) (hroot : root.Exact) (hold : old.Exact) :
    Option.Rel (Red.AnnotatedAs path a q) ((Red.ofRoot root).follow? q) ((Red.ofRoot new).follow? q) := by
  have hwidth : (old.annotate id a).width = old.width := (Annotated.here old id a).width_eq hold
  by_cases hq : q <+: path
  · -- the place lies on the path, or the path ends at it
    obtain ⟨rest, rfl⟩ := hq
    cases hu : (Red.ofRoot root).follow? q with
    | none =>
      obtain ⟨before, behind, -, -, hlocate⟩ := h.text_eq hroot 0
      obtain ⟨s, hs, -⟩ := Red.exists_follow?_of_locate? (r := Red.ofRoot root) hlocate
      rw [Red.follow?_append, hu] at hs
      cases hs
    | some u =>
      obtain ⟨v, hv, hcopy⟩ := h.locate?_append hroot (Red.locate?_of_follow? hu)
      obtain ⟨u', hu', rfl, hoffset⟩ := Red.exists_follow?_of_locate? (r := Red.ofRoot new) hv
      have hexact := (Red.Inside.of_mem_descendants hroot (Red.mem_descendants_iff.2 ⟨q, hu⟩)).exact
      have hannotated := hcopy.annotated
      have hfull : u'.fullRange = u.fullRange := by
        rw [Red.fullRange, Red.fullRange, hoffset, hannotated.width_eq hexact]
      rw [hu']
      refine .some ⟨hannotated.kind_eq, hfull, Red.range_eq hfull hannotated.leaves_eq, hannotated.leaves_eq,
        hannotated.length_children, ?_, fun hnot => absurd (List.prefix_append q rest) hnot⟩
      cases rest with
      | nil =>
        obtain ⟨hu'', hold'⟩ := hcopy.eq_of_nil
        rw [List.append_nil, if_pos rfl, hu'', hold', annotate_annotations]
      | cons i rest =>
        have hne : q ≠ q ++ i :: rest := fun heq => by simp at heq
        rw [if_neg hne, List.append_nil]
        exact hcopy.ancestor_eq.2.1
  · -- the place lies beside the path, where all is shared
    have hcopy : (old.annotate id a).Exact := (Annotated.here old id a).exact hold
    have hsame := h.locate?_of_not_prefix hroot hcopy hwidth (annotate_children old id a) hq 0
    cases hu : (Red.ofRoot root).follow? q with
    | none =>
      cases hu' : (Red.ofRoot new).follow? q with
      | none => exact .none
      | some u' =>
        have := hsame.symm.trans (Red.locate?_of_follow? hu')
        obtain ⟨u, hfound, -⟩ := Red.exists_follow?_of_locate? (r := Red.ofRoot root) this
        rw [hu] at hfound
        cases hfound
    | some u =>
      obtain ⟨u', hu', hgreen, hoffset⟩ := Red.exists_follow?_of_locate? (r := Red.ofRoot new)
        (hsame.trans (Red.locate?_of_follow? hu))
      have hfull : u'.fullRange = u.fullRange := by rw [Red.fullRange, Red.fullRange, hoffset, hgreen]
      have hne : q ≠ path := fun heq => hq (heq ▸ List.prefix_refl q)
      rw [hu']
      refine .some ⟨?_, hfull, Red.range_eq hfull (by rw [hgreen]), by rw [hgreen], by rw [hgreen], ?_,
        fun _ => hgreen⟩
      · rw [Red.kind, Red.kind, hgreen]
      · rw [if_neg hne, List.append_nil, hgreen]

end Green.PutAt

/-! ## Trees -/

namespace SyntaxTree

/-- **Annotated at.** The second tree is the first one with an annotation on the element at a path. -/
structure AnnotatedAt (path : List Nat) (a : Annotation) (t t' : SyntaxTree) : Prop where
  same : t' = { t with root := t'.root }
  text : t'.root.text = t.root.text
  tokens : t'.root.leaves.map Leaf.unannotated = t.root.leaves.map Leaf.unannotated
  reports : t'.reports = t.reports
  /-- The trees have the same places, and at one of them the element has the annotation. -/
  places : ∀ q, Option.Rel (Red.AnnotatedAs path a q) (t.red.follow? q) (t'.red.follow? q)

variable {w : Workspace} {t : SyntaxTree} {r : Red} {path : List Nat}

/-- The root that a place was reached from. -/
theorem root_of_follow? {s : Red} (h : s.follow? path = some r) : r.root = s.root := by
  induction path generalizing s with
  | nil =>
    obtain rfl : s = r := Option.some.inj h
    rfl
  | cons i path ih =>
    obtain ⟨c, hc, hr⟩ := Red.follow?_cons_eq_some_iff.1 h
    have habove : c.above = ⟨s.green, s.offset, i⟩ :: s.above := congrArg Red.above (Red.child?_eq_some_iff.1 hc).2
    rw [ih hr, Red.root, Red.root, habove, Red.ofCrumbs, List.getLastD_cons]

theorem owns_of_follow? (hr : t.red.follow? path = some r) : t.owns r = true := by
  rw [owns, root_of_follow? hr]
  show t.root.isSame t.root = true
  cases t.root <;> simp [Green.isSame, Token.isSame]

/-- **Annotating** an element of a tree gives a tree with the annotation on that element. -/
theorem annotatedAt_annotate (hexact : t.root.Exact) (hr : t.red.follow? path = some r) (a : Annotation) :
    ∃ t' w', t.annotate w r a = some (t', w') ∧ t.AnnotatedAt path a t' := by
  have hput := Red.putAt_replaceWith hr w.pool.fresh.2.nextId (r.green.annotate w.pool.fresh.1 a)
  have hold := (Red.Inside.of_mem_descendants hexact (Red.mem_descendants_iff.2 ⟨path, hr⟩)).exact
  have hannotated := hput.annotated
  rw [annotate, if_pos (owns_of_follow? hr)]
  refine ⟨_, _, rfl, rfl, hannotated.text_eq, hannotated.leaves_eq, ?_, fun q => hput.annotatedAs hexact hold⟩
  rw [reports, reports, red, red, Red.reports_ofRoot_eq hexact, Red.reports_ofRoot_eq (hannotated.exact hexact)]
  exact Leaf.reportAll_eq_of_unannotated hannotated.leaves_eq 0

/-- **Path copying.** Replacing an element of a tree replaces its text, keeps the nodes on the path but for one
child each, and shares the rest. An annotation on an element of a tree changes annotations and flags at that
element and around it, and nothing else; on an element of another tree there is none. -/
theorem replace_spec :
    (∀ root : Green, root.Exact → ∀ path r, (Red.ofRoot root).follow? path = some r →
      ∀ n g, Red.Replaces root path r g (r.replaceWith n g).1) ∧
    ∀ (w : Workspace) (t : SyntaxTree), t.root.Exact → ∀ a,
      (∀ path r, t.red.follow? path = some r →
        ∃ t' w', t.annotate w r a = some (t', w') ∧ t.AnnotatedAt path a t') ∧
      ∀ r : Red, r.root.green.isSame t.root = false → t.annotate w r a = none := by
  refine ⟨?_, ?_⟩
  · intro root hexact path r hr n g
    exact Red.replaces_replaceWith hexact hr n g
  · intro w t hexact a
    refine ⟨?_, ?_⟩
    · intro path r hr
      exact annotatedAt_annotate hexact hr a
    · intro r hforeign
      rw [annotate, owns, hforeign]
      rfl

/-- The token that ends a statement is replaced by a wider one, and then gets an annotation; as the root of
its own it belongs to no tree. -/
theorem replace_spec_semicolon : ∃ (t t' : SyntaxTree) (w' : Workspace) (r : Red) (g : Green),
    t.red.follow? [0, 1] = some r ∧ r.green.text = [';'] ∧ (r.replaceWith 9 g).1.text = ['a', 'b', 'c'] ∧
      Red.Replaces t.root [0, 1] r g (r.replaceWith 9 g).1 ∧
      t.annotate {} r ⟨0, "m", none⟩ = some (t', w') ∧ t.AnnotatedAt [0, 1] ⟨0, "m", none⟩ t' ∧
      t.annotate {} (.ofRoot r.green) ⟨0, "m", none⟩ = none := by
  obtain ⟨hreplace, hannotate⟩ := replace_spec
  have hexact := (valid_ofText {} ['a', ';'] {} .statement).old.fine.exact
  obtain ⟨r, hr⟩ : ∃ r, (ofText {} ['a', ';'] {} .statement).1.red.follow? [0, 1] = some r :=
    Option.isSome_iff_exists.1 (by decide +kernel)
  have hplace : ((ofText {} ['a', ';'] {} .statement).1.red.follow? [0, 1]).all (fun r =>
      r.green.text = [';'] &&
        (r.replaceWith 9 (.token ⟨8, { kind := .token .ident, text := ['b', 'c'] }⟩)).1.text = ['a', 'b', 'c'] &&
        !r.green.isSame (ofText {} ['a', ';'] {} .statement).1.root) = true := by
    decide +kernel
  rw [hr, Option.all_some, Bool.and_eq_true, Bool.and_eq_true, decide_eq_true_eq, decide_eq_true_eq,
    Bool.not_eq_true'] at hplace
  obtain ⟨⟨htext, htext'⟩, hforeign⟩ := hplace
  obtain ⟨hown, hother⟩ := hannotate {} (ofText {} ['a', ';'] {} .statement).1 hexact ⟨0, "m", none⟩
  obtain ⟨t', w', ht', hat⟩ := hown [0, 1] r hr
  exact ⟨_, t', w', r, _, hr, htext, htext', hreplace _ hexact _ r hr 9 _, ht', hat, hother _ hforeign⟩

end SyntaxTree

end IncrementalSyntax

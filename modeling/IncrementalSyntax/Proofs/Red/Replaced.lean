import IncrementalSyntax.Proofs.Red.Annotated
import IncrementalSyntax.Proofs.Red.Paths

/-!
# Copying a path

To put another element at a place, the nodes on the way up from it are copied, one after the other. A copy
on the way has one child replaced and all the rest as it was, and what lies beside the path is shared with
the old tree.

## Main definitions

* `Green.PutAt`: a copy with another element at the end of a path
* `Red.Replaces`: what such a copy has in common with the old tree

## Main results

* `Red.putAt_replaceWith`: replacing an element copies the path to it
* `Green.PutAt.locate?_append`: a place on the path, before and after
* `Green.PutAt.locate?_of_not_prefix`: a place beside the path, before and after
* `Red.replaces_replaceWith`: the text, the path and the frame of a replacement
-/

namespace IncrementalSyntax

namespace Green

/-! ## Texts -/

/-- The text of elements in a row, around one of them. -/
theorem flatMap_text_eq {cs : List Green} {i : Nat} {c : Green} (hc : cs[i]? = some c) (c' : Green) :
    cs.flatMap text = (cs.take i).flatMap text ++ (c.text ++ (cs.drop (i + 1)).flatMap text) ∧
      (cs.set i c').flatMap text = (cs.take i).flatMap text ++ (c'.text ++ (cs.drop (i + 1)).flatMap text) := by
  obtain ⟨hcs, hcs'⟩ := row_eq hc c'
  constructor
  · conv_lhs => rw [hcs]
    rw [List.flatMap_append, List.flatMap_cons]
  · rw [hcs', List.flatMap_append, List.flatMap_cons]

theorem text_node (h : Header) (cs : List Green) : (node h cs).text = cs.flatMap text := by
  show (tokensAll cs).flatMap _ = _
  rw [tokensAll_eq_flatMap, List.flatMap_assoc]
  rfl

theorem width_flatMap_text {cs : List Green} (h : ∀ c ∈ cs, c.text.width = c.width) :
    Text.width (cs.flatMap text) = widthAll cs := by
  induction cs with
  | nil => rfl
  | cons c cs ih =>
    rw [List.flatMap_cons, Text.width_append, h c List.mem_cons_self,
      ih fun d hd => h d (List.mem_cons_of_mem _ hd), widthAll]

/-- The width of an exact element is that of its text. -/
theorem Exact.width_text {g : Green} (h : g.Exact) : g.text.width = g.width := by
  induction g using Green.induction with
  | token t =>
    show Text.width (t.leaf.fullText ++ []) = t.leaf.width
    rw [List.append_nil, t.leaf.width_eq]
  | node hd cs ih =>
    rw [text_node, width, h.1.width]
    exact width_flatMap_text fun c hc => ih c hc (h.of_mem hc)

/-! ## Copies -/

/-- **Put.** A copy of an element that has `g` where the path leads to `old`. The nodes on the path are
copied, each under some identity. -/
inductive PutAt (old g : Green) : List Nat → Green → Green → Prop
  | here : PutAt old g [] old g
  | inside {h : Header} {cs : List Green} {i : Nat} {c c' : Green} {path : List Nat} (id : Id)
      (hc : cs[i]? = some c) (hput : PutAt old g path c c') :
      PutAt old g (i :: path) (.node h cs) ((node h cs).replaceChild id i c')

namespace PutAt

variable {old g root new : Green} {path p q rest : List Nat}

/-- A child that is replaced starts where the old one did, as nothing in front of it changes. -/
theorem childStart_replaceChild {h : Header} {cs : List Green} {i : Nat} {c : Green} (hsummary : Summarizes h cs)
    (hc : cs[i]? = some c) (id : Id) (c' : Green) :
    ((node h cs).replaceChild id i c').childStart i = (node h cs).childStart i := by
  have hlt : i < cs.length := (List.getElem?_eq_some_iff.1 hc).1
  have hcopy : ((node h cs).replaceChild id i c').childOffset? i = (offsetsFrom 0 (cs.set i c'))[i]? := rfl
  rw [childStart, childStart, hcopy, hsummary.childOffset?_eq, getElem?_offsetsFrom, getElem?_offsetsFrom,
    List.length_set, if_pos hlt, if_pos hlt, List.take_set_of_le (le_refl i)]

theorem exact (h : PutAt old g path root new) (hroot : root.Exact) (hg : g.Exact) : new.Exact := by
  induction h with
  | here => exact hg
  | @inside h cs i c c' path id hc hput ih =>
    refine exact_ofChildren.2 fun d hd => ?_
    rcases List.mem_or_eq_of_mem_set hd with hd | rfl
    · exact hroot.of_mem hd
    · exact ih (hroot.of_mem (List.mem_of_getElem? hc))

/-- The text is the old one with the text of `g` in the place of that of `old`. -/
theorem text_eq (h : PutAt old g path root new) (hroot : root.Exact) (start : Nat) :
    ∃ before behind, root.text = before ++ (old.text ++ behind) ∧ new.text = before ++ (g.text ++ behind) ∧
      root.locate? start path = some (old, start + Text.width before) := by
  induction h generalizing start with
  | here => exact ⟨[], [], by simp, by simp, rfl⟩
  | @inside h cs i c c' path id hc hput ih =>
    obtain ⟨before, behind, htext, htext', hlocate⟩ :=
      ih (hroot.of_mem (List.mem_of_getElem? hc)) (start + (node h cs).childStart i)
    -- what stands beside the child goes in front of its text and behind it
    obtain ⟨hcs, hcs'⟩ := flatMap_text_eq hc c'
    have hwidth : Text.width ((cs.take i).flatMap text) = (node h cs).childStart i :=
      (width_flatMap_text fun d hd => (hroot.of_mem (List.mem_of_mem_take hd)).width_text).trans
        (hroot.childStart_eq hc).symm
    refine ⟨(cs.take i).flatMap text ++ before, behind ++ (cs.drop (i + 1)).flatMap text, ?_, ?_, ?_⟩
    · rw [text_node, hcs, htext]
      simp
    · show (node _ (cs.set i c')).text = _
      rw [text_node, hcs', htext']
      simp
    · rw [locate?, show (node h cs).children[i]? = some c from hc, Option.bind_some, Text.width_append, hwidth,
        ← Nat.add_assoc]
      exact hlocate

/-- **On the path.** Where the path has come some way, the copy stands at the same offset, and the rest of
the path has been copied from there. -/
theorem locate?_append (h : PutAt old g (p ++ rest) root new) (hroot : root.Exact) {start o : Nat} {u : Green}
    (hu : root.locate? start p = some (u, o)) : ∃ u', new.locate? start p = some (u', o) ∧ PutAt old g rest u u' := by
  induction p generalizing root new start with
  | nil =>
    obtain ⟨rfl, rfl⟩ := Prod.mk.inj (Option.some.inj hu)
    exact ⟨new, rfl, h⟩
  | cons i p ih =>
    cases h with
    | @inside h cs _ c c' _ id hc hput =>
      have hget : (cs.set i c')[i]? = some c' := by
        rw [List.getElem?_set_self (List.getElem?_eq_some_iff.1 hc).1]
      rw [locate?, show (node h cs).children[i]? = some c from hc, Option.bind_some] at hu
      obtain ⟨u', hu', hrest⟩ := ih hput (hroot.of_mem (List.mem_of_getElem? hc)) hu
      refine ⟨u', ?_, hrest⟩
      rw [locate?, show ((node h cs).replaceChild id i c').children = cs.set i c' from rfl, hget, Option.bind_some,
        childStart_replaceChild hroot.1 hc]
      exact hu'

theorem eq_of_nil (h : PutAt old g [] root new) : new = g ∧ root = old := by
  cases h
  exact ⟨rfl, rfl⟩

/-- A node on the path keeps all but one child. -/
theorem ancestor_eq {i : Nat} (h : PutAt old g (i :: rest) root new) :
    new.kind = root.kind ∧ new.annotations = root.annotations ∧ new.children.length = root.children.length ∧
      ∀ j, j ≠ i → new.children[j]? = root.children[j]? := by
  cases h with
  | @inside h cs _ c c' _ id hc hput =>
    refine ⟨rfl, rfl, List.length_set, fun j hj => ?_⟩
    exact List.getElem?_set_ne hj.symm

/-- A copy is as wide as the old element if what was put into it is. -/
theorem width_eq (h : PutAt old g path root new) (hroot : root.Exact) (hwidth : g.width = old.width) :
    new.width = root.width := by
  induction h with
  | here => exact hwidth
  | @inside h cs i c c' path id hc hput ih =>
    have hc' := ih (hroot.of_mem (List.mem_of_getElem? hc))
    show widthAll (cs.set i c') = h.width
    rw [hroot.1.width, widthAll_eq_sum, widthAll_eq_sum, Annotated.map_set width hc hc']

/-- **Beside the path.** If what was put there has the children and the width of the old element, then all
that does not lie on the path is shared, and stands where it stood. -/
theorem locate?_of_not_prefix (h : PutAt old g path root new) (hroot : root.Exact) (hg : g.Exact)
    (hwidth : g.width = old.width) (hchildren : g.children = old.children) (hq : ¬ q <+: path) (start : Nat) :
    new.locate? start q = root.locate? start q := by
  induction h generalizing q start with
  | here =>
    cases q with
    | nil => exact absurd List.nil_prefix hq
    | cons j q => rw [locate?, locate?, hchildren, hroot.childStart_congr hg (congrArg (List.map width) hchildren)]
  | @inside h cs i c c' path id hc hput ih =>
    have hexact : c.Exact := hroot.of_mem (List.mem_of_getElem? hc)
    cases q with
    | nil => exact absurd List.nil_prefix hq
    | cons j q =>
      rw [locate?, locate?, show ((node h cs).replaceChild id i c').children = cs.set i c' from rfl,
        show (node h cs).children = cs from rfl]
      have hcopy : ((node h cs).replaceChild id i c').Exact := (PutAt.inside id hc hput).exact hroot hg
      rw [hroot.childStart_congr hcopy (Annotated.map_set width hc (hput.width_eq hexact hwidth))]
      -- in the child on the path the search goes on; every other child is the old one
      by_cases hij : i = j
      · subst hij
        have hget : (cs.set i c')[i]? = some c' := by
          rw [List.getElem?_set_self (List.getElem?_eq_some_iff.1 hc).1]
        rw [hget, hc, Option.bind_some, Option.bind_some]
        exact ih hexact (fun hprefix => hq (List.cons_prefix_cons.2 ⟨rfl, hprefix⟩)) _
      · rw [List.getElem?_set_ne hij]

/-- An annotated copy puts an annotated element at the end of a path. -/
theorem annotated {id : Id} {a : Annotation} (h : PutAt old (old.annotate id a) path root new) :
    Annotated root new := by
  induction h with
  | here => exact .here old id a
  | inside id' hc hput ih => exact .inside id' hc ih

end PutAt

end Green

namespace Red

variable {root : Green} {path : List Nat} {r : Red}

/-- **Replacing an element** copies the path to it. -/
theorem putAt_replaceWith (hr : (ofRoot root).follow? path = some r) (n : Id) (g : Green) :
    Green.PutAt r.green g path root (r.replaceWith n g).1 := by
  refine replaceWith_induction (P := fun path u u' _ => Green.PutAt r.green g path u u') ?_ hr .here
  intro h cs i c c' path n hc hput
  exact .inside n hc hput

/-- **Replaces.** The root `new` is a copy of `root` with `g` at the place `r`, to which the path leads. -/
structure Replaces (root : Green) (path : List Nat) (r : Red) (g new : Green) : Prop where
  /-- The range of the place is replaced by the text of `g`. -/
  text : ∃ before behind, root.text = before ++ (r.green.text ++ behind) ∧ new.text = before ++ (g.text ++ behind) ∧
    Text.width before = r.fullRange.start ∧ r.green.text.width = r.fullRange.length
  place : ∃ s, (ofRoot new).follow? path = some s ∧ s.green = g ∧ s.offset = r.offset
  /-- The nodes around the place keep all but the child on the path. -/
  ancestors : ∀ p i rest, path = p ++ i :: rest → ∃ u u', (ofRoot root).follow? p = some u ∧
    (ofRoot new).follow? p = some u' ∧ u'.offset = u.offset ∧ u'.kind = u.kind ∧
    u'.green.annotations = u.green.annotations ∧ u'.green.children.length = u.green.children.length ∧
    ∀ j, j ≠ i → u'.green.children[j]? = u.green.children[j]?
  exact : g.Exact → new.Exact

/-- **Path copying.** Replacing an element changes the path to it, and nothing else. -/
theorem replaces_replaceWith (hroot : root.Exact) (hr : (ofRoot root).follow? path = some r) (n : Id) (g : Green) :
    Replaces root path r g (r.replaceWith n g).1 where
  text := by
    obtain ⟨before, behind, htext, htext', hlocate⟩ := (putAt_replaceWith hr n g).text_eq hroot 0
    have hoffset : r.offset = Text.width before := by
      have := (locate?_of_follow? hr).symm.trans hlocate
      simpa using this
    have hexact := (Inside.of_mem_descendants hroot (mem_descendants_iff.2 ⟨path, hr⟩)).exact
    exact ⟨before, behind, htext, htext', hoffset.symm, hexact.width_text⟩
  place := by
    have hput : Green.PutAt r.green g (path ++ []) root (r.replaceWith n g).1 := by
      rw [List.append_nil]
      exact putAt_replaceWith hr n g
    obtain ⟨u', hu', hnil⟩ := hput.locate?_append hroot (locate?_of_follow? hr)
    rw [hnil.eq_of_nil.1] at hu'
    exact exists_follow?_of_locate? hu'
  ancestors := by
    rintro p i rest rfl
    have hput := putAt_replaceWith hr n g
    rw [follow?_append] at hr
    obtain ⟨u, hu, -⟩ := Option.bind_eq_some_iff.1 hr
    obtain ⟨v, hv, hcopy⟩ := hput.locate?_append hroot (locate?_of_follow? hu)
    obtain ⟨u', hu', hgreen, hoffset⟩ := exists_follow?_of_locate? (r := ofRoot (r.replaceWith n g).1) hv
    obtain ⟨hkind, hannotations, hlength, hothers⟩ := hcopy.ancestor_eq
    subst hgreen
    exact ⟨u, u', hu, hu', hoffset, hkind, hannotations, hlength, hothers⟩
  exact := fun hg => (putAt_replaceWith hr n g).exact hroot hg

end Red

end IncrementalSyntax

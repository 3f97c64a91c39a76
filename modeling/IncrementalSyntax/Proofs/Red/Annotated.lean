import IncrementalSyntax.Proofs.Red.Paths
import IncrementalSyntax.Proofs.Stream.OldTree
import IncrementalSyntax.Proofs.Stream.Supply

/-!
# Annotated copies

An annotation on one element copies the way from the element up to the root. The copy differs from the
original in annotations only, every node that was copied shows in its flags that there is an annotation
inside, and all that shows none is shared with the original.

## Main definitions

* `Green.Annotated`: a copy with one more annotation

## Main results

* `Red.annotated_replaceWith`: the copy that an annotation on a place makes
* `Green.Annotated.sub_of_plain`: what carries no annotation is shared
* `Green.Annotated.leaves_eq`, `Green.Annotated.missesElse_eq`: what stays the same
-/

namespace IncrementalSyntax

/-- The leaf without its annotations. -/
def Leaf.unannotated (l : Leaf) : Leaf := { l with annotations := [] }

/-- Annotations do not show in what was scanned. -/
theorem Leaf.map_bare_unannotated (ls : List Leaf) :
    ((ls.map unannotated).filter fun l => !l.missing).map bare = (ls.filter fun l => !l.missing).map bare := by
  rw [List.filter_map, List.map_map]
  rfl

namespace Green

/-- **Annotated.** A copy of an element with one more annotation on the element or on one below it. -/
inductive Annotated : Green → Green → Prop
  | here (g : Green) (id : Id) (a : Annotation) : Annotated g (g.annotate id a)
  | inside {h : Header} {cs : List Green} {i : Nat} {c c' : Green} (id : Id) (hc : cs[i]? = some c)
      (ha : Annotated c c') : Annotated (.node h cs) ((node h cs).replaceChild id i c')

namespace Annotated

variable {g g' : Green}

theorem mem_set {cs : List Green} {i : Nat} {c : Green} {d : Green} (h : d ∈ cs.set i c) : d = c ∨ d ∈ cs := by
  rcases List.mem_or_eq_of_mem_set h with h | h
  · exact .inr h
  · exact .inl h

/-- A function of the children gives the same if it gives the same for the one that was copied. -/
theorem map_set {α : Type} (f : Green → α) {cs : List Green} {i : Nat} {c c' : Green} (hc : cs[i]? = some c)
    (h : f c' = f c) : (cs.set i c').map f = cs.map f := by
  rw [List.map_set, h]
  refine List.ext_getElem? fun j => ?_
  rw [List.getElem?_set]
  split
  · next hij =>
    subst hij
    rw [List.getElem?_map, hc, if_pos (by simpa using (List.getElem?_eq_some_iff.1 hc).1)]
    rfl
  · rfl

theorem annotations_eq_true (h : Annotated g g') (hexact : g.Exact) : g'.flags.annotations = true := by
  induction h with
  | here g id a =>
    cases g with
    | token t => simp [annotate, flags, Leaf.flags, Leaf.withAnnotation]
    | node h cs => simp [annotate, flags, ofChildren, Flags.union, ownFlags]
  | @inside h cs i c c' id hc ha ih =>
    have hc' := ih (hexact.of_mem (List.mem_of_getElem? hc))
    have hall : (flagsAll (cs.set i c')).annotations = true := by
      rw [flagsAll_annotations, List.any_eq_true]
      refine ⟨c', ?_, hc'⟩
      exact List.mem_iff_getElem?.2 ⟨i, by simp [(List.getElem?_eq_some_iff.1 hc).1]⟩
    show ((ownFlags h.kind h.annotations).union (flagsAll (cs.set i c'))).annotations = true
    rw [Flags.union, hall, Bool.or_true]

theorem exact (h : Annotated g g') (hexact : g.Exact) : g'.Exact := by
  induction h with
  | here g id a =>
    cases g with
    | token t => trivial
    | node h cs => exact exact_ofChildren.2 (exact_node.1 hexact).2
  | @inside h cs i c c' id hc ha ih =>
    refine exact_ofChildren.2 fun d hd => ?_
    rcases mem_set hd with rfl | hd
    · exact ih (hexact.of_mem (List.mem_of_getElem? hc))
    · exact hexact.of_mem hd

theorem nodeKind?_eq (h : Annotated g g') : g'.nodeKind? = g.nodeKind? := by
  have hnode : ∀ (h h' : Header) (cs cs' : List Green), h'.kind = h.kind →
      (node h' cs').nodeKind? = (node h cs).nodeKind? := by
    rintro ⟨id, k, as, w, f⟩ ⟨id', k', as', w', f'⟩ cs cs' hk
    obtain rfl : k' = k := hk
    cases k' <;> rfl
  cases h with
  | here g id a =>
    cases g with
    | token t => rfl
    | node h cs => exact hnode h _ cs _ rfl
  | inside => exact hnode _ _ _ _ rfl

/-- The leaves differ in annotations only. -/
theorem leaves_eq (h : Annotated g g') : g'.leaves.map Leaf.unannotated = g.leaves.map Leaf.unannotated := by
  induction h with
  | here g id a => cases g <;> rfl
  | @inside h cs i c c' id hc ha ih =>
    show (leavesAll (cs.set i c')).map Leaf.unannotated = (leavesAll cs).map Leaf.unannotated
    rw [leavesAll_eq_flatten, leavesAll_eq_flatten, List.map_flatten, List.map_flatten, List.map_map, List.map_map,
      map_set (List.map Leaf.unannotated ∘ leaves) hc ih]

/-- The scanned leaves stay the same. -/
theorem scannedAll_eq (h : Annotated g g') : scannedAll [g'] = scannedAll [g] := by
  rw [scannedAll, scannedAll, leavesAll_cons, leavesAll_cons, leavesAll_nil, List.append_nil, List.append_nil,
    ← Leaf.map_bare_unannotated, h.leaves_eq, Leaf.map_bare_unannotated]

/-- The first scanned token of elements in a row stays what it is. -/
theorem firstKind_set {cs : List Green} {i : Nat} (h : Annotated g g') (hc : cs[i]? = some g) (next : TokenKind) :
    firstKind (cs.set i g') next = firstKind cs next := by
  rw [firstKind, firstKind, scannedAll_eq_flatten, map_set _ hc h.scannedAll_eq, ← scannedAll_eq_flatten]

theorem fine (h : Annotated g g') (hfine : g.Fine) : g'.Fine := by
  refine ⟨h.exact hfine.exact, fun l hl hm => ?_⟩
  have hmem : l.unannotated ∈ g.leaves.map Leaf.unannotated := by
    rw [← h.leaves_eq]
    exact List.mem_map_of_mem hl
  obtain ⟨k, hk, heq⟩ := List.mem_map.1 hmem
  have hmissing : k.unannotated.missing = l.unannotated.missing := congrArg Leaf.missing heq
  have htext' : k.unannotated.fullText = l.unannotated.fullText := congrArg Leaf.fullText heq
  have hdiag' : k.unannotated.diagnostics = l.unannotated.diagnostics := congrArg Leaf.diagnostics heq
  obtain ⟨htext, hdiag⟩ := hfine.missing k hk (hmissing.trans hm)
  exact ⟨htext'.symm.trans htext, fun h => hdiag (hdiag'.trans h)⟩

/-- What an `else` behind it would miss stays the same. -/
theorem missesElse_eq (h : Annotated g g') (next : TokenKind) : g'.missesElse next = g.missesElse next := by
  induction h generalizing next with
  | here g id a => cases g <;> rfl
  | @inside h cs i c c' id hc ha ih =>
    have hlast : ((cs.set i c').getLast?.bind nodeKind?) = cs.getLast?.bind nodeKind? := by
      have := congrArg List.getLast? (map_set nodeKind? hc ha.nodeKind?_eq)
      rw [List.getLast?_map, List.getLast?_map] at this
      cases h₁ : (cs.set i c').getLast? <;> cases h₂ : cs.getLast? <;> simp_all
    -- an induction on the row: the first token behind an element stays what it is, wherever the copy stands
    have hall : ∀ (cs : List Green) (i : Nat), cs[i]? = some c → ∀ next,
        missesElseAll (cs.set i c') next = missesElseAll cs next := by
      intro cs
      induction cs with
      | nil => exact fun i hc => by cases hc
      | cons d cs ihcs =>
        intro i hc next
        cases i with
        | zero =>
          obtain rfl : d = c := by simpa using hc
          rw [List.set_cons_zero, missesElseAll, missesElseAll, ih]
        | succ i =>
          have hc' : cs[i]? = some c := by simpa using hc
          rw [List.set_cons_succ, missesElseAll, missesElseAll, ihcs i hc', ha.firstKind_set hc']
    show (h.kind = .node .ifStmt && ((cs.set i c').getLast?.bind nodeKind?) ≠ some .elseClause &&
        next = .keyword .elseKw || missesElseAll (cs.set i c') next) = _
    rw [hlast, hall cs i hc next, missesElse]

/-- All that carries no annotation is shared. -/
theorem sub_of_plain (h : Annotated g g') (hexact : g.Exact) {s : Green} (hs : Sub s g')
    (hplain : s.flags.annotations = false) : Sub s g := by
  induction h with
  | here g id a =>
    have htrue := annotations_eq_true (.here g id a) hexact
    cases g with
    | token t =>
      cases hs
      rw [hplain] at htrue
      cases htrue
    | node h cs =>
      cases hs with
      | self =>
        rw [hplain] at htrue
        cases htrue
      | child hc hs => exact .child hc hs
  | @inside h cs i c c' id hc ha ih =>
    -- the copy shows the annotation inside it, so what shows none lies below it
    have htrue := annotations_eq_true (.inside id hc ha) hexact
    cases hs with
    | self =>
      rw [hplain] at htrue
      cases htrue
    | child hd hs =>
      rcases mem_set hd with rfl | hd
      · exact .child (List.mem_of_getElem? hc) (ih (hexact.of_mem (List.mem_of_getElem? hc)) hs)
      · exact .child hd hs

theorem soundWherePlain {version : LanguageVersion} (h : Annotated g g') (hexact : g.Exact)
    (hsound : g.SoundWherePlain version) : g'.SoundWherePlain version := fun s hs hu hplain =>
  hsound s (h.sub_of_plain hexact hs hplain) hu hplain

/-- The token that ends the text stays the last child of the root. -/
theorem ending (h : Annotated g g')
    (hend : ∃ hd cs t, g = .node hd (cs ++ [.token t]) ∧ t.leaf.missing = false) :
    ∃ hd cs t, g' = .node hd (cs ++ [.token t]) ∧ t.leaf.missing = false := by
  obtain ⟨hd, cs, t, rfl, ht⟩ := hend
  cases h with
  | here g id a => exact ⟨_, cs, t, rfl, ht⟩
  | @inside _ _ i c c' id hc ha =>
    obtain ⟨hd', hnode⟩ : ∃ hd', (node hd (cs ++ [token t])).replaceChild id i c' =
        .node hd' ((cs ++ [token t]).set i c') := ⟨_, rfl⟩
    rw [hnode]
    -- the child that was copied stands in front of the last one, or it is the last one
    rcases Nat.lt_or_ge i cs.length with hlt | hge
    · exact ⟨hd', cs.set i c', t, by rw [List.set_append_left _ _ hlt], ht⟩
    · have hlen : i < (cs ++ [token t]).length := (List.getElem?_eq_some_iff.1 hc).1
      obtain rfl : i = cs.length := by
        rw [List.length_append, List.length_singleton] at hlen
        omega
      obtain rfl : c = token t := by simpa [eq_comm] using hc
      cases ha with
      | here _ id' a =>
        refine ⟨hd', cs, ⟨id', t.leaf.withAnnotation a⟩, ?_, ht⟩
        rw [List.set_append_right _ _ le_rfl, Nat.sub_self]
        rfl

end Annotated

end Green

/-- **Annotating a place.** The new root is an annotated copy of the old one. -/
theorem Red.annotated_replaceWith {root : Green} {r : Red} {path : List Nat}
    (hr : (ofRoot root).follow? path = some r) (id n : Id) (a : Annotation) :
    Green.Annotated root (r.replaceWith n (r.green.annotate id a)).1 := by
  refine replaceWith_induction (P := fun _ g g' _ => Green.Annotated g g') ?_ hr (.here r.green id a)
  intro h cs i c c' path n hc hcopy
  exact .inside n hc hcopy

end IncrementalSyntax

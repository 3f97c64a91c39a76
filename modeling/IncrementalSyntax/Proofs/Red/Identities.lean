import IncrementalSyntax.Proofs.Green.Identities
import IncrementalSyntax.Proofs.Red.Offsets

/-!
# Places and identities

In a tree whose elements are distinct a node or a missing token is found again by its identity alone. Of two places
around one place one lies below the other.

## Main definitions

* `Red.isOwn`: the places of elements that are made for one place

## Main results

* `Red.ownIds_eq`: the identities of one place, in the order of the text
* `Red.eq_of_id_eq`: two places of nodes or missing tokens with the same identity are the same place
* `Red.mem_descendants_or`: two places around a third one
* `Red.renewed_replaceWith`: an annotation makes new identities for the way up
-/

namespace IncrementalSyntax

namespace Red

open Green (ownIdsAll sharedIdsAll)

variable {r d d' e : Red} {root : Green} {x : Id}

/-- Whether the element at a place is made for this place: a node or a missing token. -/
def isOwn (r : Red) : Bool :=
  match r.green with
  | .token t => t.leaf.missing
  | .node .. => true

theorem isOwn_of_isNode (h : r.green.isNode = true) : r.isOwn = true := by
  obtain ⟨g, offset, above⟩ := r
  cases g with
  | token t => cases h
  | node hd cs => rfl

theorem isOwn_token {t : Token} (h : r.green = .token t) : r.isOwn = t.leaf.missing := by
  rw [isOwn, h]

/-- All other places are those of tokens of the text. -/
theorem exists_token_of_isOwn_eq_false (h : r.isOwn = false) : ∃ t, r.green = .token t ∧ t.leaf.missing = false := by
  obtain ⟨g, offset, above⟩ := r
  cases g with
  | token t => exact ⟨t, rfl, h⟩
  | node hd cs => cases h

/-- The identities of the nodes and the missing tokens at and below a place, in the order of the text. -/
theorem ownIds_eq (g : Green) (offset : Nat) (above : List Crumb) :
    ((walk g offset above).filter isOwn).map (fun d => d.green.id) = g.ownIds := by
  induction g using Green.induction generalizing offset above with
  | token t =>
    cases hm : t.leaf.missing with
    | true =>
      rw [Green.ownIds_token_of_missing hm, walk, List.filter_cons_of_pos (by simpa [isOwn] using hm)]
      rfl
    | false =>
      rw [Green.ownIds_token_of_present hm, walk, List.filter_cons_of_neg (by simpa [isOwn] using hm)]
      rfl
  | node h cs ih =>
    -- the induction on the row needs the elements that are left of it
    have hall : ∀ (parent : Red) (index : Nat) (ds : List Green), (∀ c ∈ ds, c ∈ cs) →
        ((walkAll parent index ds).filter isOwn).map (fun d => d.green.id) = ownIdsAll ds := by
      intro parent index ds hds
      induction ds generalizing index with
      | nil => rfl
      | cons c ds ihds =>
        rw [walkAll, List.filter_append, List.map_append, Green.ownIdsAll_cons, ih c (hds c List.mem_cons_self),
          ihds _ fun e he => hds e (List.mem_cons_of_mem _ he)]
    rw [walk, List.filter_cons_of_pos rfl, List.map_cons, hall _ _ _ fun _ => id]
    rfl

theorem exists_of_mem_ownIds (h : x ∈ r.green.ownIds) : ∃ d ∈ r.descendants, d.isOwn = true ∧ d.green.id = x := by
  rw [← ownIds_eq r.green r.offset r.above] at h
  obtain ⟨d, hd, heq⟩ := List.mem_map.1 h
  obtain ⟨hmem, hown⟩ := List.mem_filter.1 hd
  exact ⟨d, hmem, hown, heq⟩

theorem mem_ownIds (hd : d ∈ r.descendants) (hown : d.isOwn = true) : d.green.id ∈ r.green.ownIds := by
  rw [← ownIds_eq r.green r.offset r.above]
  exact List.mem_map_of_mem (List.mem_filter.2 ⟨hd, hown⟩)

/-- Nodes and missing tokens are told apart by their identities. -/
theorem eq_of_id_eq (hnodup : r.green.ownIds.Nodup) (hd : d ∈ r.descendants) (hd' : d' ∈ r.descendants)
    (hown : d.isOwn = true) (hown' : d'.isOwn = true) (h : d.green.id = d'.green.id) : d = d' := by
  rw [← ownIds_eq r.green r.offset r.above] at hnodup
  exact List.inj_on_of_nodup_map hnodup (List.mem_filter.2 ⟨hd, hown⟩) (List.mem_filter.2 ⟨hd', hown'⟩) h

/-- What stands below a place is a part of the element there. -/
theorem sub_of_mem_descendants (hd : d ∈ r.descendants) : Green.Sub d.green r.green := by
  refine forall_descendants (P := fun d => Green.Sub d.green r.green) ?_ (.self _) d hd
  intro s i c hs hc
  have hmem : c.green ∈ s.green.children := List.mem_of_getElem? (child?_eq_some_iff.1 hc).1
  exact (Green.Sub.of_mem_children hmem).trans hs

theorem mem_descendants_trans (hd : d ∈ r.descendants) (he : e ∈ d.descendants) : e ∈ r.descendants := by
  obtain ⟨p, hp⟩ := mem_descendants_iff.1 hd
  obtain ⟨q, hq⟩ := mem_descendants_iff.1 he
  refine mem_descendants_iff.2 ⟨p ++ q, ?_⟩
  rw [follow?_append, hp, Option.bind_some, hq]

/-- Of two places around a place one lies below the other. -/
theorem mem_descendants_or (hd : d ∈ r.descendants) (hd' : d' ∈ r.descendants) (he : e ∈ d.descendants)
    (he' : e ∈ d'.descendants) : d' ∈ d.descendants ∨ d ∈ d'.descendants := by
  obtain ⟨p, hp⟩ := mem_descendants_iff.1 hd
  obtain ⟨p', hp'⟩ := mem_descendants_iff.1 hd'
  obtain ⟨q, hq⟩ := mem_descendants_iff.1 he
  obtain ⟨q', hq'⟩ := mem_descendants_iff.1 he'
  -- both paths are the front of the one path to the place
  have hpath : p ++ q = p' ++ q' := by
    have he : r.follow? (p ++ q) = some e := by rw [follow?_append, hp, Option.bind_some, hq]
    have he' : r.follow? (p' ++ q') = some e := by rw [follow?_append, hp', Option.bind_some, hq']
    exact follow?_inj he he'
  have hprefix : p <+: p ++ q := List.prefix_append _ _
  have hprefix' : p' <+: p ++ q := hpath ▸ List.prefix_append p' q'
  rcases List.prefix_or_prefix_of_prefix hprefix hprefix' with ⟨rest, rfl⟩ | ⟨rest, rfl⟩
  · left
    rw [follow?_append, hp, Option.bind_some] at hp'
    exact mem_descendants_iff.2 ⟨rest, hp'⟩
  · right
    rw [follow?_append, hp', Option.bind_some] at hp
    exact mem_descendants_iff.2 ⟨rest, hp⟩

/-- A token of the text below a place has one of the identities that may occur more than once. -/
theorem mem_sharedIds (hd : d ∈ r.descendants) (hown : d.isOwn = false) : d.green.id ∈ sharedIdsAll [r.green] := by
  obtain ⟨t, hgreen, hpresent⟩ := exists_token_of_isOwn_eq_false hown
  refine (sub_of_mem_descendants hd).sharedIds_subset _ ?_
  rw [hgreen, Green.sharedIdsAll_token_of_present hpresent]
  exact List.mem_singleton_self _

/-! ## Copies of the way up -/

variable {path : List Nat}

/-- An annotation is put on a copy of the element, in a copy of the root, all under new identities. -/
theorem renewed_replaceWith (hr : (ofRoot root).follow? path = some r) (n : Id) (a : Annotation) :
    Green.Renewed n (r.replaceWith (n + 1) (r.green.annotate n a)).2 root
      (r.replaceWith (n + 1) (r.green.annotate n a)).1 := by
  refine replaceWith_induction (P := fun _ g g' m => Green.Renewed n m g g') ?_ hr (Green.renewed_annotate n r.green a)
  intro h cs i c c' path m hc hcopy
  exact hcopy.replaceChild hc

end Red

end IncrementalSyntax

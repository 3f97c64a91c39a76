import IncrementalSyntax.Proofs.Grammar.Emitted
import IncrementalSyntax.Proofs.Red.Identities
import IncrementalSyntax.Proofs.Stream.Mapped

/-!
# What a parse takes over, it takes over once

A node that is used again covers old text that no change touches. Two nodes that are used again one behind the other
come from stretches of old text that lie one behind the other, so neither is part of the other one and they have no node
in common. All that is made anew has identities that were not used before. So in what a parse emits no node and no
missing token stands at two places.

## Main definitions

* `Reuse.Stays`: an old element that no change touches, and its place in the new text
* `Cursor.Clear`: a cursor whose pool hands out no node and no missing token of the old tree
* `Cursor.Emitted`: what is emitted between two cursors

## Main results

* `Reuse.Stays.disjoint`: old nodes that stay one behind the other have no node in common
* `Cursor.emission`: all ways to emit something keep what is said of it
-/

namespace IncrementalSyntax

open Green hiding id

/-! ## Old elements in the new text -/

namespace Reuse

/-- **Stays.** An old element has some width, no change touches it, and in the new text it starts at an offset. -/
structure Stays (r : Reuse) (d : Red) (offset : Nat) : Prop where
  mem : d ∈ (Red.ofRoot r.old.root).descendants
  pos : 0 < d.green.width
  untouched : r.Untouched d.fullRange
  start : r.oldOffset? offset = some d.offset

variable {r : Reuse} {set : ChangeSet} {d d' : Red} {offset offset' start stop stop' : Nat} {x : Id}

/-- Two old elements that stay one behind the other have no node and no missing token in common. -/
theorem Stays.disjoint (hspans : r.spans = set.spans) (hexact : r.old.root.Exact) (hnodup : r.old.root.ownIds.Nodup)
    (h : r.Stays d offset) (h' : r.Stays d' offset') (hle : offset + d.green.width ≤ offset')
    (hx : x ∈ d.green.ownIds) : x ∉ d'.green.ownIds := by
  intro hx'
  have hbehind : d.fullRange.stop ≤ d'.fullRange.start := stop_le_of_untouched hspans h.untouched h.start h'.start hle
  -- the element in common stands at one place, around which both old elements stand
  obtain ⟨e, he, hown, hid⟩ := Red.exists_of_mem_ownIds hx
  obtain ⟨e', he', hown', hid'⟩ := Red.exists_of_mem_ownIds hx'
  obtain rfl : e = e' := Red.eq_of_id_eq hnodup (Red.mem_descendants_trans h.mem he)
    (Red.mem_descendants_trans h'.mem he') hown hown' (hid.trans hid'.symm)
  have hpos := h.pos
  have hpos' := h'.pos
  -- so one of them stands inside the other one
  rcases Red.mem_descendants_or h.mem h'.mem he he' with hmem | hmem
  · have hstop := (Red.Inside.of_mem_descendants (Red.Inside.of_mem_descendants hexact h.mem).exact hmem).stop_le
    simp only [Red.fullRange, Range.stop] at hbehind hstop
    omega
  · have hstart := (Red.Inside.of_mem_descendants (Red.Inside.of_mem_descendants hexact h'.mem).exact hmem).le_offset
    simp only [Red.fullRange, Range.stop] at hbehind
    omega

/-- **Taken over.** The identity of a node or a missing token of an old element that stays between two offsets of the
new text. -/
def TakenOver (r : Reuse) (start stop : Nat) (x : Id) : Prop :=
  ∃ d offset, r.Stays d offset ∧ start ≤ offset ∧ offset + d.green.width ≤ stop ∧ x ∈ d.green.ownIds

theorem TakenOver.mem (h : r.TakenOver start stop x) : x ∈ ownIdsAll [r.old.root] := by
  obtain ⟨d, offset, hstays, -, -, hx⟩ := h
  rw [ownIdsAll_singleton]
  exact (Red.sub_of_mem_descendants hstays.mem).ownIds_subset x hx

theorem TakenOver.mono {start' : Nat} (h : r.TakenOver start stop x) (hstart : start' ≤ start) (hstop : stop ≤ stop') :
    r.TakenOver start' stop' x := by
  obtain ⟨d, offset, hstays, hle, hle', hx⟩ := h
  exact ⟨d, offset, hstays, hstart.trans hle, hle'.trans hstop, hx⟩

/-- Nothing is taken over twice. -/
theorem TakenOver.disjoint (hspans : r.spans = set.spans) (hexact : r.old.root.Exact)
    (hnodup : r.old.root.ownIds.Nodup) (h : r.TakenOver start stop x) : ¬ r.TakenOver stop stop' x := by
  rintro ⟨d', offset', hstays', hle', -, hx'⟩
  obtain ⟨d, offset, hstays, -, hle, hx⟩ := h
  exact hstays.disjoint hspans hexact hnodup hstays' (hle.trans hle') hx hx'

/-! ### What is found in the old tree -/

variable {symbols : List Text} {context : Context}

/-- A token that may be used again stands in the old tree. -/
theorem exists_place_of_token? (h : r.old.Valid symbols) {t : Token}
    (ht : r.token? offset context = some (start, t)) :
    ∃ d ∈ (Red.ofRoot r.old.root).descendants, d.green = .token t := by
  obtain ⟨-, hfound, hkind, -⟩ := token?_eq_some ht
  obtain ⟨hd, cs, u, hroot, -⟩ := h.ending
  have hexact := h.fine.exact
  have hnode : r.old.root.isNode = true := by rw [hroot]; rfl
  -- only the token that ends the text is found at its end
  have hlt : start < r.old.root.width := by
    by_contra hge
    rw [tokenStarting?] at hfound
    split at hfound
    · have heof := (Option.filter_eq_some_iff.1 hfound).2
      simp [hkind] at heof
    · have hwidth := hexact.width_eq_of_children hnode
      rw [hroot] at hfound hge hwidth
      rw [tokenBelow?, tokenAmong?_eq_across, across_eq_none (hwidth ▸ Nat.le_of_not_lt hge)] at hfound
      cases hfound
  have hfind : r.old.root.findToken? start = some (start, t) := by
    rw [findToken?_eq hexact hnode, hfound, Option.map_some]
  obtain ⟨-, d, hd, hgreen, -⟩ := (Red.findToken?_eq_some_iff hexact hnode hlt).1 hfind
  exact ⟨d, hd, hgreen⟩

/-- A node that may be used again stays. -/
theorem exists_stays_of_node? (h : r.old.Valid symbols) {kinds : NodeKind → Bool} {g : Green}
    (hg : r.node? kinds offset context = some (start, g)) : ∃ d, d.green = g ∧ r.Stays d offset := by
  obtain ⟨hoffset, hfound, haccepts⟩ := node?_eq_some_iff.1 hg
  have hexact := h.fine.exact
  have hfind : r.old.root.findNode? (fun g => g.nodeKind?.any kinds) start = some (start, g) := by
    rw [findNode?_eq hexact, hfound, Option.map_some]
  obtain ⟨-, d, hgreen, hstarts, -⟩ := (Red.findNode?_eq_some_iff hexact).1 hfind
  have huntouched := untouched_of_accepts haccepts
  rw [← hgreen, ← hstarts.start] at huntouched
  exact ⟨d, hgreen, hstarts.mem, hstarts.pos, huntouched, by rw [hoffset, hstarts.start]⟩

end Reuse

namespace Cursor

variable {version : LanguageVersion} {symbols : List Text} {text : Text} {set : ChangeSet} {reuse : Option Reuse}
variable {b c d : Cursor} {gs hs : List Green}

/-! ## What is emitted between two cursors -/

/-- **Clear.** The pool of a cursor hands out no node and no missing token of the old tree. -/
structure Clear (reuse : Option Reuse) (c : Cursor) : Prop where
  reuse_eq : c.reuse = reuse
  wellFormed : c.pool.WellFormed
  old : ∀ r, reuse = some r → c.pool.Clear [r.old.root]

/-- **Emitted.** What is emitted between two cursors has no node and no missing token at two places. Each of them is new
since the first cursor, or it is taken over from old text between the two. Each token of the text is new, or it is one
of the pool or of the old tree. -/
structure Emitted (reuse : Option Reuse) (b c : Cursor) (gs : List Green) : Prop where
  reuse_eq : c.reuse = reuse
  le_offset : b.offset ≤ c.offset
  grows : b.pool.Grows c.pool
  clear : c.pool.Clear gs
  own : ∀ x ∈ ownIdsAll gs, b.pool.nextId ≤ x ∨ ∃ r, reuse = some r ∧ r.TakenOver b.offset c.offset x
  shared : ∀ x ∈ sharedIdsAll gs, b.pool.nextId ≤ x ∨ x ∈ b.pool.ids ∨
    ∃ r, reuse = some r ∧ x ∈ sharedIdsAll [r.old.root]

theorem Clear.of_emitted (hb : b.Clear reuse) (h : Emitted reuse b c gs) : c.Clear reuse where
  reuse_eq := h.reuse_eq
  wellFormed := h.grows.wellFormed hb.wellFormed
  old r hr := (hb.old r hr).mono h.grows

theorem Clear.emitted_nil (hb : b.Clear reuse) : Emitted reuse b b [] :=
  ⟨hb.reuse_eq, le_rfl, .refl _, Pool.clear_nil _, nofun, nofun⟩

/-- What is emitted in two parts lies apart. -/
theorem Emitted.apart (hserves : ∀ r, reuse = some r → r.Serves symbols text set) (hb : b.Clear reuse)
    (h : Emitted reuse b c gs) (h' : Emitted reuse c d hs) : Apart gs hs := by
  have hold := fun r hr => (hb.old r hr).distinct
  have hc := hb.of_emitted h
  -- new identities lie above all that were there before, and old ones are taken over between other offsets
  refine ⟨fun x hx hx' => ?_, fun x hx hx' => ?_, fun x hx hx' => ?_⟩
  · rcases h'.own x hx' with hnew | ⟨r, hr, htaken'⟩
    · exact (h.clear.distinct.own_lt x hx).not_ge hnew
    · rcases h.own x hx with hnew | ⟨r', hr', htaken⟩
      · exact ((hold r hr).own_lt x htaken'.mem).not_ge hnew
      · obtain rfl : r = r' := Option.some.inj (hr.symm.trans hr')
        have hnodup : r.old.root.ownIds.Nodup := ownIdsAll_singleton r.old.root ▸ (hold r hr).nodup
        exact htaken.disjoint (hserves r hr).spans (hserves r hr).valid.fine.exact hnodup htaken'
  · rcases h'.shared x hx' with hnew | hpooled | ⟨r, hr, hshared⟩
    · exact (h.clear.distinct.own_lt x hx).not_ge hnew
    · exact h.clear.pooled x hpooled hx
    · rcases h.own x hx with hnew | ⟨r', hr', htaken⟩
      · exact ((hold r hr).shared_lt x hshared).not_ge hnew
      · obtain rfl : r = r' := Option.some.inj (hr.symm.trans hr')
        exact (hold r hr).disjoint x hshared htaken.mem
  · rcases h'.own x hx' with hnew | ⟨r, hr, htaken⟩
    · exact (h.clear.distinct.shared_lt x hx).not_ge hnew
    · rcases h.shared x hx with hnew | hpooled | ⟨r', hr', hshared⟩
      · exact ((hold r hr).own_lt x htaken.mem).not_ge hnew
      · exact (hb.old r hr).pooled x hpooled htaken.mem
      · obtain rfl : r = r' := Option.some.inj (hr.symm.trans hr')
        exact (hold r hr).disjoint x hshared htaken.mem

theorem Emitted.append (hserves : ∀ r, reuse = some r → r.Serves symbols text set) (hb : b.Clear reuse)
    (h : Emitted reuse b c gs) (h' : Emitted reuse c d hs) : Emitted reuse b d (gs ++ hs) where
  reuse_eq := h'.reuse_eq
  le_offset := h.le_offset.trans h'.le_offset
  grows := h.grows.trans h'.grows
  clear := (h.clear.mono h'.grows).append h'.clear (h.apart hserves hb h')
  own x hx := by
    rw [ownIdsAll_append] at hx
    rcases List.mem_append.1 hx with hx | hx
    · refine (h.own x hx).imp id ?_
      rintro ⟨r, hr, htaken⟩
      exact ⟨r, hr, htaken.mono le_rfl h'.le_offset⟩
    · refine (h'.own x hx).imp h.grows.nextId_le.trans ?_
      rintro ⟨r, hr, htaken⟩
      exact ⟨r, hr, htaken.mono h.le_offset le_rfl⟩
  shared x hx := by
    rw [sharedIdsAll_append] at hx
    rcases List.mem_append.1 hx with hx | hx
    · exact h.shared x hx
    · rcases h'.shared x hx with hnew | hpooled | hold
      · exact .inl (h.grows.nextId_le.trans hnew)
      · exact (h.grows.ids x hpooled).symm.imp id .inl
      · exact .inr (.inr hold)

/-- A token under a new identity, wherever it is emitted. -/
theorem Emitted.fresh (hb : b.Clear reuse) (h : Emitted reuse b c gs) (l : Leaf) :
    Emitted reuse b c.fresh.2 [.token ⟨c.fresh.1, l⟩] where
  reuse_eq := h.reuse_eq
  le_offset := h.le_offset
  grows := h.grows.trans c.pool.grows_fresh
  clear := Pool.clear_token (hb.of_emitted h).wellFormed l
  own _ hx := .inl (h.grows.nextId_le.trans (eq_of_mem_ownIdsAll_token hx).ge)
  shared _ hx := .inl (h.grows.nextId_le.trans (eq_of_mem_sharedIdsAll_token hx).ge)

/-- A node under a new identity around all that was emitted. -/
theorem Emitted.node (hb : b.Clear reuse) (h : Emitted reuse b c gs) (kind : Kind) :
    Emitted reuse b c.fresh.2 [.ofChildren c.fresh.1 kind gs] where
  reuse_eq := h.reuse_eq
  le_offset := h.le_offset
  grows := h.grows.trans c.pool.grows_fresh
  clear := h.clear.ofChildren (hb.of_emitted h).wellFormed kind
  own x hx := by
    rw [ownIdsAll_singleton, ownIds_ofChildren] at hx
    rcases List.mem_cons.1 hx with rfl | hx
    · exact .inl h.grows.nextId_le
    · exact h.own x hx
  shared x hx := h.shared x (by rwa [sharedIdsAll_ofChildren] at hx)

/-- A token of the text between two cursors. -/
theorem emitted_token {t : Token} (hreuse : c.reuse = reuse) (hoffset : b.offset ≤ c.offset)
    (hgrows : b.pool.Grows c.pool) (hpresent : t.leaf.missing = false) (hlt : t.id < c.pool.nextId)
    (hshared : b.pool.nextId ≤ t.id ∨ t.id ∈ b.pool.ids ∨ ∃ r, reuse = some r ∧ t.id ∈ sharedIdsAll [r.old.root]) :
    Emitted reuse b c [.token t] where
  reuse_eq := hreuse
  le_offset := hoffset
  grows := hgrows
  clear := Pool.clear_token_of_present hpresent hlt
  own x hx := by simp [ownIds_token_of_present hpresent] at hx
  shared x hx := eq_of_mem_sharedIdsAll_token hx ▸ hshared

/-- The next token is one of the old tree, or the pool hands it out. -/
theorem At.emitted_next {ls : List Leaf} (hat : c.At symbols text set reuse ls) (hc : c.Clear reuse) :
    Emitted reuse c c.next.2.2 [.token c.next.1] := by
  obtain ⟨hleaf, es, -, hoffset, -, hreuse⟩ := hat.next
  have hpresent : c.next.1.leaf.missing = false := (congrArg Leaf.missing hleaf).trans (missing_scan _ _)
  have hle : c.offset ≤ c.next.2.2.offset := hoffset ▸ Nat.le_add_right _ _
  rcases c.next_cases with ⟨r, start, t, hr, ht, hnext⟩ | hnext
  · -- a token of the old tree has an identity that was handed out before the pool got here
    have hr' : reuse = some r := hat.reuse_eq ▸ hr
    obtain ⟨e, he, hgreen⟩ := Reuse.exists_place_of_token? (hat.serves r hr').valid ht
    rw [hnext] at hpresent hle hreuse ⊢
    have hshared : t.id ∈ sharedIdsAll [r.old.root] := by
      have hmem := Red.mem_sharedIds he ((Red.isOwn_token hgreen).trans hpresent)
      rwa [hgreen] at hmem
    refine emitted_token (hreuse.trans hat.reuse_eq) hle (.refl _) hpresent ?_ (.inr (.inr ⟨r, hr', hshared⟩))
    exact (hc.old r hr').distinct.shared_lt t.id hshared
  · rw [hnext] at hpresent hle hreuse ⊢
    refine emitted_token (hreuse.trans hat.reuse_eq) hle (c.pool.grows_token _) hpresent ?_ ?_
    · rcases c.pool.id_token_cases (scan c.context c.rest).leaf with hpooled | ⟨hid, hlt⟩
      · exact (hc.wellFormed.lt_of_mem_ids hpooled).trans_le (c.pool.nextId_le_token _)
      · exact hid.trans_lt hlt
    · rcases c.pool.id_token_cases (scan c.context c.rest).leaf with hpooled | ⟨hid, -⟩
      · exact .inr (.inl hpooled)
      · exact .inl hid.ge

/-- A node that is used again is taken over from old text. -/
theorem At.emitted_reuseNode? {ls : List Leaf} (hat : c.At symbols text set reuse ls) (hc : c.Clear reuse)
    {kinds : NodeKind → Bool} {g : Green} (hg : c.reuseNode? kinds = some (g, d)) : Emitted reuse c d [g] := by
  obtain ⟨r, start, hr, hnode, rfl⟩ := reuseNode?_eq_some_iff.1 hg
  have hr' : reuse = some r := hat.reuse_eq ▸ hr
  obtain ⟨e, rfl, hstays⟩ := Reuse.exists_stays_of_node? (hat.serves r hr').valid hnode
  have hsub := Red.sub_of_mem_descendants hstays.mem
  refine ⟨hat.reuse_eq, Nat.le_add_right _ _, .refl _, (hc.old r hr').of_sub hsub, ?_, ?_⟩
  · intro x hx
    rw [ownIdsAll_singleton] at hx
    exact .inr ⟨r, hr', e, c.offset, hstays, le_rfl, le_rfl, hx⟩
  · intro x hx
    exact .inr (.inr ⟨r, hr', hsub.sharedIds_subset x hx⟩)

/-- **All ways to emit something** keep what is said of it. -/
theorem emission {hsound : ∀ r, reuse = some r → r.old.root.SoundWherePlain version}
    (hserves : ∀ r, reuse = some r → r.Serves symbols text set) :
    Parse.Emission (.ofCursor version symbols text set reuse hsound)
      fun b c gs => b.Clear reuse → Emitted reuse b c gs where
  nothing _ hb := hb.emitted_nil
  append h h' hb := (h hb).append hserves hb (h' (hb.of_emitted (h hb)))
  token := by
    rintro c ⟨ls, hat⟩ hc
    exact hat.emitted_next hc
  missing := by
    rintro c kind diagnostic - hc
    exact hc.emitted_nil.fresh hc _
  unexpected := by
    rintro c ⟨ls, hat⟩ hc
    exact (hat.emitted_next hc).fresh hc _
  reuse := by
    rintro c kinds g d ⟨ls, hat⟩ hg hc
    exact hat.emitted_reuseNode? hc hg
  node kind h hb := (h hb).node hb kind

end Cursor

end IncrementalSyntax

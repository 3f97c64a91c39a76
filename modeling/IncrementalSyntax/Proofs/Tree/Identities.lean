import IncrementalSyntax.Proofs.Stream.Identities
import IncrementalSyntax.Proofs.Tree.Session

/-!
# The places of a tree are told apart

In a tree of a session no node and no missing token stands at two places, whatever edits and annotations have led to
the tree. Tokens of the text may stand at several places, but only the one that ends the text has no width, so no two
of them start at one offset. That is why an offset and an element tell places apart.

## Main results

* `Session.clear`: the pool of a session hands out no node and no missing token of its trees
* `OldTree.Valid.exists_last`: the token that ends the text is the only one without a width
* `Session.identity_spec`: two places of a tree are the same just if one path leads to both
-/

namespace IncrementalSyntax

open Green hiding id
open SyntaxTree (ofText initialContext)

/-! ## New trees -/

namespace SyntaxTree

variable {t t' : SyntaxTree} {w w' : Workspace}

/-- A parse keeps clear of the old tree and of everything else the pool is clear of. -/
theorem clear_ofCursor (snapshot : Snapshot) {options : Options} (entry : EntryPoint) {set : ChangeSet}
    {reuse : Option Reuse} {cursor : Cursor} (hat : cursor.At options.symbols snapshot.text set reuse [])
    (hsound : ∀ r, reuse = some r → r.old.root.SoundWherePlain options.version) (hclear : cursor.Clear reuse) :
    cursor.pool.Grows (ofCursor snapshot options entry cursor).2 ∧
      (ofCursor snapshot options entry cursor).2.Clear [(ofCursor snapshot options entry cursor).1.root] := by
  let S := Supply.ofCursor options.version options.symbols snapshot.text set reuse hsound
  have hok : S.Ok cursor := ⟨[], hat⟩
  have hemission : Parse.Emission S fun b c gs => b.Clear reuse → Cursor.Emitted reuse b c gs :=
    Cursor.emission hat.serves
  have hemitted := parse_emits hemission hok entry hclear
  exact ⟨hemitted.grows, hemitted.clear⟩

/-- An annotation keeps clear of everything the pool is clear of. -/
theorem clear_annotate {r : Red} {path : List Nat} {a : Annotation} (hr : t.red.follow? path = some r)
    (ha : t.annotate w r a = some (t', w')) (hpool : w.pool.WellFormed) (hclear : w.pool.Clear [t.root]) :
    w.pool.Grows w'.pool ∧ w'.pool.Clear [t'.root] := by
  obtain ⟨-, rfl, rfl⟩ := annotate_eq_some_iff.1 ha
  have hrenewed := Red.renewed_replaceWith hr w.pool.nextId a
  exact ⟨Pool.grows_of_le hrenewed.le, hclear.renewed hpool hrenewed⟩

end SyntaxTree

namespace Session

variable {allowed : Text → ChangeSet → Prop} {w : Workspace} {trees : List SyntaxTree} {made : List Snapshot}
variable {t : SyntaxTree}

/-- **The pool of a session** hands out no node and no missing token of any of its trees, and in each tree all of them
are distinct. -/
theorem clear (h : Session allowed w trees made) : w.pool.WellFormed ∧ ∀ t ∈ trees, w.pool.Clear [t.root] := by
  induction h with
  | start => exact ⟨Pool.wellFormed_empty, nofun⟩
  | @parse w trees made text options entry h ih =>
    have hclear : (Cursor.atStart text (initialContext options) w.pool).Clear none := ⟨rfl, ih.1, nofun⟩
    obtain ⟨hgrows, hroot⟩ := SyntaxTree.clear_ofCursor (w.history.begin text).1 entry
      (Cursor.at_atStart options.symbols text .empty w.pool) nofun hclear
    exact ⟨hgrows.wellFormed ih.1, List.forall_mem_cons.2 ⟨hroot, fun u hu => (ih.2 u hu).mono hgrows⟩⟩
  | @reparse w w' trees made t t' changes h ht hallowed hr ih =>
    obtain ⟨hvalid, hsnapshot⟩ := h.valid.2 t ht
    obtain ⟨happly, -, -⟩ := hr.spec h.valid.1 hsnapshot
    obtain ⟨⟨htree, hpool⟩, -⟩ := hr.cases
    -- the old tree is clear of the pool with which the new one is parsed
    have hclear : (Cursor.afterEdit t.asOld changes t'.text (initialContext t.options) w.pool).Clear
        (some ⟨t.asOld, changes.spans⟩) := by
      refine ⟨rfl, ih.1, ?_⟩
      rintro r ⟨⟩
      exact ih.2 t ht
    obtain ⟨hgrows, hroot⟩ := SyntaxTree.clear_ofCursor t'.snapshot t.entry (SyntaxTree.at_reparse hvalid happly w.pool)
      (SyntaxTree.sound_reparse hvalid) hclear
    have hgrows : w.pool.Grows w'.pool := hpool ▸ hgrows
    have hroot : w'.pool.Clear [t'.root] := by
      rw [hpool, htree]
      exact hroot
    exact ⟨hgrows.wellFormed ih.1, List.forall_mem_cons.2 ⟨hroot, fun u hu => (ih.2 u hu).mono hgrows⟩⟩
  | @annotate w w' trees made t t' r path a h ht hr ha ih =>
    obtain ⟨hgrows, hroot⟩ := SyntaxTree.clear_annotate hr ha ih.1 (ih.2 t ht)
    exact ⟨hgrows.wellFormed ih.1, List.forall_mem_cons.2 ⟨hroot, fun u hu => (ih.2 u hu).mono hgrows⟩⟩
  | derive _ _ _ ih => exact ih
  | hold _ _ ih => exact ih
  | release _ _ ih => exact ih

end Session

/-! ## Tokens without a width -/

/-- All tokens of the text but the last one have some width. -/
theorem OldTree.Valid.exists_root_eq {symbols : List Text} {old : OldTree} (h : old.Valid symbols) :
    ∃ hd cs e, old.root = .node hd (cs ++ [.token e]) ∧ ∀ l ∈ leavesAll cs, l.missing = false → 0 < l.width := by
  obtain ⟨hd, cs, e, hroot, he⟩ := h.ending
  obtain ⟨init, last, htokens, -, hkinds⟩ := exists_tokenize_eq_append symbols old.text
  -- what stands in front of the last token is scanned in front of the end of the text
  have hscanned : scannedAll cs = init := by
    have hall : scannedAll cs ++ [e.leaf.bare] = init ++ [last] := by
      rw [← htokens, ← h.scanned, hroot, scannedAll_node, scannedAll_append]
      simp [scannedAll, he]
    exact (List.append_inj' hall rfl).1
  refine ⟨hd, cs, e, hroot, fun l hl hpresent => ?_⟩
  have hmem : l.bare ∈ init := by
    rw [← hscanned]
    exact List.mem_map_of_mem (List.mem_filter.2 ⟨hl, by simp [hpresent]⟩)
  have hkind := hkinds _ hmem
  have htoken : l.bare ∈ tokenizeRest (.initial symbols) old.text := by
    rw [← tokenize_eq, htokens]
    exact List.mem_append_left _ hmem
  obtain ⟨c, text, hscan⟩ := exists_scan_of_mem_tokenizeRest htoken
  rw [hscan] at hkind
  rw [← Leaf.width_bare, hscan, Leaf.width_eq]
  exact Text.width_pos_of_ne_nil (by simp [Leaf.fullText, text_scan_ne_nil hkind])

/-- Only the token that ends the text has no width. -/
theorem OldTree.Valid.exists_last {symbols : List Text} {old : OldTree} (h : old.Valid symbols) :
    ∃ i, ∀ d ∈ (Red.ofRoot old.root).descendants, ∀ t : Token, d.green = Green.token t → t.leaf.missing = false →
      t.leaf.width = 0 → (Red.ofRoot old.root).child? i = some d ∧ d.offset = old.root.width := by
  obtain ⟨hd, cs, e, hroot, hpos⟩ := h.exists_root_eq
  refine ⟨cs.length, fun d hmem t hgreen hpresent hzero => ?_⟩
  have hne : d ≠ Red.ofRoot old.root := by
    rintro rfl
    rw [Red.ofRoot, hroot] at hgreen
    cases hgreen
  obtain ⟨i, c, hc, hdc⟩ := Red.exists_child_of_ne hmem hne
  obtain ⟨hi, heq⟩ := Red.child?_eq_some_iff.1 hc
  have hi : (cs ++ [.token e])[i]? = some c.green := by rwa [Red.ofRoot, hroot] at hi
  by_cases hlt : i < cs.length
  · -- below the children in front of the last one there is no such token
    rw [List.getElem?_append_left hlt] at hi
    have hleaf : t.leaf ∈ leavesAll cs := by
      refine mem_leavesAll.2 ⟨c.green, List.mem_of_getElem? hi, ?_⟩
      exact (Red.sub_of_mem_descendants hdc).leaves_subset _ (by simp [hgreen])
    exact absurd hzero (hpos _ hleaf hpresent).ne'
  · obtain rfl : i = cs.length := by
      have hle := (List.getElem?_eq_some_iff.1 hi).1
      rw [List.length_append, List.length_singleton] at hle
      omega
    have hlast : c.green = .token e := by simpa using hi.symm
    obtain rfl : d = c := by
      rw [Red.descendants_of_token (by rw [hlast]; rfl)] at hdc
      exact List.mem_singleton.1 hdc
    obtain rfl : t = e := Green.token.inj (hgreen.symm.trans hlast)
    refine ⟨hc, ?_⟩
    have hexact := h.fine.exact
    have hoffset := Red.offset_of_child? hexact hc
    have hwidth : old.root.width = widthAll (cs ++ [.token t]) := by
      rw [hroot] at hexact ⊢
      exact hexact.1.width
    rw [Red.ofRoot, hroot] at hoffset
    change d.offset = 0 + widthAll (List.take cs.length (cs ++ [.token t])) at hoffset
    rw [hoffset, hwidth, List.take_left, Green.widthAll_append, Nat.zero_add]
    simp [widthAll, Green.width, hzero]

/-- No two tokens of the text start at one offset. -/
theorem OldTree.Valid.eq_of_offset_eq {symbols : List Text} {old : OldTree} (h : old.Valid symbols) {d d' : Red}
    {t t' : Token} (hd : d ∈ (Red.ofRoot old.root).descendants) (hd' : d' ∈ (Red.ofRoot old.root).descendants)
    (hgreen : d.green = .token t) (hgreen' : d'.green = .token t') (hpresent : t.leaf.missing = false)
    (hpresent' : t'.leaf.missing = false) (hoffset : d.offset = d'.offset) : d = d' := by
  obtain ⟨i, hlast⟩ := h.exists_last
  have hexact := h.fine.exact
  -- what has some width starts in front of the end
  have hzero_iff : ∀ e ∈ (Red.ofRoot old.root).descendants, ∀ u : Token, e.green = Green.token u → u.leaf.missing = false →
      (u.leaf.width = 0 ↔ e.offset = old.root.width) := by
    intro e he u hu hpresent
    refine ⟨fun hzero => (hlast e he u hu hpresent hzero).2, fun hend => ?_⟩
    have hstop := (Red.Inside.of_mem_descendants (r := Red.ofRoot old.root) hexact he).stop_le
    have hwidth : e.green.width = u.leaf.width := by rw [hu]; rfl
    simp only [Range.stop, Red.fullRange, Red.ofRoot] at hstop
    omega
  by_cases hzero : t.leaf.width = 0
  · have hzero' : t'.leaf.width = 0 := by
      rw [hzero_iff d' hd' t' hgreen' hpresent', ← hoffset]
      exact (hzero_iff d hd t hgreen hpresent).1 hzero
    have hchild := (hlast d hd t hgreen hpresent hzero).1
    exact Option.some.inj (hchild.symm.trans (hlast d' hd' t' hgreen' hpresent' hzero').1)
  · have hzero' : ¬ t'.leaf.width = 0 := by
      rwa [hzero_iff d' hd' t' hgreen' hpresent', ← hoffset, ← hzero_iff d hd t hgreen hpresent]
    have hwidth : d.green.width = t.leaf.width := by rw [hgreen]; rfl
    have hwidth' : d'.green.width = t'.leaf.width := by rw [hgreen']; rfl
    have hcontains : d.fullRange.Contains d.offset :=
      ⟨le_rfl, by simp only [Range.stop, Red.fullRange]; omega⟩
    have hcontains' : d'.fullRange.Contains d.offset :=
      ⟨hoffset.ge, by simp only [Range.stop, Red.fullRange]; omega⟩
    exact Red.eq_of_contains (r := Red.ofRoot old.root) hexact hd hd' (by rw [hgreen]; rfl) (by rw [hgreen']; rfl)
      hcontains hcontains'

namespace Session

variable {allowed : Text → ChangeSet → Prop} {w : Workspace} {trees : List SyntaxTree} {made : List Snapshot}
variable {t : SyntaxTree} {r s : Red} {p q : List Nat}

/-- Two places with the same element are the same one. If a token of the text stands there, they have to have the same
offset too. -/
theorem eq_of_isSame (h : Session allowed w trees made) (ht : t ∈ trees) (hr : r ∈ t.red.descendants)
    (hs : s ∈ t.red.descendants) (hsame : r.green.isSame s.green = true)
    (hoffset : r.isOwn = false → r.offset = s.offset) : r = s := by
  have hdistinct := (h.clear.2 t ht).distinct
  have hid : r.green.id = s.green.id := Green.id_eq_of_isSame hsame
  have hdisjoint : ∀ x ∈ sharedIdsAll [t.root], x ∉ t.root.ownIds := ownIdsAll_singleton t.root ▸ hdistinct.disjoint
  -- one identity cannot be both that of a node or a missing token and that of a token of the text
  cases hown : r.isOwn with
  | true =>
    cases hown' : s.isOwn with
    | true =>
      have hnodup : t.root.ownIds.Nodup := ownIdsAll_singleton t.root ▸ hdistinct.nodup
      exact Red.eq_of_id_eq (r := t.red) hnodup hr hs hown hown' hid
    | false =>
      have hmem : s.green.id ∈ t.root.ownIds := hid ▸ Red.mem_ownIds hr hown
      exact absurd hmem (hdisjoint _ (Red.mem_sharedIds hs hown'))
  | false =>
    cases hown' : s.isOwn with
    | true =>
      have hmem : r.green.id ∈ t.root.ownIds := hid ▸ Red.mem_ownIds hs hown'
      exact absurd hmem (hdisjoint _ (Red.mem_sharedIds hr hown))
    | false =>
      obtain ⟨u, hu, hpresent⟩ := Red.exists_token_of_isOwn_eq_false hown
      obtain ⟨v, hv, hpresent'⟩ := Red.exists_token_of_isOwn_eq_false hown'
      exact (h.valid.2 t ht).1.old.eq_of_offset_eq hr hs hu hv hpresent hpresent' (hoffset hown)

/-- **Identity of places.** In a tree of a session no node stands at two places, and two places of the tree have the same
offset and the same element just if one path leads to both. -/
theorem identity_spec (h : Session allowed w trees made) (ht : t ∈ trees) (hr : t.red.follow? p = some r)
    (hs : t.red.follow? q = some s) :
    (r.green.isNode = true → r.green.isSame s.green = true → p = q) ∧ (r.isSame s = true ↔ p = q) := by
  have hmem : r ∈ t.red.descendants := Red.mem_descendants_iff.2 ⟨p, hr⟩
  have hmem' : s ∈ t.red.descendants := Red.mem_descendants_iff.2 ⟨q, hs⟩
  refine ⟨?_, ?_, ?_⟩
  · intro hnode hsame
    have hown : r.isOwn = true := Red.isOwn_of_isNode hnode
    obtain rfl : r = s := h.eq_of_isSame ht hmem hmem' hsame fun hshared => absurd (hown.symm.trans hshared) nofun
    exact Red.follow?_inj hr hs
  · intro hsame
    obtain ⟨hoffset, hgreen⟩ := Bool.and_eq_true_iff.1 hsame
    obtain rfl : r = s := h.eq_of_isSame ht hmem hmem' hgreen fun _ => beq_iff_eq.1 hoffset
    exact Red.follow?_inj hr hs
  · rintro rfl
    -- one path leads to one place
    obtain rfl : r = s := Option.some.inj (hr.symm.trans hs)
    exact Bool.and_eq_true_iff.2 ⟨beq_self_eq_true _, Green.isSame_self _⟩

/-- A statement is put behind two equal ones, the first of which is used again. The name in it is the token that stands
in the second one too, and yet these are two places. -/
theorem identity_spec_repeated : ∃ (w : Workspace) (trees : List SyntaxTree) (made : List Snapshot) (t : SyntaxTree)
    (r s : Red), Session (fun _ _ => True) w trees made ∧ t ∈ trees ∧ t.text = "{a;a;b;}".toList ∧
      t.counts.nodes = 1 ∧ t.red.follow? [0, 1, 0, 0] = some r ∧ t.red.follow? [0, 2, 0, 0] = some s ∧
      r.green.isSame s.green = true ∧ r.isSame s = false := by
  have h₀ : Session (fun _ _ => True) _ _ _ := .parse "{a;a;}".toList {} .statement .start
  obtain ⟨t, w, hedit, htext, hcounts, hfound⟩ : ∃ t w, (ofText {} "{a;a;}".toList {} .statement).1.edit
      (ofText {} "{a;a;}".toList {} .statement).2 (.single ⟨⟨5, 0⟩, "b;".toList⟩) = .ok (t, w) ∧
      t.text = "{a;a;b;}".toList ∧ t.counts.nodes = 1 ∧
      ((t.red.follow? [0, 1, 0, 0]).any fun r => (t.red.follow? [0, 2, 0, 0]).any fun s =>
        r.green.isSame s.green) = true := ⟨_, _, rfl, by decide +kernel, by decide +kernel, by decide +kernel⟩
  have h : Session (fun _ _ => True) _ _ _ := h₀.reparse (List.mem_singleton_self _) trivial (.edit hedit)
  obtain ⟨r, hr, hfound⟩ := (Option.any_eq_true _ _).1 hfound
  obtain ⟨s, hs, hsame⟩ := (Option.any_eq_true _ _).1 hfound
  refine ⟨w, _, _, t, r, s, h, List.mem_cons_self, htext, hcounts, hr, hs, hsame, ?_⟩
  rw [← Bool.not_eq_true, (identity_spec h List.mem_cons_self hr hs).2]
  decide

end Session

end IncrementalSyntax

import IncrementalSyntax.Proofs.Green.Lookup
import IncrementalSyntax.Proofs.Stream.Scanned
import IncrementalSyntax.Proofs.Stream.Window

/-!
# What an old tree knows

The tree of a text has the tokens of the text, one for one, and the directives of the text. So the context
in front of each of its tokens can be read off, and so can the directives inside each of its elements.

## Main definitions

* `OldTree.Valid`: a tree that has the tokens and the directives of its text
* `OldTree.Stands`: leaves that stand at an offset of the text

## Main results

* `OldTree.Valid.stands_token`, `OldTree.Valid.stands_node`: where an element stands that was looked up
* `OldTree.Stands.contextAt_eq`, `OldTree.Stands.entriesFor_eq`: the context in front of it, and its directives
-/

namespace IncrementalSyntax

/-! ## Directives in a range -/

namespace DirectiveTable

variable {p q w : Nat} {state : DirectiveState} {as bs cs : List DirectiveEntry}

theorem eq_of {t t' : DirectiveTable} (hinitial : t.initial = t'.initial) (hentries : t.entries = t'.entries) :
    t = t' := by
  cases t
  cases t'
  exact congr (congrArg DirectiveTable.mk hinitial) hentries

/-- The directives up to an offset are those in front of it. -/
theorem upTo_append (has : DirectiveEntry.Inside 0 p as) (hbs : DirectiveEntry.Inside p q bs) :
    upTo ⟨state, as ++ bs⟩ p = as := by
  have hnil : bs.takeWhile (fun e => e.range.stop ≤ p) = [] := by
    cases bs with
    | nil => rfl
    | cons b bs =>
      obtain ⟨hstart, hpos, -⟩ := hbs b List.mem_cons_self
      have hstop : p < b.range.stop := hstart.trans_lt (Nat.lt_add_of_pos_right hpos)
      exact List.takeWhile_cons_of_neg (by simpa using hstop)
  rw [upTo, List.takeWhile_append_of_pos fun e he => by simpa using (has e he).2.2, hnil, List.append_nil]

theorem stateAt_append (has : DirectiveEntry.Inside 0 p as) (hbs : DirectiveEntry.Inside p q bs) :
    stateAt ⟨state, as ++ bs⟩ p = DirectiveEntry.stateBehind as state := by
  rw [stateAt, upTo_append has hbs, DirectiveEntry.stateBehind]
  cases as.getLast? <;> rfl

/-- The directives inside a range are those between the ones in front of it and the ones behind it. -/
theorem within_append (has : DirectiveEntry.Inside 0 p as) (hbs : DirectiveEntry.Inside p (p + w) bs)
    (hcs : DirectiveEntry.Inside (p + w) q cs) : within ⟨state, as ++ (bs ++ cs)⟩ ⟨p, w⟩ = bs := by
  have hab : DirectiveEntry.Inside 0 (p + w) (as ++ bs) :=
    (has.mono le_rfl (Nat.le_add_right p w)).append (hbs.mono (Nat.zero_le p) le_rfl)
  rw [within, Range.stop, ← List.append_assoc, upTo_append hab hcs, List.dropWhile_append_of_pos fun e he => ?_]
  · cases bs with
    | nil => rfl
    | cons b bs =>
      rw [List.dropWhile_cons_of_neg]
      simpa using (hbs b List.mem_cons_self).1
  · obtain ⟨-, hpos, hstop⟩ := has e he
    simp only [Range.stop, decide_eq_true_eq] at hstop ⊢
    omega

end DirectiveTable

/-! ## The leaves of a tree and the tokens of its text -/

theorem Leaf.width_bare (l : Leaf) : l.bare.width = l.width := rfl

/-- Leaves that are missing have no text, and what the parser adds to a leaf has none either. -/
theorem Leaf.textAll_scanned {ls : List Leaf} (h : ∀ l ∈ ls, l.missing = true → l.fullText = []) :
    textAll ((ls.filter fun l => !l.missing).map bare) = textAll ls := by
  induction ls with
  | nil => rfl
  | cons l ls ih =>
    have ih' := ih fun k hk => h k (List.mem_cons_of_mem _ hk)
    cases hm : l.missing with
    | false =>
      simp only [hm, Bool.not_false, List.filter_cons_of_pos, List.map_cons, textAll_cons, ih']
      rfl
    | true => simp [hm, ih', h l List.mem_cons_self hm]

theorem Leaf.widthAll_scanned {ls : List Leaf} (h : ∀ l ∈ ls, l.missing = true → l.fullText = []) :
    widthAll ((ls.filter fun l => !l.missing).map bare) = widthAll ls := by
  rw [widthAll_eq, textAll_scanned h, ← widthAll_eq]

namespace Green

/-- The leaves of an element stand in a row in all elements around it. -/
theorem Sub.leaves_isInfix {g root : Green} (h : Sub g root) : g.leaves <:+: root.leaves := by
  induction h with
  | self => exact List.infix_rfl
  | @child c h cs hc _ ih =>
    obtain ⟨as, bs, rfl⟩ := List.append_of_mem hc
    have hcs : c.leaves <:+: leavesAll (as ++ c :: bs) := ⟨leavesAll as, leavesAll bs, by simp⟩
    exact ih.trans hcs

theorem Sub.leaves_subset {g root : Green} (h : Sub g root) : ∀ l ∈ g.leaves, l ∈ root.leaves :=
  h.leaves_isInfix.subset

theorem Fine.of_sub {g root : Green} (h : root.Fine) (hsub : Sub g root) : g.Fine := by
  refine ⟨?_, fun l hl => h.missing l (hsub.leaves_subset l hl)⟩
  induction hsub with
  | self => exact h.exact
  | child hc _ ih =>
    exact ih ⟨h.exact.of_mem hc, fun l hl => h.missing l (mem_leavesAll.2 ⟨_, hc, hl⟩)⟩

/-- No node is found in the token at the end of a row. -/
theorem nodeAmong?_of_append {accept : Green → Bool} {cs : List Green} {t : Token} {offset : Nat} {g : Green}
    (h : nodeAmong? accept (cs ++ [token t]) offset = some g) : nodeAmong? accept cs offset = some g := by
  induction cs generalizing offset with
  | nil => simp [nodeAmong?, nodeStarting?, isNode] at h
  | cons c cs ih =>
    rw [List.cons_append, nodeAmong?] at h
    rw [nodeAmong?]
    split at h
    · next hlt => rwa [if_pos hlt]
    · next hge => rw [if_neg hge, ih h]

end Green

/-! ## Old trees -/

/-- **Valid.** The tree is sound in itself, it ends with the token that ends the text, and it has the tokens
and the directives of its text. -/
structure OldTree.Valid (symbols : List Text) (old : OldTree) : Prop where
  fine : old.root.Fine
  ending : ∃ h cs t, old.root = .node h (cs ++ [.token t]) ∧ t.leaf.missing = false
  scanned : Green.scannedAll [old.root] = tokenize symbols old.text
  initial : old.directives.initial = .ofSymbols symbols
  entries : ∃ c t, Scanned (.initial symbols) old.text (tokenize symbols old.text) c t old.directives.entries

/-- **Stands.** At an offset of the old text some leaves stand, with other ones behind them. -/
def OldTree.Stands (symbols : List Text) (old : OldTree) (start : Nat) (ls bs : List Leaf) : Prop :=
  ∃ as, tokenize symbols old.text = as ++ (ls ++ bs) ∧ Leaf.widthAll as = start ∧ bs ≠ []

theorem exists_tokenize_eq_append (symbols : List Text) (t : Text) :
    ∃ init l, tokenize symbols t = init ++ [l] ∧ l.tokenKind = .eof ∧ ∀ k ∈ init, k.tokenKind ≠ .eof := by
  obtain ⟨ls, c, r, es, hs, hkind, heof⟩ := Scanned.exists_eof (.initial symbols) t
  exact ⟨ls, _, by rw [tokenize_eq, hs.tokenizeRest_eq hkind, tokenizeRest_of_eq heof], heof, hkind⟩

namespace OldTree.Valid

variable {symbols : List Text} {old : OldTree} (h : old.Valid symbols)

include h

theorem scanned_leaves : tokenize symbols old.text =
    (old.root.leaves.filter fun l => !l.missing).map Leaf.bare := by
  rw [← h.scanned, Green.scannedAll, Green.leavesAll_cons, Green.leavesAll_nil, List.append_nil]

theorem leaves_eq : old.root.leaves = Green.leavesAll old.root.children := by
  obtain ⟨hd, cs, t, hroot, -⟩ := h.ending
  rw [hroot]
  rfl

/-- The tree is as wide as its text. -/
theorem width_eq : old.root.width = old.text.width := by
  rw [h.fine.exact.width_eq_widthAll, ← Leaf.widthAll_scanned fun l hl hm => (h.fine.missing l hl hm).1,
    ← h.scanned_leaves, Leaf.widthAll_eq, tokenize_eq, textAll_tokenizeRest]

/-- The text of the tree is that it was parsed from. -/
theorem text_eq : old.root.text = old.text := by
  have htext : old.root.text = Leaf.textAll old.root.leaves := by
    rw [Green.text, Leaf.textAll, Green.leaves, List.flatMap_map]
  rw [htext, ← Leaf.textAll_scanned fun l hl hm => (h.fine.missing l hl hm).1, ← h.scanned_leaves, tokenize_eq,
    textAll_tokenizeRest]

/-- Some leaves of the tree that carry neither diagnostics nor annotations are tokens of the text. -/
theorem stands_of_leaves {as ls bs : List Leaf} (hls : old.root.leaves = as ++ (ls ++ bs))
    (hplain : ∀ l ∈ ls, l.missing = false ∧ l.bare = l)
    (hend : ((bs.filter fun l => !l.missing).map Leaf.bare) ≠ []) :
    old.Stands symbols (Leaf.widthAll as) ls ((bs.filter fun l => !l.missing).map Leaf.bare) := by
  have hself : (ls.filter fun l => !l.missing).map Leaf.bare = ls := by
    rw [List.filter_eq_self.2 fun l hl => by simp [(hplain l hl).1]]
    exact (List.map_congr_left fun l hl => (hplain l hl).2).trans (List.map_id ls)
  refine ⟨(as.filter fun l => !l.missing).map Leaf.bare, ?_, ?_, hend⟩
  · rw [h.scanned_leaves, hls, List.filter_append, List.filter_append, List.map_append, List.map_append, hself]
  · refine Leaf.widthAll_scanned fun l hl hm => (h.fine.missing l ?_ hm).1
    rw [hls]
    exact List.mem_append_left _ hl

/-- Where a token stands that was looked up. -/
theorem stands_token {start : Nat} {t : Token} (ht : old.root.tokenStarting? start = some t)
    (hkind : t.leaf.tokenKind ≠ .eof) (hd : t.leaf.flags.diagnostics = false)
    (ha : t.leaf.flags.annotations = false) : ∃ bs, old.Stands symbols start [t.leaf] bs := by
  have hdiag : t.leaf.diagnostics = [] := by simpa [Leaf.flags] using hd
  have hanno : t.leaf.annotations = [] := by simpa [Leaf.flags] using ha
  rw [Green.tokenStarting?] at ht
  split at ht
  · -- only the token that ends the text is found behind all others
    have := (Option.filter_eq_some_iff.1 ht).2
    simp [hkind] at this
  · obtain ⟨hd, cs, u, hroot, -⟩ := h.ending
    have hexact := h.fine.exact
    rw [hroot] at ht hexact
    obtain ⟨as, bs, hls, rfl, -⟩ := Green.exists_of_tokenAmong? (fun c hc => hexact.of_mem hc) ht
    have hleaves : old.root.leaves = as ++ ([t.leaf] ++ bs) := by rw [hroot]; exact hls
    have hmissing : t.leaf.missing = false := by
      by_contra hm
      exact (h.fine.missing t.leaf (by simp [hleaves]) (by simpa using hm)).2 hdiag
    have hbare : t.leaf.bare = t.leaf := by
      rw [Leaf.bare, hdiag, List.filter_nil, ← hdiag, ← hanno]
    refine ⟨_, h.stands_of_leaves hleaves (by simp [hmissing, hbare]) fun hnil => ?_⟩
    -- the last token of the text ends it, and this token does not
    obtain ⟨init, l, htokens, heof, -⟩ := exists_tokenize_eq_append symbols old.text
    have hlast : tokenize symbols old.text = (as.filter fun l => !l.missing).map Leaf.bare ++ [t.leaf] := by
      rw [h.scanned_leaves, hleaves, List.filter_append, List.filter_append, List.map_append, List.map_append, hnil]
      simp [hmissing, hbare]
    rw [htokens] at hlast
    obtain rfl := (List.append_inj' hlast rfl).2 |> List.singleton_inj.1
    exact hkind heof

/-- Where a node stands that was looked up, and what it would miss there. -/
theorem stands_node {accept : Green → Bool} {start : Nat} {g : Green}
    (hg : old.root.nodeStarting? accept start = some g) (hd : g.flags.diagnostics = false)
    (ha : g.flags.annotations = false) :
    accept g = true ∧ g.isNode = true ∧ 0 < g.width ∧ Green.Sub g old.root ∧
      ∃ bs, old.Stands symbols start g.leaves bs ∧
        (g.missesElse ((bs.head?.map Leaf.tokenKind).getD .eof) = true → old.root.missesElse .eof = true) := by
  obtain ⟨hdr, cs, u, hroot, hu⟩ := h.ending
  have hexact := h.fine.exact
  rw [hroot] at hg hexact
  obtain ⟨as, bs, hf⟩ := Green.exists_of_nodeAmong? (fun c hc => hexact.of_mem (List.mem_append_left _ hc))
    (fun c hc _ => Green.exists_of_nodeStarting? (hexact.of_mem (List.mem_append_left _ hc)))
    (Green.nodeAmong?_of_append hg)
  have hsub : Green.Sub g old.root := by
    obtain ⟨c, hc, hs⟩ := hf.sub
    rw [hroot]
    exact .child (List.mem_append_left _ hc) hs
  have hleaves : old.root.leaves = as ++ (g.leaves ++ (bs ++ [u.leaf])) := by
    rw [hroot, Green.leaves_node, Green.leavesAll_append, hf.leaves]
    simp
  have hstands := h.stands_of_leaves hleaves (fun l hl => ((h.fine.of_sub hsub).plain_of_mem hd ha hl).2)
    (by simp [hu])
  rw [hf.width] at hstands
  refine ⟨hf.accepted, hf.isNode, hf.pos, hsub, _, hstands, fun hm => ?_⟩
  have hkind : (((bs ++ [u.leaf]).filter fun l => !l.missing).map Leaf.bare).head?.map Leaf.tokenKind =
      some (Leaf.firstKind bs u.leaf.tokenKind) := by
    rw [List.head?_map, Option.map_map, Leaf.firstKind, List.filter_append]
    cases bs.filter fun l => !l.missing <;> simp [hu]
  rw [hkind, Option.getD_some] at hm
  have hcs := hf.misses _ hm
  rw [hroot, Green.missesElse, Green.missesElseAll_append]
  simp [Green.firstKind, Green.scannedAll, hu, hcs]

/-- Every token of the text that has a width is found where it stands. -/
theorem exists_tokenStarting? {as bs : List Leaf} {l : Leaf} (htokens : tokenize symbols old.text = as ++ l :: bs)
    (hpos : 0 < l.width) :
    ∃ t, old.root.tokenStarting? (Leaf.widthAll as) = some t ∧ t.leaf.width = l.width := by
  rw [h.scanned_leaves] at htokens
  obtain ⟨ks, ms, hfilter, rfl, hms⟩ := List.map_eq_append_iff.1 htokens
  obtain ⟨k, ms, rfl, rfl, -⟩ := List.map_eq_cons_iff.1 hms
  obtain ⟨ls, ls', hls, rfl, hls'⟩ := List.filter_eq_append_iff.1 hfilter
  obtain ⟨ns, ns', rfl, hns, -, -⟩ := List.filter_eq_cons_iff.1 hls'
  have hmissing : ∀ l ∈ old.root.leaves, l.missing = true → l.fullText = [] := fun l hl hm =>
    (h.fine.missing l hl hm).1
  -- the missing tokens in front of it have no width
  have hwidth : Leaf.widthAll ((ls.filter fun l => !l.missing).map Leaf.bare) = Leaf.widthAll (ls ++ ns) := by
    have hmem : ∀ l ∈ ls ++ ns, l.missing = true → l.fullText = [] := fun l hl => hmissing l (by
      rw [hls, ← List.append_assoc]
      exact List.mem_append_left _ hl)
    rw [← Leaf.widthAll_scanned hmem, List.filter_append, List.filter_eq_nil_iff.2 hns, List.append_nil]
  rw [← List.append_assoc] at hls
  obtain ⟨t, ht, hleaf⟩ := Green.tokenBelow?_of_leaves h.fine.exact hls (by rwa [Leaf.width_bare] at hpos)
  refine ⟨t, ?_, by rw [hleaf, Leaf.width_bare]⟩
  have hlt : Leaf.widthAll (ls ++ ns) < old.root.width := by
    rw [h.fine.exact.width_eq_widthAll, hls, Leaf.widthAll_append (ls ++ ns), Leaf.widthAll_cons]
    rw [Leaf.width_bare] at hpos
    omega
  rw [hwidth, Green.tokenStarting?, if_neg hlt.ne, ht]

/-- The first tokens of the text, with their scan and their directives. -/
theorem exists_scanned {as bs : List Leaf} (htokens : tokenize symbols old.text = as ++ bs) (hbs : bs ≠ []) :
    ∃ c t es gs q, Scanned (.initial symbols) old.text as c t es ∧ (∀ l ∈ as, l.tokenKind ≠ .eof) ∧
      bs = tokenizeRest c t ∧ DirectiveEntry.Inside (Leaf.widthAll as) q gs ∧
      old.directives = ⟨.ofSymbols symbols, es ++ gs⟩ := by
  obtain ⟨c, t, hall⟩ := h.entries
  rw [htokens] at hall
  obtain ⟨c₁, t₁, es, gs, has, hrest, hentries⟩ := hall.split
  rw [tokenize_eq] at htokens
  obtain ⟨c₂, t₂, _, hs, hkind, hup⟩ := Scanned.of_prefix htokens hbs
  obtain ⟨rfl, rfl, -⟩ := has.functional hs
  refine ⟨c₁, t₁, es, _, _, has, hkind, hup, (hrest.inside.shift _).mono (Nat.zero_add _).ge le_rfl, ?_⟩
  rw [← hentries, ← h.initial]

end OldTree.Valid

namespace OldTree.Stands

variable {symbols : List Text} {old : OldTree} {start : Nat} {ls bs : List Leaf}

/-- The text around leaves that stand somewhere, and their scan. -/
theorem exists_scanned (h : old.Stands symbols start ls bs) (hold : old.Valid symbols) :
    ∃ as c t c' t' es fs gs, Scanned (.initial symbols) old.text as c t es ∧ Scanned c t ls c' t' fs ∧
      (∀ l ∈ as, l.tokenKind ≠ .eof) ∧ (∀ l ∈ ls, l.tokenKind ≠ .eof) ∧ bs = tokenizeRest c' t' ∧
      Leaf.widthAll as = start ∧ (∃ q, DirectiveEntry.Inside (start + Leaf.widthAll ls) q gs) ∧
      old.directives = ⟨.ofSymbols symbols, es ++ (fs.map (·.shift start) ++ gs)⟩ := by
  obtain ⟨as, htokens, rfl, hbs⟩ := h
  rw [← List.append_assoc] at htokens
  obtain ⟨c₂, t₂, es', gs, q, hs, hkind, hup, hgs, htable⟩ := hold.exists_scanned htokens hbs
  obtain ⟨c₁, t₁, es, fs, has, hls, rfl⟩ := hs.split
  rw [Leaf.widthAll_append] at hgs
  rw [List.append_assoc] at htable
  exact ⟨as, c₁, t₁, c₂, t₂, es, fs, gs, has, hls, fun l hl => hkind l (List.mem_append_left _ hl),
    fun l hl => hkind l (List.mem_append_right _ hl), hup, rfl, ⟨q, hgs⟩, htable⟩

end OldTree.Stands

end IncrementalSyntax

import IncrementalSyntax.Proofs.Stream.OldTree
import IncrementalSyntax.Proofs.Token.Keyword

/-!
# What is used again is what would be scanned

An old element that may be used again has the leaves that scanning the new text would give there, with the
same context behind them and the same directives inside. The window of an open-ended node reaches over the
old token behind it, so no `else` turns up there in the new text, unless text was added at the end of an old
text that ends with a line feed: there the window ends at the end of the text, and the scanner looks no
further.

## Main definitions

* `Reuse.Serves`: an old tree with the changes that lead from its text to the new one
* `Reuse.AddsBehindLine`: text is added at the end of an old text that ends with a line feed

## Main results

* `Reuse.Serves.exists_scanned`: clean old leaves are scanned again
* `Reuse.Serves.scanned_token`, `Reuse.Serves.scanned_node`: elements that are used again are scanned again
* `Reuse.Serves.frontKind_ne_else`: a node that is used again misses no `else`
-/

namespace IncrementalSyntax

namespace OldTree.Stands

variable {symbols : List Text} {start : Nat} {ls bs : List Leaf} {spans : List (Range × Range)} {old : OldTree}

/-- The context in front of leaves of the old text is the one that their scan begins with. -/
theorem contextAt_eq {as : List Leaf} {c : Context} {t : Text} {es gs : List DirectiveEntry} {q : Nat}
    (has : Scanned (.initial symbols) old.text as c t es) (hkind : ∀ l ∈ as, l.tokenKind ≠ .eof)
    (hgs : DirectiveEntry.Inside (Leaf.widthAll as) q gs)
    (htable : old.directives = ⟨.ofSymbols symbols, es ++ gs⟩) :
    Reuse.contextAt ⟨old, spans⟩ (Leaf.widthAll as) = c := by
  have hdirectives : old.directives.stateAt (Leaf.widthAll as) = c.directives := by
    rw [htable, DirectiveTable.stateAt_append has.inside hgs, has.directives_eq]
    rfl
  have hline : (decide (Leaf.widthAll as = 0) ||
      (old.text.splitAt? (Leaf.widthAll as)).any fun p => Text.endsLine p.1) = c.lineStart := by
    by_cases hnil : as = []
    · subst hnil
      cases has
      rfl
    · have htext := has.textAll_ne_nil hnil hkind
      have hne : Leaf.widthAll as ≠ 0 := by
        rw [Leaf.widthAll_eq]
        exact fun h => htext (Text.width_eq_zero_iff.1 h)
      rw [has.text_eq, has.lineStart_eq hnil hkind, Leaf.widthAll_eq, Text.splitAt?_append, ← Leaf.widthAll_eq]
      simp [hne]
  cases c
  rw [Reuse.contextAt]
  exact congr (congrArg Context.mk hdirectives) hline

/-- The directives of leaves of the old text, where the leaves stand in the new text. -/
theorem entriesFor_eq {es fs gs : List DirectiveEntry} {state : DirectiveState} {w q : Nat}
    (hes : DirectiveEntry.Inside 0 start es) (hfs : DirectiveEntry.Inside 0 w fs)
    (hgs : DirectiveEntry.Inside (start + w) q gs)
    (htable : old.directives = ⟨state, es ++ (fs.map (·.shift start) ++ gs)⟩) (offset : Nat) :
    Reuse.entriesFor ⟨old, spans⟩ start w offset = fs.map (·.shift offset) := by
  have hfs' : DirectiveEntry.Inside start (start + w) (fs.map (·.shift start)) :=
    (hfs.shift start).mono (by omega) (by omega)
  rw [Reuse.entriesFor]
  dsimp only
  rw [htable, DirectiveTable.within_append hes hfs' hgs, List.map_map]
  refine List.map_congr_left fun e _ => ?_
  simp [DirectiveEntry.shift, Range.shift]

end OldTree.Stands

/-- A text with tokens in front of a line feed ends with one. -/
theorem Scanned.getLast?_of_head? {c c' : Context} {t t' : Text} {ls : List Leaf} {es : List DirectiveEntry}
    (h : Scanned c t ls c' t' es) (hne : ls ≠ []) (hhead : t'.head? = some '\n') :
    (Leaf.textAll ls).getLast? = some '\n' := by
  induction h with
  | nil => exact absurd rfl hne
  | @cons c c' t t' ls es h ih =>
    rw [Leaf.textAll_cons]
    by_cases hls : ls = []
    · subst hls
      cases h
      rw [Leaf.textAll_nil, List.append_nil]
      exact getLast?_of_head?_rest_scan hhead
    · rw [List.getLast?_append, ih hls hhead, Option.some_or]

namespace Reuse

/-- **Serves.** The old tree is that of the old text, and the changes lead from there to the new text. -/
structure Serves (symbols : List Text) (text : Text) (set : ChangeSet) (r : Reuse) : Prop where
  valid : r.old.Valid symbols
  spans : r.spans = set.spans
  edits : Edits 0 set.changes r.old.text text

/-- Text is added at the end of an old text that ends with a line feed. -/
def AddsBehindLine (text : Text) (set : ChangeSet) : Prop :=
  text.getLast? = some '\n' ∧ ∃ c ∈ set.changes, c.range.start = text.width

/-- What holds of an old token that may be used again. -/
theorem token?_eq_some {r : Reuse} {offset start : Nat} {context : Context} {t : Token}
    (ht : r.token? offset context = some (start, t)) : r.oldOffset? offset = some start ∧
      r.old.root.tokenStarting? start = some t ∧ t.leaf.tokenKind ≠ .eof ∧
      r.accepts (.token t) start (start + t.leaf.width) context = true := by
  unfold token? at ht
  split at ht
  · cases ht
  · next start' hoffset =>
    split at ht
    · cases ht
    · next u hu =>
      split at ht
      · next hok =>
        obtain ⟨rfl, rfl⟩ : start' = start ∧ u = t := by simpa using ht
        exact ⟨hoffset, hu, hok⟩
      · cases ht

/-- An old node may be used again just if it is found at the old offset and accepted there. -/
theorem node?_eq_some_iff {r : Reuse} {kinds : NodeKind → Bool} {offset start : Nat} {context : Context} {g : Green} :
    r.node? kinds offset context = some (start, g) ↔ r.oldOffset? offset = some start ∧
      r.old.root.nodeStarting? (fun g => g.nodeKind?.any kinds) start = some g ∧
      r.accepts g start (r.windowEnd g start) context = true := by
  unfold node?
  constructor
  · intro hg
    split at hg
    · cases hg
    · next start' hoffset =>
      split at hg
      · cases hg
      · next u hu =>
        split at hg
        · next hok =>
          obtain ⟨rfl, rfl⟩ : start' = start ∧ u = g := by simpa using hg
          exact ⟨hoffset, hu, hok⟩
        · cases hg
  · rintro ⟨hoffset, hfound, haccepts⟩
    simp only [hoffset, hfound, if_pos haccepts]

namespace Serves

variable {symbols : List Text} {text : Text} {set : ChangeSet} {r : Reuse}

/-- Clean old leaves are scanned again in the new text, with the same context behind them and the same
directives inside. What was changed lies behind all that is seen there. -/
theorem exists_scanned (h : r.Serves symbols text set) {x y : Text} {start : Nat} {ls bs : List Leaf}
    (htext : text = x ++ y) (hoffset : r.oldOffset? x.width = some start)
    (hstands : r.old.Stands symbols start ls bs) (hdiag : ∀ l ∈ ls, l.diagnostics = []) (hne : ls ≠ [])
    (hclean : r.isClean start (start + Leaf.widthAll ls) = true) :
    ∃ c a b b' es cs, Scanned (r.contextAt start) y ls c b' es ∧ (∀ l ∈ ls, l.tokenKind ≠ .eof) ∧
      r.entriesFor start (Leaf.widthAll ls) x.width = es.map (·.shift x.width) ∧
      bs = tokenizeRest c b ∧ r.old.text = a ++ b ∧ a.width = start + Leaf.widthAll ls ∧
      (b.head? = some '\n' → a.getLast? = some '\n') ∧
      Edits (start + Leaf.widthAll ls) cs b b' ∧
      ∀ d ∈ cs, d ∈ set.changes ∧ start + Leaf.widthAll ls ≤ d.range.start := by
  obtain ⟨as, c, t, c', b, es, fs, gs, has, hls, hkind, hkind', hup, rfl, ⟨q, hgs⟩, htable⟩ :=
    hstands.exists_scanned h.valid
  have hsplit : r.old.text = Leaf.textAll as ++ (Leaf.textAll ls ++ b) := by rw [has.text_eq, hls.text_eq]
  rw [Leaf.widthAll_eq as, Leaf.widthAll_eq ls] at hclean
  rw [Leaf.widthAll_eq as] at hoffset
  obtain ⟨b', cs, hy, hb, hedits, hcs⟩ :=
    h.edits.exists_clean h.spans htext hoffset hsplit (hls.textAll_ne_nil hne hkind') hclean
  have hrest : DirectiveEntry.Inside (Leaf.widthAll as) (max (Leaf.widthAll as + Leaf.widthAll ls) q)
      (fs.map (·.shift (Leaf.widthAll as)) ++ gs) :=
    ((hls.inside.shift _).mono (by omega) (by omega)).append (hgs.mono (by omega) (by omega))
  refine ⟨c', Leaf.textAll as ++ Leaf.textAll ls, b, b', fs, cs, ?_, hkind', ?_, hup, ?_, ?_, ?_, ?_, ?_⟩
  · rw [show r.contextAt (Leaf.widthAll as) = c from OldTree.Stands.contextAt_eq has hkind hrest htable, hy]
    exact hls.local hkind' hdiag hb
  · exact OldTree.Stands.entriesFor_eq has.inside hls.inside hgs htable _
  · rw [hsplit, List.append_assoc]
  · rw [Text.width_append, ← Leaf.widthAll_eq, ← Leaf.widthAll_eq]
  · intro hhead
    rw [List.getLast?_append, hls.getLast?_of_head? hne hhead, Option.some_or]
  · rwa [Leaf.widthAll_eq, Leaf.widthAll_eq]
  · intro d hd
    refine ⟨(hcs d hd).1, ?_⟩
    have hlook := (hcs d hd).2
    rw [hsplit, ← List.append_assoc, ← Text.width_append, lookaheadEnd_eq (hls.textAll_ne_nil hne hkind'),
      ← Leaf.widthAll_eq, ← Leaf.widthAll_eq] at hlook
    omega

/-- An old token that is used again is scanned again. -/
theorem scanned_token (h : r.Serves symbols text set) {x y : Text} {context : Context} {start : Nat} {t : Token}
    (htext : text = x ++ y) (ht : r.token? x.width context = some (start, t)) :
    t.leaf.tokenKind ≠ .eof ∧ ∃ c y' es, Scanned context y [t.leaf] c y' es ∧
      r.entriesFor start t.leaf.width x.width = es.map (·.shift x.width) := by
  obtain ⟨hoffset, hfound, hkind, haccepts⟩ := token?_eq_some ht
  simp only [accepts, Bool.and_eq_true, Bool.not_eq_true', decide_eq_true_eq] at haccepts
  obtain ⟨⟨⟨⟨-, hd⟩, ha⟩, hclean⟩, rfl⟩ := haccepts
  obtain ⟨bs, hstands⟩ := h.valid.stands_token hfound hkind hd ha
  have hdiag : t.leaf.diagnostics = [] := by simpa [Green.flags, Leaf.flags] using hd
  obtain ⟨c, -, -, b', es, -, hs, -, hentries, -⟩ := h.exists_scanned htext hoffset hstands (by simpa using hdiag)
    (by simp) (by simpa [Leaf.widthAll] using hclean)
  exact ⟨hkind, c, b', es, hs, by simpa [Leaf.widthAll] using hentries⟩

/-- The window of an open-ended node reaches over the token behind it. -/
theorem windowEnd_eq (h : r.Serves symbols text set) {start : Nat} {g : Green} {l : Leaf} {bs : List Leaf}
    (hg : g.Exact) (hstands : r.old.Stands symbols start g.leaves (l :: bs)) :
    r.windowEnd g start = start + g.width + if g.isOpenEnded then l.width else 0 := by
  unfold windowEnd
  by_cases hopen : g.isOpenEnded = true
  · rw [if_pos hopen, if_pos hopen]
    obtain ⟨as, htokens, rfl, -⟩ := id hstands
    rw [← List.append_assoc] at htokens
    have hwidth : Leaf.widthAll as + g.width = Leaf.widthAll (as ++ g.leaves) := by
      rw [Leaf.widthAll_append, hg.width_eq_widthAll]
    rw [hwidth]
    by_cases hpos : 0 < l.width
    · obtain ⟨t, ht, hleaf⟩ := h.valid.exists_tokenStarting? htokens hpos
      rw [ht, ← hleaf]
    · -- a token without a width is the one that ends the text
      obtain ⟨-, -, -, c, b, -, -, -, -, -, -, -, hup, -⟩ := hstands.exists_scanned h.valid
      obtain rfl : l = (scan c b).leaf := by
        have := head?_tokenizeRest c b
        rw [← hup] at this
        simpa using this
      have heof : (scan c b).leaf.tokenKind = .eof := by
        by_contra hne
        have htext := text_scan_ne_nil hne
        refine hpos ?_
        rw [Leaf.width_eq]
        exact Text.width_pos_of_ne_nil (by simp [Leaf.fullText, htext])
      rw [tokenizeRest_of_eq heof] at hup
      obtain rfl : bs = [] := (List.cons.inj hup).2
      have hroot : Leaf.widthAll (as ++ g.leaves) = r.old.root.width := by
        have := Leaf.widthAll_scanned fun l hl hm => (h.valid.fine.missing l hl hm).1
        rw [← h.valid.scanned_leaves, htokens] at this
        rw [h.valid.fine.exact.width_eq_widthAll, ← this]
        simp
        omega
      rw [Green.tokenStarting?, if_pos hroot, Nat.eq_zero_of_not_pos hpos]
      split
      · next t ht =>
        have := (Option.filter_eq_some_iff.1 ht).2
        simp only [Bool.and_eq_true, decide_eq_true_eq] at this
        rw [this.2]
      · rfl
  · rw [if_neg hopen, if_neg hopen]
    rfl

/-- What is clean up to the end of its window is clean up to its own end. -/
theorem isClean_of_windowEnd (h : r.Serves symbols text set) {start : Nat} {g : Green} {bs : List Leaf}
    (hg : g.Exact) (hne : g.leaves ≠ []) (hstands : r.old.Stands symbols start g.leaves bs)
    (hclean : r.isClean start (r.windowEnd g start) = true) : r.isClean start (start + g.width) = true := by
  have hbs : bs ≠ [] := by
    obtain ⟨-, -, -, hbs⟩ := hstands
    exact hbs
  obtain ⟨l, bs, rfl⟩ := List.exists_cons_of_ne_nil hbs
  rw [h.windowEnd_eq hg hstands] at hclean
  obtain ⟨as, c, t, c', b, es, fs, gs, has, hls, hkind, hkind', hup, rfl, -, -⟩ := hstands.exists_scanned h.valid
  have hscan : (scan c' b).leaf = l := by
    have := head?_tokenizeRest c' b
    rw [← hup] at this
    simpa [eq_comm] using this
  have happ := scan_append c' b
  rw [hscan] at happ
  rw [isClean_iff h.spans] at hclean ⊢
  intro c hc
  refine (hclean c hc).imp (fun hle => le_trans ?_ hle) id
  by_cases hopen : g.isOpenEnded = true
  · have hsplit : r.old.text = (Leaf.textAll as ++ Leaf.textAll g.leaves) ++ (l.fullText ++ (scan c' b).rest) := by
      rw [has.text_eq, hls.text_eq, happ, List.append_assoc]
    have hwidth : Leaf.widthAll as + g.width = Text.width (Leaf.textAll as ++ Leaf.textAll g.leaves) := by
      rw [Text.width_append, hg.width_eq_widthAll, Leaf.widthAll_eq, Leaf.widthAll_eq]
    rw [if_pos hopen, hwidth, l.width_eq, hsplit]
    refine lookaheadEnd_mono fun hhead => ?_
    rw [happ] at hhead
    rw [List.getLast?_append, hls.getLast?_of_head? hne hhead, Option.some_or]
  · rw [if_neg hopen, Nat.add_zero]

/-- An old node that is used again is scanned again. -/
theorem scanned_node (h : r.Serves symbols text set) {kinds : NodeKind → Bool} {x y : Text} {context : Context}
    {start : Nat} {g : Green} (htext : text = x ++ y) (hg : r.node? kinds x.width context = some (start, g)) :
    (g.nodeKind?.any kinds = true ∧ Green.Sub g r.old.root ∧ g.leaves ≠ [] ∧ g.flags.diagnostics = false ∧
      g.flags.annotations = false) ∧ (∀ l ∈ g.leaves, l.tokenKind ≠ .eof) ∧
      ∃ c y' es, Scanned context y g.leaves c y' es ∧
        r.entriesFor start g.width x.width = es.map (·.shift x.width) := by
  obtain ⟨hoffset, hfound, haccepts⟩ := node?_eq_some_iff.1 hg
  simp only [accepts, Bool.and_eq_true, Bool.not_eq_true', decide_eq_true_eq] at haccepts
  obtain ⟨⟨⟨⟨-, hd⟩, ha⟩, hclean⟩, rfl⟩ := haccepts
  obtain ⟨hkinds, -, hpos, hsub, bs, hstands, -⟩ := h.valid.stands_node hfound hd ha
  have hfine := h.valid.fine.of_sub hsub
  have hwidth := hfine.exact.width_eq_widthAll
  have hne : g.leaves ≠ [] := by
    intro hnil
    rw [hwidth, hnil] at hpos
    exact Nat.lt_irrefl _ hpos
  have hdiag : ∀ l ∈ g.leaves, l.diagnostics = [] := fun l hl => (hfine.plain_of_mem hd ha hl).1
  have hclean' := h.isClean_of_windowEnd hfine.exact hne hstands hclean
  rw [hwidth] at hclean' ⊢
  obtain ⟨c, -, -, y', es, -, hs, hkind, hentries, -⟩ := h.exists_scanned htext hoffset hstands hdiag hne hclean'
  exact ⟨⟨hkinds, hsub, hne, hd, ha⟩, hkind, c, y', es, hs, hentries⟩

/-- Behind an open-ended node that is used again no `else` turns up. -/
theorem frontKind_ne_else (h : r.Serves symbols text set) (hadds : ¬ AddsBehindLine r.old.text set)
    (hroot : r.old.root.missesElse .eof = false) {kinds : NodeKind → Bool} {x y y' : Text} {context c : Context}
    {start : Nat} {g : Green} {es : List DirectiveEntry} (htext : text = x ++ y)
    (hg : r.node? kinds x.width context = some (start, g)) (hopen : g.isOpenEnded = true)
    (hs : Scanned context y g.leaves c y' es) : (scan c y').leaf.tokenKind ≠ .keyword .elseKw := by
  obtain ⟨⟨-, hsub, hne, hd, ha⟩, -⟩ := h.scanned_node htext hg
  obtain ⟨hoffset, hfound, haccepts⟩ := node?_eq_some_iff.1 hg
  simp only [accepts, Bool.and_eq_true, Bool.not_eq_true', decide_eq_true_eq] at haccepts
  obtain ⟨⟨-, hclean⟩, rfl⟩ := haccepts
  obtain ⟨-, -, -, -, bs, hstands, hmisses⟩ := h.valid.stands_node hfound hd ha
  have hfine := h.valid.fine.of_sub hsub
  have hwidth := hfine.exact.width_eq_widthAll
  have hdiag : ∀ l ∈ g.leaves, l.diagnostics = [] := fun l hl => (hfine.plain_of_mem hd ha hl).1
  have hclean' := h.isClean_of_windowEnd hfine.exact hne hstands hclean
  obtain ⟨c₁, a, b, b', es₁, cs, hs₁, -, -, hup, hsplit, ha, -, hedits, hcs⟩ :=
    h.exists_scanned htext hoffset hstands hdiag hne (hwidth ▸ hclean')
  obtain ⟨rfl, rfl, rfl⟩ := hs.functional hs₁
  -- the old token behind the node is no `else`, since no `else` got lost in the old tree
  have hhead : bs.head? = some (scan c b).leaf := by rw [hup, head?_tokenizeRest]
  have hold : (scan c b).leaf.tokenKind ≠ .keyword .elseKw := by
    intro helse
    have hmiss := Green.missesElse_of_isOpenEnded hopen
    rw [← helse] at hmiss
    have := hmisses (by rw [hhead]; exact hmiss)
    rw [hroot] at this
    cases this
  -- the changes begin behind all that was seen of it
  obtain ⟨l, bs, rfl⟩ := List.exists_cons_of_ne_nil (l := bs) (by rintro rfl; cases hhead)
  obtain rfl : l = (scan c b).leaf := by simpa using hhead
  rw [h.windowEnd_eq hfine.exact hstands, if_pos hopen, hwidth, ← ha] at hclean
  have happ := scan_append c b
  have hlimit : ∀ d ∈ cs, lookaheadEnd r.old.text (a.width + (scan c b).leaf.width) ≤ d.range.start := by
    intro d hd
    rcases (isClean_iff h.spans).1 hclean d (hcs d hd).1 with hle | hle
    · exact hle
    · have hpos : 0 < Leaf.widthAll g.leaves := by
        rw [Leaf.widthAll_eq]
        exact Text.width_pos_of_ne_nil (hs.textAll_ne_nil hne (h.scanned_node htext hg).2.1)
      have := (hcs d hd).2
      have := d.range.start_le_stop
      omega
  set u := (scan c b).leaf.fullText with hu
  set v := (scan c b).rest with hv
  rw [(scan c b).leaf.width_eq, ← hu] at hlimit
  rw [← ha] at hedits
  have hfar : ∀ d ∈ cs, a.width + u.width ≤ d.range.start := by
    intro d hd
    refine le_trans ?_ (hlimit d hd)
    rw [hsplit, ← happ, ← List.append_assoc, ← Text.width_append, lookaheadEnd, Text.splitAt?_append]
    dsimp only
    split <;> omega
  obtain ⟨v', rfl, hrest⟩ := hedits.of_append happ.symm hfar
  by_cases heof : (scan c b).leaf.tokenKind = .eof
  · -- at the end of the text nothing was added
    have hvnil : v = [] := rest_scan heof
    have hvnil' : v' = [] := by
      refine (hrest.eq_nil_or hvnil).resolve_right fun hbehind => ?_
      obtain ⟨d, hd, hstart⟩ := hbehind
      have hend : r.old.text = (a ++ u) ++ [] := by rw [hsplit, ← happ, hvnil, ← List.append_assoc]
      have hle := hlimit d hd
      rw [hend, ← Text.width_append, lookaheadEnd, Text.splitAt?_append] at hle
      dsimp only at hle
      split at hle
      · next hlast =>
        exact hadds ⟨by rw [hend, List.append_nil, hlast], d, (hcs d hd).1, by rw [hstart, hend]; simp⟩
      · rw [hstart, Text.width_append, lookaheadWidth] at hle
        omega
    rw [hvnil', ← hvnil, happ, heof]
    decide
  · intro helse
    refine hold (tokenKind_eq_of_behind heof ?_ helse)
    by_cases hlast : u.getLast? = some '\n'
    · exact .inl hlast
    · refine .inr (hrest.take_two fun d hd => ?_)
      have hune : u ≠ [] := by
        have htext' := text_scan_ne_nil heof
        simp [hu, Leaf.fullText, htext']
      have := hlimit d hd
      rw [hsplit, ← happ, ← List.append_assoc, ← Text.width_append, lookaheadEnd_eq hune, if_neg hlast,
        ← Nat.add_assoc] at this
      exact this

end Serves

end Reuse

end IncrementalSyntax

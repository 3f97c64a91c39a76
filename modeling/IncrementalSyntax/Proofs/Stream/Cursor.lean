import IncrementalSyntax.Proofs.Stream.Reuse
import IncrementalSyntax.Stream.Cursor

/-!
# Cursors and scanning

However a cursor moves on, it comes to stand where scanning leads: its tokens are those of the text, and
its context and its directives are the ones that scanning finds there.

## Main definitions

* `Cursor.Passes`: a cursor that stands behind some scanned leaves of another one
* `Cursor.At`: a cursor behind the first tokens of a text

## Main results

* `Cursor.At.next`: the next token is the one that scanning gives
* `Cursor.At.reuseNode?`: a node that is used again has the leaves that scanning gives
* `Cursor.At.passes`: what is behind the next leaves
-/

namespace IncrementalSyntax

namespace Cursor

/-- **Passes.** The second cursor stands behind some leaves that are scanned at the first one, and its table
has their directives. -/
def Passes (c c' : Cursor) (ls : List Leaf) : Prop :=
  ∃ es, Scanned c.context c.rest ls c'.context c'.rest es ∧ c'.offset = c.offset + Leaf.widthAll ls ∧
    c'.table = c.table.append (es.map (·.shift c.offset)) ∧ c'.reuse = c.reuse

/-- **At.** The cursor stands behind the first tokens of a text, none of which ends the text. What it uses
again, if anything, serves the text. -/
structure At (symbols : List Text) (text : Text) (set : ChangeSet) (reuse : Option Reuse) (ls : List Leaf)
    (c : Cursor) : Prop where
  kinds : ∀ l ∈ ls, l.tokenKind ≠ .eof
  scanned : Scanned (.initial symbols) text ls c.context c.rest c.table.entries
  initial : c.table.initial = .ofSymbols symbols
  offset : c.offset = Leaf.widthAll ls
  reuse_eq : c.reuse = reuse
  serves : ∀ r, reuse = some r → r.Serves symbols text set

variable {symbols : List Text} {text : Text} {set : ChangeSet} {reuse : Option Reuse}

theorem at_atStart (symbols : List Text) (text : Text) (set : ChangeSet) (pool : Pool) :
    At symbols text set none [] (.atStart text (.initial symbols) pool) where
  kinds := nofun
  scanned := .nil _ _
  initial := rfl
  offset := rfl
  reuse_eq := rfl
  serves := nofun

theorem at_afterEdit {old : OldTree} (hvalid : old.Valid symbols) (hset : set.applyTo old.text = .ok text)
    (pool : Pool) : At symbols text set (some ⟨old, set.spans⟩) []
      (.afterEdit old set text (.initial symbols) pool) where
  kinds := nofun
  scanned := .nil _ _
  initial := rfl
  offset := rfl
  reuse_eq := rfl
  serves := by
    rintro r ⟨⟩
    exact ⟨hvalid, rfl, ChangeSet.applyTo_eq_ok_iff.1 hset⟩

/-- A cursor behind an old element stands where scanning leads. -/
theorem behind_passes {c : Cursor} {r : Reuse} {g : Green} {start : Nat} {source : ElementSource} {ctx : Context}
    {rest : Text} {ls : List Leaf} {es : List DirectiveEntry} (hs : Scanned c.context c.rest ls ctx rest es)
    (hkinds : ∀ l ∈ ls, l.tokenKind ≠ .eof) (hne : ls ≠ []) (hwidth : g.width = Leaf.widthAll ls)
    (hentries : r.entriesFor start g.width c.offset = es.map (·.shift c.offset)) :
    c.Passes (c.behind r g start source) ls := by
  have hrest : c.rest = Leaf.textAll ls ++ rest := hs.text_eq
  refine ⟨es, ?_, ?_, ?_, rfl⟩
  · have hafter : c.rest.after g.width = rest := by
      rw [hwidth, Leaf.widthAll_eq, hrest, Text.after_append]
    have hcontext : (c.behind r g start source).context = ctx := by
      show Context.mk (DirectiveEntry.stateBehind (r.entriesFor start g.width c.offset) c.context.directives)
        (Text.endsLine (c.rest.before g.width)) = ctx
      rw [hentries, DirectiveEntry.stateBehind_map_shift, ← hs.directives_eq, hwidth, Leaf.widthAll_eq, hrest,
        Text.before_append, ← hs.lineStart_eq hne hkinds]
    rw [hcontext]
    show Scanned c.context c.rest ls ctx (c.rest.after g.width) es
    rwa [hafter]
  · show c.offset + g.width = _
    rw [hwidth]
  · show c.table.append (r.entriesFor start g.width c.offset) = _
    rw [hentries]

theorem scanNext_passes (c : Cursor) : c.Passes c.scanNext.2 [(scan c.context c.rest).leaf] :=
  ⟨_, .single _ _, by simp [scanNext, Leaf.widthAll], rfl, rfl⟩

/-- The next token is one that the old tree has for the place, or it is scanned. -/
theorem next_cases (c : Cursor) :
    (∃ r start t, c.reuse = some r ∧ r.token? c.offset c.context = some (start, t) ∧
      c.next = (t, .reusedToken, c.behind r (.token t) start .reusedToken)) ∨
    c.next = (c.scanNext.1, .scanned, c.scanNext.2) := by
  unfold Cursor.next
  split
  · next r start t heq =>
    obtain ⟨r', hr', hp⟩ := Option.bind_eq_some_iff.1 heq
    obtain ⟨p, hp, heq⟩ := Option.map_eq_some_iff.1 hp
    obtain ⟨rfl, rfl⟩ : r' = r ∧ p = (start, t) := by simpa using heq
    exact .inl ⟨r', start, t, hr', hp, rfl⟩
  · exact .inr rfl

/-- The token that ends a text is never an old one. -/
theorem counts_next {c : Cursor} (h : c.next.1.leaf.tokenKind = .eof) :
    c.next.2.2.counts = c.counts.add .scanned := by
  rcases c.next_cases with ⟨r, start, t, -, ht, hnext⟩ | hnext
  · rw [hnext] at h
    exact absurd h (Reuse.token?_eq_some ht).2.2.1
  · rw [hnext]
    rfl

/-- A node is used again just if the old tree has one for the place. -/
theorem reuseNode?_eq_some_iff {kinds : NodeKind → Bool} {c c' : Cursor} {g : Green} :
    c.reuseNode? kinds = some (g, c') ↔ ∃ r start, c.reuse = some r ∧
      r.node? kinds c.offset c.context = some (start, g) ∧ c.behind r g start .reusedNode = c' := by
  rw [reuseNode?]
  constructor
  · intro h
    split at h
    · next r start g' heq =>
      obtain ⟨r', hr', hp⟩ := Option.bind_eq_some_iff.1 heq
      obtain ⟨p, hp, heq⟩ := Option.map_eq_some_iff.1 hp
      obtain ⟨rfl, rfl⟩ : r' = r ∧ p = (start, g') := by simpa using heq
      obtain ⟨rfl, rfl⟩ : g' = g ∧ c.behind r' g' start .reusedNode = c' := by simpa using h
      exact ⟨r', start, hr', hp, rfl⟩
    · cases h
  · rintro ⟨r, start, hr, hnode, rfl⟩
    simp [hr, hnode]

namespace At

variable {ls ks : List Leaf} {c c' : Cursor}

/-- A cursor behind further leaves stands behind all of them. -/
theorem passes (h : At symbols text set reuse ls c) (hp : c.Passes c' ks) (hkinds : ∀ l ∈ ks, l.tokenKind ≠ .eof) :
    At symbols text set reuse (ls ++ ks) c' := by
  obtain ⟨es, hs, hoffset, htable, hreuse⟩ := hp
  refine ⟨fun l hl => (List.mem_append.1 hl).elim (h.kinds l) (hkinds l), ?_, ?_, ?_, ?_, h.serves⟩
  · rw [htable, DirectiveTable.append, h.offset]
    exact h.scanned.append hs
  · rw [htable]
    exact h.initial
  · rw [hoffset, h.offset, Leaf.widthAll_append]
  · rw [hreuse, h.reuse_eq]

/-- The text in front of a cursor is as wide as its offset says. -/
theorem exists_text_eq (h : At symbols text set reuse ls c) : ∃ x, text = x ++ c.rest ∧ x.width = c.offset :=
  ⟨_, h.scanned.text_eq, by rw [h.offset, Leaf.widthAll_eq]⟩

/-- The next token is the one that scanning gives, wherever it comes from. -/
theorem next (h : At symbols text set reuse ls c) :
    c.next.1.leaf = (scan c.context c.rest).leaf ∧ c.Passes c.next.2.2 [(scan c.context c.rest).leaf] := by
  rcases c.next_cases with ⟨r, start, t, hr, ht, hnext⟩ | hnext
  · rw [hnext]
    obtain ⟨x, htext, hx⟩ := h.exists_text_eq
    obtain ⟨hkind, ctx, rest, es, hs, hentries⟩ :=
      (h.serves r (h.reuse_eq ▸ hr)).scanned_token htext (hx ▸ ht)
    have hleaf : t.leaf = (scan c.context c.rest).leaf := hs.head_eq
    refine ⟨hleaf, ?_⟩
    rw [← hleaf]
    exact behind_passes hs (by simpa using hkind) (by simp) (by simp [Green.width, Leaf.widthAll])
      (by rw [← hx]; exact hentries)
  · rw [hnext]
    exact ⟨Pool.leaf_token _ _, c.scanNext_passes⟩

/-- A node that is used again has the leaves that scanning gives, and no `else` comes behind it that it
could have taken, unless text was added at the end of a line. -/
theorem reuseNode? (h : At symbols text set reuse ls c) {kinds : NodeKind → Bool} {g : Green}
    (hg : c.reuseNode? kinds = some (g, c')) :
    ∃ r, reuse = some r ∧ (g.nodeKind?.any kinds = true ∧ Green.Sub g r.old.root ∧ g.leaves ≠ [] ∧
        g.flags.diagnostics = false ∧ g.flags.annotations = false) ∧
      (∀ l ∈ g.leaves, l.tokenKind ≠ .eof) ∧ c.Passes c' g.leaves ∧
      (¬ Reuse.AddsBehindLine r.old.text set → r.old.root.missesElse .eof = false → g.isOpenEnded = true →
        (scan c'.context c'.rest).leaf.tokenKind ≠ .keyword .elseKw) := by
  obtain ⟨r, start, hr, hnode, rfl⟩ := reuseNode?_eq_some_iff.1 hg
  obtain ⟨x, htext, hx⟩ := h.exists_text_eq
  have hserves := h.serves r (h.reuse_eq ▸ hr)
  rw [← hx] at hnode
  obtain ⟨hinfo, hkinds, ctx, rest, es, hs, hentries⟩ := hserves.scanned_node htext hnode
  have hwidth := (hserves.valid.fine.of_sub hinfo.2.1).exact.width_eq_widthAll
  have hpasses : c.Passes (c.behind r g start .reusedNode) g.leaves :=
    behind_passes hs hkinds hinfo.2.2.1 hwidth (by rw [← hx]; exact hentries)
  refine ⟨r, h.reuse_eq ▸ hr, hinfo, hkinds, hpasses, fun hadds hroot hopen => ?_⟩
  obtain ⟨es', hs', -⟩ := hpasses
  exact hserves.frontKind_ne_else hadds hroot htext hnode hopen hs'

end At

end Cursor

end IncrementalSyntax

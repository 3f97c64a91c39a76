import IncrementalSyntax.Proofs.Grammar.Listed
import IncrementalSyntax.Proofs.Stream.Supply

/-!
# Members in front of an edit

In front of the first change both texts have the same tokens, and so the same context stands behind each of
them. A file without diagnostics consists of members, at whose ends nothing but their own text was looked at.
So a cursor that comes to such a member gets it as it is, if all that the scanner saw behind it is unchanged.

## Main definitions

* `OldTree.Consists`: an old tree that is a file without diagnostics

## Main results

* `Reuse.Serves.exists_scanned_front`: tokens in front of all changes are scanned again
* `Cursor.At.exists_reuseNode?`: a member in front of all changes is used again
-/

namespace IncrementalSyntax

open Green hiding id

/-! ## In front of the first change -/

theorem le_lookaheadEnd (t : Text) (stop : Nat) : stop ≤ lookaheadEnd t stop := by
  unfold lookaheadEnd
  split
  · exact Nat.le_succ stop
  · split
    · exact le_rfl
    · exact Nat.le_add_right _ _

/-- What is in front of the first change is in front of all of them. -/
theorem Edits.le_of_head? {oldEnd limit : Nat} {cs : List Change} {r r' : Text} (h : Edits oldEnd cs r r')
    (hlimit : ∀ c ∈ cs.head?, limit ≤ c.range.start) : ∀ c ∈ cs, limit ≤ c.range.start := by
  cases h with
  | done => nofun
  | @change _ c cs s s' gap cut hstart hlength h =>
    have hc : limit ≤ c.range.start := hlimit c rfl
    refine List.forall_mem_cons.2 ⟨hc, fun d hd => ?_⟩
    exact hc.trans (c.range.start_le_stop.trans (h.le_start d hd))

namespace Reuse

variable {symbols : List Text} {text : Text} {set : ChangeSet} {r : Reuse}

/-- Where nothing was changed before, a place is where it was. -/
theorem oldOffset?_of_lt (hspans : r.spans = set.spans) {offset : Nat}
    (h : ∀ c ∈ set.changes.head?, offset < c.range.start) : r.oldOffset? offset = some offset := by
  rw [oldOffset?, hspans, ChangeSet.spans]
  cases hcs : set.changes with
  | nil => simp [ChangeSet.spansFrom, oldOffsetFrom?]
  | cons c cs =>
    have hlt : offset < 0 + (c.range.start - 0) := by simpa using h c (by simp [hcs])
    rw [ChangeSet.spansFrom, oldOffsetFrom?, if_pos hlt]
    simp

/-- **The front of a text.** Tokens that carry no diagnostic are scanned again in the new text, if the changes
begin behind all that is seen of the text behind them. -/
theorem Serves.exists_scanned_front (h : r.Serves symbols text set) {ls : List Leaf} {c : Context} {b : Text}
    {es : List DirectiveEntry} (hs : Scanned (.initial symbols) r.old.text ls c b es)
    (hkinds : ∀ l ∈ ls, l.tokenKind ≠ .eof) (hdiag : ∀ l ∈ ls, l.diagnostics = [])
    (hfront : ls ≠ [] → ∀ d ∈ set.changes.head?, lookaheadEnd r.old.text (Leaf.widthAll ls) ≤ d.range.start) :
    ∃ b', Scanned (.initial symbols) text ls c b' es := by
  by_cases hnil : ls = []
  · subst hnil
    cases hs
    exact ⟨text, .nil _ _⟩
  · -- the tokens are one clean stretch of text that starts where both texts start
    have hne : Leaf.textAll ls ≠ [] := hs.textAll_ne_nil hnil hkinds
    have hfront := hfront hnil
    rw [Leaf.widthAll_eq] at hfront
    have hpos : ∀ d ∈ set.changes.head?, 0 < d.range.start := fun d hd =>
      (Text.width_pos_of_ne_nil hne).trans_le ((le_lookaheadEnd _ _).trans (hfront d hd))
    have hclean : r.isClean 0 (0 + (Leaf.textAll ls).width) = true := by
      rw [isClean_iff h.spans, Nat.zero_add]
      exact fun d hd => .inl (h.edits.le_of_head? hfront d hd)
    have htext : text = [] ++ text := rfl
    have hsplit : r.old.text = [] ++ (Leaf.textAll ls ++ b) := hs.text_eq
    obtain ⟨b', -, hb', hbehind, -⟩ :=
      h.edits.exists_clean h.spans htext (oldOffset?_of_lt h.spans hpos) hsplit hne hclean
    rw [hb']
    exact ⟨b', hs.local hkinds hdiag hbehind⟩

end Reuse

/-! ## Files without diagnostics -/

/-- The node at the end of a row is found where it stands. -/
theorem Green.nodeAmong?_append {accept : Green → Bool} {as bs : List Green} {g : Green} (hnode : g.isNode = true)
    (haccept : accept g = true) (hpos : 0 < g.width) :
    nodeAmong? accept (as ++ g :: bs) (widthAll as) = some g := by
  induction as with
  | nil => simp [nodeAmong?, widthAll, hnode, haccept, hpos]
  | cons a as ih =>
    rw [List.cons_append, nodeAmong?, if_neg (by simp [widthAll])]
    simpa [widthAll] using ih

/-- **Consists.** The old tree is a file without diagnostics and annotations, and these are its members. -/
structure OldTree.Consists (symbols : List Text) (old : OldTree) (ms : List Green) : Prop where
  valid : old.Valid symbols
  children : ∃ e, old.root.children = ms ++ [.token e] ∧ e.leaf.tokenKind = .eof
  diagnostics : old.root.flags.diagnostics = false
  annotations : old.root.flags.annotations = false
  listed : ∀ m ∈ ms, m.Listed

namespace OldTree.Consists

variable {symbols : List Text} {old : OldTree} {ms as bs : List Green} {m : Green}

theorem sub (h : old.Consists symbols ms) (hm : m ∈ ms) : Sub m old.root := by
  obtain ⟨e, hchildren, -⟩ := h.children
  exact .of_mem_children (hchildren ▸ List.mem_append_left _ hm)

theorem fine (h : old.Consists symbols ms) (hm : m ∈ ms) : m.Fine := h.valid.fine.of_sub (h.sub hm)

theorem plain (h : old.Consists symbols ms) : ∀ l ∈ old.root.leaves, l.diagnostics = [] ∧ l.missing = false ∧ l.bare = l :=
  fun _ hl => h.valid.fine.plain_of_mem h.diagnostics h.annotations hl

theorem flags_eq (h : old.Consists symbols ms) (hm : m ∈ ms) :
    m.flags.diagnostics = false ∧ m.flags.annotations = false := by
  refine ⟨?_, h.valid.fine.exact.annotations_of_sub (h.sub hm) h.annotations⟩
  by_contra hd
  obtain ⟨l, hl, hne⟩ := (h.fine hm).exact.flagged_iff.2 (by simpa using hd)
  exact hne (h.plain l ((h.sub hm).leaves_subset l (by simpa using hl))).1

/-- The members in front of a place are as wide as their leaves. -/
theorem widthAll_eq (h : old.Consists symbols (as ++ bs)) : widthAll as = Leaf.widthAll (leavesAll as) :=
  Green.widthAll_eq fun _ hc => (h.fine (List.mem_append_left bs hc)).exact.width_eq

/-- The tokens of the text are those of the members, and the one that ends the text. -/
theorem exists_tokenize_eq (h : old.Consists symbols ms) :
    ∃ l, tokenize symbols old.text = leavesAll ms ++ [l] ∧ l.tokenKind = .eof := by
  obtain ⟨e, hchildren, he⟩ := h.children
  have hleaves : old.root.leaves = leavesAll ms ++ [e.leaf] := by
    rw [h.valid.leaves_eq, hchildren]
    simp
  refine ⟨e.leaf, ?_, he⟩
  rw [← h.valid.scanned, scannedAll_eq_of_plain fun l hl => (h.plain l hl).2, hleaves]

/-- The scan of some members at the start of the file, behind which is the context that the tree has there. -/
theorem exists_scanned (h : old.Consists symbols (as ++ bs)) :
    ∃ c b es, Scanned (.initial symbols) old.text (leavesAll as) c b es ∧
      (∀ l ∈ leavesAll as, l.tokenKind ≠ .eof ∧ l.diagnostics = []) ∧
      ∀ spans, Reuse.contextAt ⟨old, spans⟩ (Leaf.widthAll (leavesAll as)) = c := by
  obtain ⟨l, htokens, -⟩ := h.exists_tokenize_eq
  rw [leavesAll_append, List.append_assoc] at htokens
  obtain ⟨c, b, es, gs, q, hs, hkinds, -, hgs, htable⟩ := h.valid.exists_scanned htokens (by simp)
  refine ⟨c, b, es, hs, fun l hl => ⟨hkinds l hl, ?_⟩, fun spans => Stands.contextAt_eq hs hkinds hgs htable⟩
  obtain ⟨m, hm, hl⟩ := mem_leavesAll.1 hl
  exact (h.plain l ((h.sub (List.mem_append_left bs hm)).leaves_subset l hl)).1

theorem width_pos (h : old.Consists symbols ms) (hm : m ∈ ms) : 0 < m.width := by
  obtain ⟨as, bs, rfl⟩ := List.append_of_mem hm
  have h' : old.Consists symbols ((as ++ [m]) ++ bs) := by rwa [List.append_assoc]
  obtain ⟨c, b, es, hs, hleaves, -⟩ := h'.exists_scanned
  rw [leavesAll_append] at hs hleaves
  obtain ⟨_, _, _, _, -, hs', -⟩ := hs.split
  have htext := hs'.textAll_ne_nil (by simpa using (h.listed m hm).leaves_ne_nil)
    fun l hl => (hleaves l (List.mem_append_right _ hl)).1
  rw [(h.fine hm).exact.width_eq_widthAll, Leaf.widthAll_eq]
  exact Text.width_pos_of_ne_nil (by simpa using htext)

/-- Further on in the file the scanner looks further. -/
theorem lookaheadEnd_le {cs : List Green} (h : old.Consists symbols (as ++ cs ++ bs)) (has : as ≠ []) :
    lookaheadEnd old.text (Leaf.widthAll (leavesAll as)) ≤
      lookaheadEnd old.text (Leaf.widthAll (leavesAll (as ++ cs))) := by
  obtain ⟨c, b, es, hs, -⟩ := h.exists_scanned
  rw [leavesAll_append] at hs ⊢
  obtain ⟨c', b', es₁, es₂, hs₁, hs₂, -⟩ := hs.split
  obtain ⟨a, as', rfl⟩ := List.exists_cons_of_ne_nil has
  have hne : leavesAll (a :: as') ≠ [] := by
    rw [leavesAll_cons]
    exact List.append_ne_nil_of_left_ne_nil (h.listed a (by simp)).leaves_ne_nil _
  rw [Leaf.widthAll_append, Leaf.widthAll_eq, Leaf.widthAll_eq, hs₁.text_eq, hs₂.text_eq]
  -- a line feed at the front of what is behind belongs to the token before it
  apply lookaheadEnd_mono
  intro hhead
  apply hs₁.getLast?_of_head? hne
  rw [hs₂.text_eq, hhead]

end OldTree.Consists

/-! ## Cursors in front of an edit -/

namespace Cursor.At

variable {symbols : List Text} {text : Text} {set : ChangeSet} {old : OldTree} {as bs : List Green} {m : Green}
variable {c : Cursor}

/-- In front of the changes a cursor has the context of the old tree. -/
theorem contextAt_eq (hat : c.At symbols text set (some ⟨old, set.spans⟩) (leavesAll as))
    (hold : old.Consists symbols (as ++ bs)) (hfront : as ≠ [] → ∀ d ∈ set.changes.head?,
      lookaheadEnd old.text (Leaf.widthAll (leavesAll as)) ≤ d.range.start) :
    Reuse.contextAt ⟨old, set.spans⟩ (Leaf.widthAll (leavesAll as)) = c.context := by
  obtain ⟨ctx, b, es, hs, hleaves, hcontext⟩ := hold.exists_scanned
  rw [hcontext]
  obtain ⟨b', hs'⟩ := (hat.serves _ rfl).exists_scanned_front hs (fun l hl => (hleaves l hl).1)
    (fun l hl => (hleaves l hl).2) fun hne => hfront (by rintro rfl; exact hne rfl)
  exact (hs'.functional hat.scanned).1

/-- **A member in front of an edit.** A cursor that comes to it uses it again as it is, and goes on behind it. -/
theorem exists_reuseNode? (hat : c.At symbols text set (some ⟨old, set.spans⟩) (leavesAll as))
    (hold : old.Consists symbols (as ++ m :: bs)) (hfront : ∀ d ∈ set.changes.head?,
      lookaheadEnd old.text (Leaf.widthAll (leavesAll (as ++ [m]))) ≤ d.range.start) :
    ∃ c', c.reuseNode? NodeKind.isMember = some (m, c') ∧
      c'.At symbols text set (some ⟨old, set.spans⟩) (leavesAll (as ++ [m])) ∧
      c'.counts = c.counts.add .reusedNode := by
  let r : Reuse := ⟨old, set.spans⟩
  let start := Leaf.widthAll (leavesAll as)
  have hserves : r.Serves symbols text set := hat.serves r rfl
  have hm : m ∈ as ++ m :: bs := by simp
  have hlisted : m.Listed := hold.listed m hm
  have hpos : 0 < m.width := hold.width_pos hm
  have hstop : Leaf.widthAll (leavesAll (as ++ [m])) = start + m.width := by
    simp [start, (hold.fine hm).exact.width_eq_widthAll]
  rw [hstop] at hfront
  have hoffset : r.oldOffset? c.offset = some start := by
    rw [hat.offset]
    refine Reuse.oldOffset?_of_lt rfl fun d hd => ?_
    have := (le_lookaheadEnd old.text _).trans (hfront d hd)
    omega
  -- the old tree has the member where the cursor stands
  have hfound : old.root.nodeStarting? (fun g => g.nodeKind?.any NodeKind.isMember) start = some m := by
    obtain ⟨e, hchildren, -⟩ := hold.children
    obtain ⟨hd, cs, t, hroot, -⟩ := hold.valid.ending
    have hcs : cs ++ [.token t] = as ++ m :: (bs ++ [.token e]) := by
      rw [hroot] at hchildren
      simpa [Green.children] using hchildren
    rw [hroot, nodeStarting?, hcs, show start = widthAll as from hold.widthAll_eq.symm]
    exact nodeAmong?_append hlisted.isNode hlisted.member hpos
  -- neither the member nor what was seen behind it was changed, and it is read in the context it was read in
  have haccepts : r.accepts m start (r.windowEnd m start) c.context = true := by
    have hend : r.windowEnd m start = start + m.width := by rw [Reuse.windowEnd, hlisted.shut, if_neg Bool.false_ne_true]
    have hclean : r.isClean start (start + m.width) = true :=
      (Reuse.isClean_iff rfl).2 fun d hd => .inl (hserves.edits.le_of_head? hfront d hd)
    have hcontext : r.contextAt start = c.context := by
      apply hat.contextAt_eq hold
      intro has d hd
      have hold' : old.Consists symbols (as ++ [m] ++ bs) := by rwa [List.append_assoc]
      have hle := hold'.lookaheadEnd_le has
      rw [hstop] at hle
      exact hle.trans (hfront d hd)
    simp [Reuse.accepts, hpos, hold.flags_eq hm, hend, hclean, hcontext]
  have hnode : r.node? NodeKind.isMember c.offset c.context = some (start, m) :=
    Reuse.node?_eq_some_iff.2 ⟨hoffset, hfound, haccepts⟩
  have hreuse : c.reuseNode? NodeKind.isMember = some (m, c.behind r m start .reusedNode) :=
    reuseNode?_eq_some_iff.2 ⟨r, start, hat.reuse_eq, hnode, rfl⟩
  obtain ⟨-, -, -, hkinds, hpasses, -⟩ := hat.reuseNode? hreuse
  refine ⟨_, hreuse, ?_, rfl⟩
  simpa using hat.passes hpasses hkinds

end Cursor.At

end IncrementalSyntax

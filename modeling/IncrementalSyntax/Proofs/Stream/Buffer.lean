import IncrementalSyntax.Proofs.Stream.Cursor
import IncrementalSyntax.Stream.Buffer

/-!
# Buffers and scanning

However the slots of a buffer were filled, replaced and dropped, their leaves are the first tokens of the
text, and the cursor behind them stands where scanning the same tokens leads. A buffer that only scans is
the measure for all others.

## Main definitions

* `Buffer.Filled`: slots that tile a text with its first tokens
* `Buffer.Run`: the steps of a buffer
* `Buffer.MirrorsScan`: slots that are what a buffer that only scans would hold

## Main results

* `Buffer.filled_fillTo`, `Buffer.filled_tryReuse`, `Buffer.filled_truncate`: every step keeps the slots
* `Buffer.filled_scanOnly`: what a buffer that only scans holds
* `Buffer.Filled.mirrorsScan`: slots that were filled mirror a scan
-/

namespace IncrementalSyntax

namespace Buffer

/-- The leaves of some slots. -/
def leavesOf (slots : List Slot) : List Leaf := Green.leavesAll (slots.map Slot.element)

/-- The cursor behind some slots, the first of which stands at another cursor. -/
def cursorBehind (front : Cursor) (slots : List Slot) : Cursor :=
  (slots.getLast?.map Slot.behind).getD front

/-- **Filled.** The slots stand one behind the other from the start of a text on, and each has the leaves
that scanning gives there. A slot with the token that ends the text is the last one. -/
inductive Filled (symbols : List Text) (text : Text) (set : ChangeSet) (reuse : Option Reuse) (front : Cursor) :
    List Slot → Prop
  | nil (hfront : front.At symbols text set reuse []) : Filled symbols text set reuse front []
  | snoc {slots : List Slot} {s : Slot} (h : Filled symbols text set reuse front slots)
      (hat : (cursorBehind front slots).At symbols text set reuse (leavesOf slots))
      (hstart : s.start = (cursorBehind front slots).offset)
      (hpasses : (cursorBehind front slots).Passes s.behind s.element.leaves)
      (hwidth : s.element.width = Leaf.widthAll s.element.leaves)
      (hkind : (∀ l ∈ s.element.leaves, l.tokenKind ≠ .eof) ∨ s.isEnd = true ∧ ∃ l, s.element.leaves = [l] ∧ l.tokenKind = .eof) :
      Filled symbols text set reuse front (slots ++ [s])

@[simp] theorem leavesOf_append (as bs : List Slot) : leavesOf (as ++ bs) = leavesOf as ++ leavesOf bs := by
  simp [leavesOf]

@[simp] theorem leavesOf_singleton (s : Slot) : leavesOf [s] = s.element.leaves := by
  simp [leavesOf]

@[simp] theorem cursorBehind_append (front : Cursor) (slots : List Slot) (s : Slot) :
    cursorBehind front (slots ++ [s]) = s.behind := by
  simp [cursorBehind]

theorem cursorAfter_eq (b : Buffer) (count : Nat) :
    b.cursorAfter count = cursorBehind b.front (b.slots.take count) := rfl

theorem cursor_eq (b : Buffer) : b.cursor = cursorBehind b.front b.slots := by
  rw [cursor, cursorAfter_eq, List.take_length]

namespace Filled

variable {symbols : List Text} {text : Text} {set : ChangeSet} {reuse : Option Reuse} {front : Cursor}
variable {slots : List Slot}

theorem take (h : Filled symbols text set reuse front slots) (k : Nat) :
    Filled symbols text set reuse front (slots.take k) := by
  induction h with
  | nil hfront => simpa using Filled.nil hfront
  | @snoc slots s h hat hstart hpasses hwidth hkind ih =>
    rcases Nat.lt_or_ge k (slots ++ [s]).length with hlt | hge
    · rw [List.length_append, List.length_singleton] at hlt
      rwa [List.take_append_of_le_length (by omega)]
    · rw [List.take_of_length_le hge]
      exact .snoc h hat hstart hpasses hwidth hkind

/-- Behind slots that do not end the text the cursor stands behind their leaves. -/
theorem cursor_at (h : Filled symbols text set reuse front slots)
    (hend : slots.getLast?.any Slot.isEnd = false) :
    (cursorBehind front slots).At symbols text set reuse (leavesOf slots) := by
  cases h with
  | nil hfront => exact hfront
  | @snoc slots s h hat hstart hpasses hwidth hkind =>
    rw [cursorBehind_append, leavesOf_append, leavesOf_singleton]
    refine hat.passes hpasses (hkind.resolve_right fun ⟨heof, _⟩ => ?_)
    simp [heof] at hend

/-- Scanning the leaves of the slots leads to the cursor behind them. -/
theorem scanned (h : Filled symbols text set reuse front slots) :
    Scanned (.initial symbols) text (leavesOf slots) (cursorBehind front slots).context
        (cursorBehind front slots).rest (cursorBehind front slots).table.entries ∧
      (cursorBehind front slots).table.initial = .ofSymbols symbols ∧
      (cursorBehind front slots).offset = Leaf.widthAll (leavesOf slots) := by
  cases h with
  | nil hfront => exact ⟨hfront.scanned, hfront.initial, hfront.offset⟩
  | @snoc slots s h hat hstart hpasses hwidth hkind =>
    obtain ⟨es, hs, hoffset, htable, -⟩ := hpasses
    rw [cursorBehind_append, leavesOf_append, leavesOf_singleton, htable, hoffset, Leaf.widthAll_append, hat.offset]
    exact ⟨hat.scanned.append hs, hat.initial, rfl⟩

theorem reuse_eq (h : Filled symbols text set reuse front slots) :
    (cursorBehind front slots).reuse = reuse ∧ ∀ r, reuse = some r → r.Serves symbols text set := by
  cases h with
  | nil hfront => exact ⟨hfront.reuse_eq, hfront.serves⟩
  | snoc h hat hstart hpasses hwidth hkind =>
    obtain ⟨es, -, -, -, hreuse⟩ := hpasses
    rw [cursorBehind_append]
    exact ⟨hreuse.trans hat.reuse_eq, hat.serves⟩

/-- The leaves of the slots are the first tokens of the text, and all of them where a slot ends the text. -/
theorem tokenize_eq (h : Filled symbols text set reuse front slots) :
    ∃ ls, tokenize symbols text = leavesOf slots ++ ls ∧ (slots.getLast?.any Slot.isEnd = true → ls = []) := by
  cases h with
  | nil hfront => exact ⟨_, rfl, nofun⟩
  | @snoc slots s h hat hstart hpasses hwidth hkind =>
    have hbefore := hat.scanned.tokenizeRest_eq hat.kinds
    obtain ⟨es, hs, -⟩ := hpasses
    rw [leavesOf_append, leavesOf_singleton, IncrementalSyntax.tokenize_eq, hbefore]
    rcases hkind with hkind | ⟨-, l, hl, heof⟩
    · refine ⟨tokenizeRest s.behind.context s.behind.rest, ?_, fun hend => ?_⟩
      · rw [hs.tokenizeRest_eq hkind, List.append_assoc]
      · -- a slot that ends the text holds the token that does
        have hend : s.element.tokenKind? = some .eof := by simpa [Slot.isEnd] using hend
        cases he : s.element with
        | node hd cs => simp [he, Green.tokenKind?] at hend
        | token t =>
          rw [he] at hend hkind
          exact absurd (by simpa [Green.tokenKind?] using hend) (hkind t.leaf (by simp))
    · rw [hl] at hs ⊢
      obtain rfl := hs.head_eq
      exact ⟨[], by rw [tokenizeRest_of_eq heof, List.append_nil], fun _ => rfl⟩

end Filled

/-! ## The steps of a buffer -/

variable {symbols : List Text} {text : Text} {set : ChangeSet} {reuse : Option Reuse} {b : Buffer}

theorem filled_fill (h : Filled symbols text set reuse b.front b.slots) (hend : b.atEnd = false) :
    Filled symbols text set reuse b.fill.front b.fill.slots ∧
      leavesOf b.fill.slots = leavesOf b.slots ++ [(scan b.cursor.context b.cursor.rest).leaf] := by
  have hc : cursorBehind b.fill.front b.slots = b.cursor := b.cursor_eq.symm
  have hat : b.cursor.At symbols text set reuse (leavesOf b.slots) := b.cursor_eq ▸ h.cursor_at hend
  obtain ⟨hleaf, hpasses⟩ := hat.next
  have hleaves : (Green.token b.cursor.next.1).leaves = [(scan b.cursor.context b.cursor.rest).leaf] := by
    rw [Green.leaves_token, hleaf]
  refine ⟨.snoc h (hc.symm ▸ hat) (hc.symm ▸ rfl) ?_ ?_ ?_, ?_⟩
  · rw [hc, hleaves]
    exact hpasses
  · simp [Green.width, Leaf.widthAll]
  · by_cases heof : b.cursor.next.1.leaf.tokenKind = .eof
    · exact .inr ⟨by simp [Slot.isEnd, Green.tokenKind?, heof], _, rfl, heof⟩
    · exact .inl (by simpa using heof)
  · rw [fill, leavesOf_append, leavesOf_singleton, hleaves]

/-- More slots hold more of the tokens, one each, up to the end of the text. -/
theorem filled_fillMore (count : Nat) (h : Filled symbols text set reuse b.front b.slots) :
    Filled symbols text set reuse b.front (fillMore count b).slots ∧ (fillMore count b).front = b.front ∧
      leavesOf (fillMore count b).slots = (tokenize symbols text).take ((leavesOf b.slots).length + count) := by
  induction count generalizing b with
  | zero =>
    obtain ⟨ls, hls, -⟩ := h.tokenize_eq
    exact ⟨h, rfl, by simp [fillMore, hls]⟩
  | succ count ih =>
    rw [fillMore]
    obtain ⟨ls, hls, hall⟩ := h.tokenize_eq
    split
    · next hend =>
      obtain rfl := hall hend
      exact ⟨h, rfl, by simp [hls]⟩
    · next hend =>
      obtain ⟨hfill, hleaves⟩ := filled_fill h (by simpa using hend)
      obtain ⟨hfilled, hfront, htake⟩ := ih hfill
      refine ⟨hfilled, hfront, ?_⟩
      rw [htake, hleaves, List.length_append, List.length_singleton, Nat.add_assoc, Nat.add_comm 1 count]

/-- At the end of a text nothing is left to use again. -/
theorem reuseNode?_eq_none {c : Cursor} (hserves : ∀ r, c.reuse = some r → r.Serves symbols text set)
    (hoffset : c.offset = text.width) (kinds : NodeKind → Bool) : c.reuseNode? kinds = none := by
  refine Option.eq_none_iff_forall_ne_some.2 ?_
  rintro ⟨g, c'⟩ hg
  obtain ⟨r, start, hr, hnode, -⟩ := Cursor.reuseNode?_eq_some_iff.1 hg
  have h := hserves r hr
  obtain ⟨hold, hfound, -⟩ := Reuse.node?_eq_some_iff.1 hnode
  -- the end of the new text has the end of the old one as its old offset
  rw [Reuse.oldOffset?, h.spans] at hold
  obtain ⟨x, y, cs, htext, hx, hedits, hcs⟩ := h.edits.exists_behind
    (show text = text ++ [] from (List.append_nil text).symm) (Nat.zero_add _) (hoffset ▸ hold)
  have hy : y = [] := by
    refine (hedits.eq_nil_of_right rfl).resolve_right fun hbehind => ?_
    obtain ⟨d, hd, hstart⟩ := hbehind
    exact absurd (hcs d hd).2 (by omega)
  obtain ⟨as, bs, hf⟩ := Green.exists_of_nodeStarting? h.valid.fine.exact hfound
  have hwidth : r.old.root.width = r.old.text.width := h.valid.width_eq
  obtain ⟨d, hd, hsub⟩ := hf.sub
  have hg := (h.valid.fine.of_sub (hsub.trans (.of_mem_children hd))).exact
  have hroot : Leaf.widthAll r.old.root.leaves = start + (Leaf.widthAll g.leaves + Leaf.widthAll bs) := by
    rw [h.valid.leaves_eq, hf.leaves, Leaf.widthAll_append, Leaf.widthAll_append, hf.width]
  rw [← h.valid.fine.exact.width_eq_widthAll, hwidth, htext, hy, List.append_nil, ← hg.width_eq_widthAll] at hroot
  have := hf.pos
  omega

/-- An old node is used again only in front of the token that ends the text. -/
theorem Filled.at_of_reuseNode? {front : Cursor} {slots : List Slot} (h : Filled symbols text set reuse front slots)
    {kinds : NodeKind → Bool} {p : Green × Cursor} (hp : (cursorBehind front slots).reuseNode? kinds = some p) :
    (cursorBehind front slots).At symbols text set reuse (leavesOf slots) := by
  refine h.cursor_at (Bool.eq_false_iff.2 fun hend => ?_)
  obtain ⟨ls, hls, hnil⟩ := h.tokenize_eq
  have hall : leavesOf slots = tokenize symbols text := by
    rw [hls, hnil hend, List.append_nil]
  have hoffset := h.scanned.2.2
  rw [hall, Leaf.widthAll_eq, IncrementalSyntax.tokenize_eq, textAll_tokenizeRest] at hoffset
  have hnone := reuseNode?_eq_none (fun r hr => h.reuse_eq.2 r (h.reuse_eq.1 ▸ hr)) hoffset kinds
  rw [hnone] at hp
  cases hp

theorem filled_truncate (h : Filled symbols text set reuse b.front b.slots) (index : Nat) :
    Filled symbols text set reuse (b.truncate index).front (b.truncate index).slots := h.take index

theorem filled_fillTo (h : Filled symbols text set reuse b.front b.slots) (index : Nat) :
    Filled symbols text set reuse b.front (b.fillTo index).slots ∧ (b.fillTo index).front = b.front :=
  ⟨(filled_fillMore _ h).1, (filled_fillMore _ h).2.1⟩

/-- An old node takes the place of slots that hold its leaves, or others that come to the same. -/
theorem filled_reuse? (h : Filled symbols text set reuse b.front b.slots) {index : Nat} {kinds : NodeKind → Bool}
    {g : Green} {b' : Buffer} (hreuse : b.reuse? index kinds = some (g, b')) :
    Filled symbols text set reuse b'.front b'.slots ∧ b'.front = b.front := by
  unfold reuse? at hreuse
  split at hreuse
  · cases hreuse
  · next hle =>
    obtain ⟨p, hp, heq⟩ := Option.map_eq_some_iff.1 hreuse
    obtain ⟨rfl, rfl⟩ := Prod.mk.inj heq
    refine ⟨?_, rfl⟩
    have htake := h.take index
    rw [cursorAfter_eq] at hp ⊢
    have hat := htake.at_of_reuseNode? hp
    obtain ⟨r, hr, ⟨-, hsub, -⟩, hkinds, hpasses, -⟩ := hat.reuseNode? hp
    exact .snoc htake hat rfl hpasses ((hat.serves r hr).valid.fine.of_sub hsub).exact.width_eq_widthAll (.inl hkinds)

theorem filled_tryReuse (h : Filled symbols text set reuse b.front b.slots) (index : Nat)
    (kinds : NodeKind → Bool) :
    Filled symbols text set reuse b.front (b.tryReuse index kinds).2.slots ∧
      (b.tryReuse index kinds).2.front = b.front := by
  rw [tryReuse]
  have hfill : Filled symbols text set reuse b.front (if index = 0 then b else b.fillTo (index - 1)).slots ∧
      (if index = 0 then b else b.fillTo (index - 1)).front = b.front := by
    split
    · exact ⟨h, rfl⟩
    · exact filled_fillTo h _
  revert hfill
  generalize (if index = 0 then b else b.fillTo (index - 1)) = filled
  rintro ⟨hfilled, hfront⟩
  split
  · next g b' heq =>
    obtain ⟨h', hfront'⟩ := filled_reuse? (hfront ▸ hfilled) heq
    rw [hfront'] at h'
    exact ⟨hfront ▸ h', hfront'.trans hfront⟩
  · exact ⟨hfilled, hfront⟩

/-- **Run.** What a buffer can become: slots are filled, old nodes take their places, and slots are dropped
again. -/
inductive Run (start : Buffer) : Buffer → Prop
  | start : Run start start
  | fillTo {b : Buffer} (index : Nat) (h : Run start b) : Run start (b.fillTo index)
  | tryReuse {b : Buffer} (index : Nat) (kinds : NodeKind → Bool) (h : Run start b) :
      Run start (b.tryReuse index kinds).2
  | truncate {b : Buffer} (index : Nat) (h : Run start b) : Run start (b.truncate index)

/-- Every step keeps the slots in order. -/
theorem Run.filled {front : Cursor} (hfront : front.At symbols text set reuse []) (hrun : Run ⟨front, []⟩ b) :
    Filled symbols text set reuse front b.slots ∧ b.front = front := by
  induction hrun with
  | start => exact ⟨.nil hfront, rfl⟩
  | fillTo index _ ih =>
    obtain ⟨h, rfl⟩ := ih
    exact filled_fillTo h index
  | tryReuse index kinds _ ih =>
    obtain ⟨h, rfl⟩ := ih
    exact filled_tryReuse h index kinds
  | truncate index _ ih =>
    obtain ⟨h, rfl⟩ := ih
    exact ⟨filled_truncate h index, rfl⟩

/-! ## What a buffer holds -/

/-- A buffer over a text that only scans, with some slots filled. -/
def scanOnly (symbols : List Text) (text : Text) (pool : Pool) (count : Nat) : Buffer :=
  fillMore count ⟨.atStart text (.initial symbols) pool, []⟩

/-- A buffer over a text that only scans, with all slots filled. -/
def scanAll (symbols : List Text) (text : Text) (pool : Pool) : Buffer :=
  fillAll ⟨.atStart text (.initial symbols) pool, []⟩

/-- **Tiles.** The slots stand one behind the other from one offset to another, each as wide as its element. -/
def Tiles : Nat → List Slot → Nat → Prop
  | start, [], stop => start = stop
  | start, s :: slots, stop => s.start = start ∧ s.stop = start + s.element.width ∧ Tiles s.stop slots stop

theorem tiles_append {start middle stop : Nat} {as bs : List Slot} (has : Tiles start as middle)
    (hbs : Tiles middle bs stop) : Tiles start (as ++ bs) stop := by
  induction as generalizing start with
  | nil =>
    obtain rfl : start = middle := has
    exact hbs
  | cons s as ih => exact ⟨has.1, has.2.1, ih has.2.2⟩

/-- **Mirrors a scan.** The slots tile the text up to some offset, their leaves are the first tokens of the
text, and the context and the directives there are those of a buffer that scans as many tokens. -/
structure MirrorsScan (symbols : List Text) (text : Text) (b : Buffer) : Prop where
  tiles : Tiles 0 b.slots b.cursor.offset
  inside : b.cursor.offset ≤ text.width
  leaves : leavesOf b.slots <+: tokenize symbols text
  scanned : ∀ pool, leavesOf (scanOnly symbols text pool (leavesOf b.slots).length).slots = leavesOf b.slots
  context : ∀ pool s, b.slots.getLast? = some s →
    s.stop = (scanOnly symbols text pool (leavesOf b.slots).length).cursor.offset ∧
      s.context = (scanOnly symbols text pool (leavesOf b.slots).length).cursor.context
  directives : ∀ pool, b.directives = (scanOnly symbols text pool (leavesOf b.slots).length).directives ∧
    b.directives.entries = (scanAll symbols text pool).directives.upTo b.cursor.offset

namespace Filled

variable {front : Cursor} {slots : List Slot}

theorem tiles (h : Filled symbols text set reuse front slots) :
    Tiles 0 slots (cursorBehind front slots).offset := by
  induction h with
  | nil hfront => exact hfront.offset.symm
  | @snoc slots s h hat hstart hpasses hwidth hkind ih =>
    obtain ⟨es, -, hoffset, -⟩ := hpasses
    rw [cursorBehind_append]
    refine tiles_append ih ⟨hstart, ?_, rfl⟩
    rw [hwidth, ← hoffset]
    rfl

/-- Two buffers with the same leaves stand at the same place. -/
theorem cursor_eq_of_leaves {set' : ChangeSet} {reuse' : Option Reuse} {front' : Cursor} {slots' : List Slot}
    (h : Filled symbols text set reuse front slots) (h' : Filled symbols text set' reuse' front' slots')
    (hleaves : leavesOf slots = leavesOf slots') :
    (cursorBehind front slots).offset = (cursorBehind front' slots').offset ∧
      (cursorBehind front slots).context = (cursorBehind front' slots').context ∧
      (cursorBehind front slots).table = (cursorBehind front' slots').table := by
  obtain ⟨hs, hinitial, hoffset⟩ := h.scanned
  obtain ⟨hs', hinitial', hoffset'⟩ := h'.scanned
  rw [hleaves] at hs hoffset
  obtain ⟨hcontext, -, hentries⟩ := hs.functional hs'
  exact ⟨hoffset.trans hoffset'.symm, hcontext, DirectiveTable.eq_of (hinitial.trans hinitial'.symm) hentries⟩

/-- The directives are those of the whole text up to the end of the slots. -/
theorem entries_eq {set' : ChangeSet} {reuse' : Option Reuse} {front' : Cursor} {slots' : List Slot}
    (h : Filled symbols text set reuse front slots) (h' : Filled symbols text set' reuse' front' slots')
    (hall : leavesOf slots' = tokenize symbols text) :
    (cursorBehind front slots).table.entries =
      (cursorBehind front' slots').table.upTo (cursorBehind front slots).offset := by
  obtain ⟨hs, -, hoffset⟩ := h.scanned
  obtain ⟨hs', -, -⟩ := h'.scanned
  obtain ⟨ls, hls, -⟩ := h.tokenize_eq
  rw [hall, hls] at hs'
  obtain ⟨c, t, es, fs, hes, hfs, hentries⟩ := hs'.split
  obtain ⟨-, -, rfl⟩ := hs.functional hes
  generalize (cursorBehind front' slots').table = table at *
  cases table
  obtain rfl := hentries
  rw [hoffset, DirectiveTable.upTo_append hs.inside ((hfs.inside.shift _).mono (by omega) le_rfl)]

end Filled

theorem filled_scanOnly (symbols : List Text) (text : Text) (pool : Pool) (count : Nat) :
    Filled symbols text .empty none (scanOnly symbols text pool count).front (scanOnly symbols text pool count).slots ∧
      leavesOf (scanOnly symbols text pool count).slots = (tokenize symbols text).take count := by
  have h := filled_fillMore (b := ⟨.atStart text (.initial symbols) pool, []⟩) count
    (.nil (Cursor.at_atStart symbols text .empty pool))
  refine ⟨?_, ?_⟩
  · rw [scanOnly, h.2.1]
    exact h.1
  · rw [scanOnly, h.2.2]
    simp [leavesOf]

theorem filled_scanAll (symbols : List Text) (text : Text) (pool : Pool) :
    Filled symbols text .empty none (scanAll symbols text pool).front (scanAll symbols text pool).slots ∧
      leavesOf (scanAll symbols text pool).slots = tokenize symbols text := by
  obtain ⟨h, hleaves⟩ := filled_scanOnly symbols text pool (text.length + 1)
  refine ⟨h, hleaves.trans (List.take_of_length_le ?_)⟩
  exact length_tokenizeRest_le _ _

/-- Slots that were filled mirror a scan. -/
theorem Filled.mirrorsScan (h : Filled symbols text set reuse b.front b.slots) : b.MirrorsScan symbols text := by
  obtain ⟨ls, hls, -⟩ := h.tokenize_eq
  have hscan : ∀ pool, leavesOf b.slots =
      leavesOf (scanOnly symbols text pool (leavesOf b.slots).length).slots := by
    intro pool
    rw [(filled_scanOnly symbols text pool _).2, hls, List.take_left']
    rfl
  have hsame := fun pool => h.cursor_eq_of_leaves (filled_scanOnly symbols text pool _).1 (hscan pool)
  refine ⟨b.cursor_eq ▸ h.tiles, ?_, ⟨ls, hls.symm⟩, fun pool => (hscan pool).symm, ?_, ?_⟩
  · rw [cursor_eq, h.scanned.2.2, Leaf.widthAll_eq]
    conv_rhs => rw [h.scanned.1.text_eq]
    simp
  · intro pool s hs
    have hbehind : cursorBehind b.front b.slots = s.behind := by rw [cursorBehind, hs]; rfl
    obtain ⟨hoffset, hcontext, -⟩ := hsame pool
    rw [hbehind] at hoffset hcontext
    rw [cursor_eq]
    exact ⟨hoffset, hcontext⟩
  · intro pool
    obtain ⟨-, -, htable⟩ := hsame pool
    refine ⟨?_, ?_⟩
    · rw [directives, directives, cursor_eq, cursor_eq]
      exact htable
    · obtain ⟨hall, hleaves⟩ := filled_scanAll symbols text pool
      rw [directives, directives, cursor_eq, cursor_eq]
      exact h.entries_eq hall hleaves

end Buffer

end IncrementalSyntax

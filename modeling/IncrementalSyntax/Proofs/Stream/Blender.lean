import IncrementalSyntax.Proofs.Stream.Buffer
import IncrementalSyntax.Stream.Blender

/-!
# Blenders and buffers

A blender gives the answers of a buffer, whose slots keep all that is known behind them. Its table is the
one behind the last slot of the buffer, and the numbers in its slots cut the tables behind the other slots
out of it. Only identities of scanned tokens differ, since the pool of a blender is not cut back.

## Main definitions

* `Cursor.mark`: what a blender keeps of a cursor
* `BlendedSlot.Matches`, `Blender.Matches`: a blender with the slots of a buffer
* `Buffer.Request`, `Buffer.serve`, `Blender.serve`: what can be asked of either

## Main results

* `Blender.Matches.fill`, `Blender.Matches.truncate`, `Blender.Matches.tryReuse`: every step keeps the slots
  of both alike, and both use the same old nodes
* `Blender.matches_of_requests`, `Blender.answers_of_requests`: the same for any requests in a row
* `Blender.mirrors_scan`: a blender has the leaves and the directives that scanning gives
-/

namespace IncrementalSyntax

namespace DirectiveTable

/-- A table is what it was when it is cut back to the number of entries that it had. -/
@[simp] theorem truncate_append (t : DirectiveTable) (es : List DirectiveEntry) :
    (t.append es).truncate t.entries.length = t := by
  simp [append, truncate]

theorem append_append (t : DirectiveTable) (es fs : List DirectiveEntry) :
    (t.append es).append fs = t.append (es ++ fs) := by
  simp [append]

end DirectiveTable

/-- What a blender keeps of a cursor. -/
def Cursor.mark (c : Cursor) : Blender.Mark := ⟨c.offset, c.context, c.table.entries.length⟩

/-- **Matching slots.** The slots hold elements alike, the same one if it was used again, and agree on the
rest as far as a blender keeps it. -/
structure BlendedSlot.Matches (s : BlendedSlot) (s' : Slot) : Prop where
  shape : s.element.shape = s'.element.shape
  same : s.source ≠ .scanned → s.element = s'.element
  start : s.start = s'.start
  source : s.source = s'.source
  behind : s.behind = s'.behind.mark

theorem BlendedSlot.Matches.isEnd_eq {s : BlendedSlot} {s' : Slot} (h : s.Matches s') : s.isEnd = s'.isEnd := by
  rw [BlendedSlot.isEnd, Slot.isEnd, Green.tokenKind?_eq_of_shape h.shape]

/-- **A blender and a buffer.** They stand over the same text with matching slots, the table of the blender is
the one behind the last slot, and each cursor of the buffer has counted the slots in front of it. -/
structure Blender.Matches (b : Blender) (b' : Buffer) : Prop where
  front : ∃ pool, b'.front = { Cursor.atStart b.text b.initial pool with reuse := b.reuse }
  slots : List.Forall₂ BlendedSlot.Matches b.slots b'.slots
  table : b.table = b'.directives
  counts : ∀ k, (b'.cursorAfter k).counts = ((b'.slots.take k).map Slot.source).foldl ReuseCounts.add {}

namespace Buffer

variable {symbols : List Text} {text : Text} {set : ChangeSet} {reuse : Option Reuse} {front : Cursor}
variable {slots : List Slot}

theorem Filled.front_at (h : Filled symbols text set reuse front slots) : front.At symbols text set reuse [] := by
  induction h with
  | nil hfront => exact hfront
  | snoc _ _ _ _ _ _ ih => exact ih

/-- The directives behind some slots come first in the table behind all. -/
theorem Filled.exists_table_eq (h : Filled symbols text set reuse front slots) (k : Nat) :
    ∃ es, (cursorBehind front slots).table = (cursorBehind front (slots.take k)).table.append es := by
  induction h with
  | nil => exact ⟨[], by simp [DirectiveTable.append]⟩
  | @snoc slots s h hat hstart hpasses hwidth hkind ih =>
    rcases Nat.lt_or_ge slots.length k with hlt | hge
    · rw [List.take_of_length_le (by simpa using hlt)]
      exact ⟨[], by simp [DirectiveTable.append]⟩
    · obtain ⟨es, hes⟩ := ih
      obtain ⟨fs, -, -, hfs, -⟩ := hpasses
      rw [List.take_append_of_le_length hge, cursorBehind_append, hfs, hes, DirectiveTable.append_append]
      exact ⟨_, rfl⟩

theorem cursorAfter_length (b : Buffer) : b.cursorAfter b.slots.length = b.cursor := rfl

/-- **Request.** What can be asked of a buffer: a slot, an old node in its place, and that slots are dropped. -/
inductive Request where
  | fill (index : Nat)
  | reuse (index : Nat) (kinds : NodeKind → Bool)
  | drop (index : Nat)

/-- The buffer after a request. -/
def serve (b : Buffer) : Request → Buffer
  | .fill index => b.fillTo index
  | .reuse index kinds => (b.tryReuse index kinds).2
  | .drop index => b.truncate index

/-- After any requests the slots are in order. -/
theorem filled_foldl_serve (hfront : front.At symbols text set reuse []) (requests : List Request) :
    Filled symbols text set reuse (requests.foldl serve ⟨front, []⟩).front
      (requests.foldl serve ⟨front, []⟩).slots := by
  have hrun : Run ⟨front, []⟩ (requests.foldl serve ⟨front, []⟩) := by
    induction requests using List.reverseRecOn with
    | nil => exact .start
    | append_singleton requests q ih =>
      rw [List.foldl_append]
      cases q with
      | fill index => exact .fillTo index ih
      | reuse index kinds => exact .tryReuse index kinds ih
      | drop index => exact .truncate index ih
  obtain ⟨hfilled, hb⟩ := hrun.filled hfront
  exact hb.symm ▸ hfilled

/-- Behind the slots that are left the cursor is the one that stood there before. -/
theorem cursor_truncate (b : Buffer) (index : Nat) : (b.truncate index).cursor = b.cursorAfter index := by
  rw [cursor_eq, cursorAfter_eq]
  rfl

end Buffer

namespace Blender

variable {symbols : List Text} {text : Text} {set : ChangeSet} {reuse : Option Reuse}
variable {b : Blender} {b' : Buffer}

namespace Matches

section Alike

variable (h : b.Matches b')

include h

theorem length_eq : b.slots.length = b'.slots.length := h.slots.length_eq

/-- What matching slots have in common is the same for the slots of both. -/
theorem map_eq {α : Type} {f : BlendedSlot → α} {f' : Slot → α}
    (hf : ∀ s s', BlendedSlot.Matches s s' → f s = f' s') : b.slots.map f = b'.slots.map f' := by
  rw [← List.forall₂_eq_eq_eq, List.forall₂_map_left_iff, List.forall₂_map_right_iff]
  exact h.slots.imp hf

/-- Both have come to the end of the text or neither. -/
theorem atEnd_eq : b.atEnd = b'.atEnd := by
  have hlast := congrArg List.getLast? (h.map_eq fun _ _ hs => hs.isEnd_eq)
  rw [List.getLast?_map, List.getLast?_map] at hlast
  simpa [Blender.atEnd, Buffer.atEnd, Option.any_map] using congrArg (Option.any id) hlast

/-- The slots that are asked for match. -/
theorem slot? (index : Nat) : Option.Rel BlendedSlot.Matches (b.slot? index) (b'.slot? index) := by
  rw [Blender.slot?, Buffer.slot?, h.length_eq]
  generalize min index (b'.slots.length - 1) = k
  rcases Nat.lt_or_ge k b.slots.length with hk | hk
  · have hk' : k < b'.slots.length := h.length_eq ▸ hk
    rw [List.getElem?_eq_getElem hk, List.getElem?_eq_getElem hk']
    exact .some (h.slots.get hk hk')
  · rw [List.getElem?_eq_none hk, List.getElem?_eq_none (h.length_eq ▸ hk)]
    exact .none

/-- The marks of a blender are those of the cursors between the slots of a buffer. -/
theorem markBefore_eq {k : Nat} (hk : k ≤ b.slots.length) : b.markBefore k = (b'.cursorAfter k).mark := by
  cases k with
  | zero =>
    obtain ⟨pool, hfront⟩ := h.front
    simp [markBefore, Buffer.cursorAfter, hfront, Cursor.mark, Cursor.atStart]
  | succ k =>
    have hk : k < b.slots.length := hk
    have hk' : k < b'.slots.length := h.length_eq ▸ hk
    have hs : b.slots[k].Matches b'.slots[k] := h.slots.get hk hk'
    simp [markBefore, Buffer.cursorAfter, List.getLast?_take, hk, hk', hs.behind]

theorem mark_eq : b.mark = b'.cursor.mark := by
  rw [mark, h.markBefore_eq le_rfl, h.length_eq, b'.cursorAfter_length]

/-- The last cursor has counted all slots. -/
theorem counts_all : b'.counts = (b'.slots.map Slot.source).foldl ReuseCounts.add {} := by
  have hall := h.counts b'.slots.length
  rwa [List.take_length, b'.cursorAfter_length] at hall

/-- Both count the same. -/
theorem counts_eq : b.counts = b'.counts := by
  rw [Blender.counts, h.counts_all, h.map_eq fun _ _ hs => hs.source]

/-- One more slot on both sides. -/
theorem push {g g' : Green} {source : ElementSource} {context : Context} {entries : List DirectiveEntry}
    {c : Cursor} (hshape : g.shape = g'.shape) (hsame : source ≠ .scanned → g = g')
    (hoffset : c.offset = b'.cursor.offset + g.width) (hcontext : c.context = context)
    (htable : c.table = b'.cursor.table.append entries) (hcounts : c.counts = b'.cursor.counts.add source) :
    (b.push g source context entries).Matches
      ⟨b'.front, b'.slots ++ [⟨g', b'.cursor.offset, source, c⟩]⟩ := by
  have hmark := h.mark_eq
  have htable' : b.table.append entries = c.table := by rw [h.table, htable, Buffer.directives]
  refine ⟨h.front, ?_, ?_, fun k => ?_⟩
  · refine List.rel_append h.slots (.cons ⟨hshape, hsame, ?_, rfl, ?_⟩ .nil)
    · exact congrArg Mark.offset hmark
    · show Mark.mk (b.mark.offset + g.width) context (b.table.append entries).entries.length = c.mark
      rw [hmark, htable', ← hcontext]
      show _ = Mark.mk c.offset c.context c.table.entries.length
      rw [hoffset]
      rfl
  · rw [Buffer.directives, Buffer.cursor_eq, Buffer.cursorBehind_append]
    exact htable'
  · -- the new cursor counts one element more, those in front of it have not changed
    rcases Nat.lt_or_ge b'.slots.length k with hlt | hge
    · have hall := h.counts_all
      rw [Buffer.counts] at hall
      rw [Buffer.cursorAfter_eq, List.take_of_length_le (by simpa using hlt), Buffer.cursorBehind_append, hcounts,
        hall]
      simp
    · have hbefore := h.counts k
      rw [Buffer.cursorAfter_eq] at hbefore ⊢
      rw [List.take_append_of_le_length hge]
      exact hbefore

/-- The pool of a blender has no part in what it stands for. -/
theorem withPool (pool : Pool) : Matches { b with pool := pool } b' :=
  ⟨h.front, h.slots, h.table, h.counts⟩

end Alike

/-! ## The steps of a blender -/

section Steps

variable (h : b.Matches b') (hfilled : Buffer.Filled symbols text set reuse b'.front b'.slots)

include h hfilled

/-- Cut back to the number in front of a slot, the table of a blender is the one that the buffer has there. -/
theorem table_truncate_eq {k : Nat} (hk : k ≤ b.slots.length) :
    b.table.truncate (b.markBefore k).tableLength = (b'.cursorAfter k).table := by
  obtain ⟨es, hes⟩ := hfilled.exists_table_eq k
  rw [h.table, h.markBefore_eq hk, Buffer.directives, Buffer.cursor_eq, hes]
  exact DirectiveTable.truncate_append _ es

/-- What is used again is the same for both. -/
theorem reuse_eq (k : Nat) : b.reuse = (b'.cursorAfter k).reuse := by
  obtain ⟨pool, hfront⟩ := h.front
  rw [Buffer.cursorAfter_eq, (hfilled.take k).reuse_eq.1, ← hfilled.front_at.reuse_eq, hfront]

theorem text_eq : b.text = text := by
  obtain ⟨pool, hfront⟩ := h.front
  have htext : text = b'.front.rest := hfilled.front_at.scanned.text_eq
  rw [htext, hfront]
  rfl

/-- An old element is taken over with the context behind it: the character in front of a place is the same
in the whole text as in the part of it that a cursor has left. -/
theorem takeOver {ls ks : List Leaf} {r : Reuse} {g : Green} {oldStart : Nat} {source : ElementSource}
    (hat : b'.cursor.At symbols text set reuse ls)
    (hpasses : b'.cursor.Passes (b'.cursor.behind r g oldStart source) ks) (hne : ks ≠ [])
    (hkinds : ∀ l ∈ ks, l.tokenKind ≠ .eof) :
    (b.takeOver r g oldStart source).Matches
      ⟨b'.front, b'.slots ++ [⟨g, b'.cursor.offset, source, b'.cursor.behind r g oldStart source⟩]⟩ := by
  obtain ⟨x, htext, hx⟩ := hat.exists_text_eq
  obtain ⟨es, hs, hoffset, -, -⟩ := hpasses
  have hwidth : g.width = (Leaf.textAll ks).width := by
    rw [← Leaf.widthAll_eq]
    exact Nat.add_left_cancel hoffset
  have hline : Text.endsLine (b.text.before (b'.cursor.offset + g.width)) =
      Text.endsLine (b'.cursor.rest.before g.width) := by
    rw [h.text_eq hfilled, htext, hs.text_eq, hwidth, ← hx, ← Text.width_append, ← List.append_assoc,
      Text.before_append, Text.before_append, Text.endsLine_append (hs.textAll_ne_nil hne hkinds)]
  rw [Blender.takeOver, h.mark_eq]
  exact h.push rfl (fun _ => rfl) rfl (congrArg (Context.mk _) hline.symm) rfl rfl

/-- A scanned token is one for the same leaf on both sides. -/
theorem scanNext {ls : List Leaf} (hat : b'.cursor.At symbols text set reuse ls) :
    b.scanNext.Matches
      ⟨b'.front, b'.slots ++ [⟨.token b'.cursor.scanNext.1, b'.cursor.offset, .scanned, b'.cursor.scanNext.2⟩]⟩ := by
  obtain ⟨x, htext, hx⟩ := hat.exists_text_eq
  have hrest : b.text.after b'.cursor.offset = b'.cursor.rest := by
    rw [h.text_eq hfilled, htext, ← hx, Text.after_append]
  have hscan : scan b.mark.context (b.text.after b.mark.offset) = scan b'.cursor.context b'.cursor.rest := by
    rw [h.mark_eq]
    exact congrArg (scan b'.cursor.context) hrest
  rw [Blender.scanNext, hscan]
  refine (h.push (c := b'.cursor.scanNext.2) ?_ (absurd rfl) ?_ rfl ?_ rfl).withPool _
  · simp [Green.shape, Cursor.scanNext, Pool.leaf_token]
  · simp [Green.width, Cursor.scanNext, Pool.leaf_token]
  · rw [h.mark_eq]
    rfl

/-- The next token is the same old one on both sides, or scanned on both. -/
theorem fill (hend : b'.atEnd = false) : b.fill.Matches b'.fill := by
  have hat : b'.cursor.At symbols text set reuse (Buffer.leavesOf b'.slots) := b'.cursor_eq ▸ hfilled.cursor_at hend
  have hreuse : b.reuse = b'.cursor.reuse := h.reuse_eq hfilled b'.slots.length
  -- marks and cursors agree on the place, so both look up the same old token
  cases heq : b'.cursor.reuse.bind fun r => (r.token? b'.cursor.offset b'.cursor.context).map fun p => (r, p) with
  | none =>
    have hfill : b.fill = b.scanNext := by simp only [Blender.fill, h.mark_eq, hreuse, Cursor.mark, heq]
    have hnext : b'.cursor.next = (b'.cursor.scanNext.1, .scanned, b'.cursor.scanNext.2) := by rw [Cursor.next, heq]
    rw [hfill, Buffer.fill, hnext]
    exact h.scanNext hfilled hat
  | some p =>
    obtain ⟨r, oldStart, t⟩ := p
    have hfill : b.fill = b.takeOver r (.token t) oldStart .reusedToken := by
      simp only [Blender.fill, h.mark_eq, hreuse, Cursor.mark, heq]
    have hnext : b'.cursor.next = (t, .reusedToken, b'.cursor.behind r (.token t) oldStart .reusedToken) := by
      rw [Cursor.next, heq]
    obtain ⟨hleaf, hpasses⟩ := hat.next
    rw [hnext] at hleaf hpasses
    have hkind : t.leaf.tokenKind ≠ .eof := by
      obtain ⟨r', -, htoken⟩ := Option.bind_eq_some_iff.1 heq
      obtain ⟨p, hp, hpair⟩ := Option.map_eq_some_iff.1 htoken
      obtain ⟨rfl, rfl⟩ := Prod.mk.inj hpair
      exact (Reuse.token?_eq_some hp).2.2.1
    rw [hfill, Buffer.fill, hnext]
    exact h.takeOver hfilled hat hpasses (List.cons_ne_nil _ _) (by simpa [← hleaf] using hkind)

theorem fillMore (count : Nat) : (fillMore count b).Matches (Buffer.fillMore count b') := by
  induction count generalizing b b' with
  | zero => exact h
  | succ count ih =>
    rw [Blender.fillMore, Buffer.fillMore, h.atEnd_eq]
    split
    · exact h
    · next hend =>
      have hend : b'.atEnd = false := by simpa using hend
      exact ih (h.fill hfilled hend) (Buffer.filled_fill hfilled hend).1

theorem fillTo (index : Nat) : (b.fillTo index).Matches (b'.fillTo index) := by
  rw [Blender.fillTo, Buffer.fillTo, h.length_eq]
  exact h.fillMore hfilled _

/-- Slots are dropped on both sides, and the table is cut back. -/
theorem truncate (index : Nat) : (b.truncate index).Matches (b'.truncate index) := by
  rw [Blender.truncate]
  split
  · next hlt =>
    refine ⟨h.front, List.forall₂_take index h.slots, ?_, fun k => ?_⟩
    · rw [Buffer.directives, b'.cursor_truncate]
      exact h.table_truncate_eq hfilled hlt.le
    · show (Buffer.cursorBehind b'.front ((b'.slots.take index).take k)).counts =
        (((b'.slots.take index).take k).map Slot.source).foldl ReuseCounts.add {}
      rw [List.take_take]
      exact h.counts _
  · next hge =>
    have hall : b'.truncate index = b' := by
      rw [Buffer.truncate, List.take_of_length_le (by rw [← h.length_eq]; omega)]
    rwa [hall]

/-- The same old node comes into the slot on both sides, or none does. -/
theorem reuse? (index : Nat) (kinds : NodeKind → Bool) :
    Option.Rel (fun p p' => p.1 = p'.1 ∧ p.2.Matches p'.2) (b.reuse? index kinds) (b'.reuse? index kinds) := by
  rcases Nat.lt_or_ge b.slots.length index with hlt | hle
  · rw [Blender.reuse?, Buffer.reuse?, if_pos hlt, if_pos (h.length_eq ▸ hlt)]
    exact .none
  have hmark := h.markBefore_eq hle
  have hreuse := h.reuse_eq hfilled index
  have hbuffer : b'.reuse? index kinds = ((b'.cursorAfter index).reuseNode? kinds).map fun p =>
      (p.1, { b' with
        slots := b'.slots.take index ++ [⟨p.1, (b'.cursorAfter index).offset, .reusedNode, p.2⟩] }) := by
    rw [Buffer.reuse?, if_neg (by rw [← h.length_eq]; omega)]
  have hif : ¬ b.slots.length < index := by omega
  -- what the marks say in front of the index is all that the look-up of a node needs
  cases heq : (b'.cursorAfter index).reuse.bind fun r =>
    (r.node? kinds (b'.cursorAfter index).offset (b'.cursorAfter index).context).map fun p => (r, p) with
  | none =>
    have hnone : b.reuse? index kinds = none := by
      simp only [Blender.reuse?, if_neg hif, hmark, hreuse, Cursor.mark, heq]
    have hnode : (b'.cursorAfter index).reuseNode? kinds = none := by rw [Cursor.reuseNode?, heq]
    rw [hnone, hbuffer, hnode]
    exact .none
  | some p =>
    obtain ⟨r, oldStart, g⟩ := p
    have hsome : b.reuse? index kinds = some (g, (b.truncate index).takeOver r g oldStart .reusedNode) := by
      simp only [Blender.reuse?, if_neg hif, hmark, hreuse, Cursor.mark, heq]
    have hnode : (b'.cursorAfter index).reuseNode? kinds =
        some (g, (b'.cursorAfter index).behind r g oldStart .reusedNode) := by
      rw [Cursor.reuseNode?, heq]
    have hat : (b'.cursorAfter index).At symbols text set reuse _ := (hfilled.take index).at_of_reuseNode? hnode
    obtain ⟨-, -, ⟨-, -, hne, -⟩, hkinds, hpasses, -⟩ := hat.reuseNode? hnode
    rw [hsome, hbuffer, hnode]
    refine .some ⟨rfl, ?_⟩
    -- the node comes behind the slots that are left
    rw [← b'.cursor_truncate] at hat hpasses ⊢
    exact (h.truncate hfilled index).takeOver (Buffer.filled_truncate hfilled index) hat hpasses hne hkinds

/-- Both answer with the same old node, or with none. -/
theorem tryReuse (index : Nat) (kinds : NodeKind → Bool) :
    (b.tryReuse index kinds).1 = (b'.tryReuse index kinds).1 ∧
      (b.tryReuse index kinds).2.Matches (b'.tryReuse index kinds).2 := by
  obtain ⟨c, c', hc, hc', hmatches, hfilled'⟩ : ∃ c c', (if index = 0 then b else b.fillTo (index - 1)) = c ∧
      (if index = 0 then b' else b'.fillTo (index - 1)) = c' ∧ c.Matches c' ∧
      Buffer.Filled symbols text set reuse c'.front c'.slots := by
    refine ⟨_, _, rfl, rfl, ?_⟩
    split
    · exact ⟨h, hfilled⟩
    · obtain ⟨hfill, hfront⟩ := Buffer.filled_fillTo hfilled (index - 1)
      exact ⟨h.fillTo hfilled _, hfront ▸ hfill⟩
  rw [Blender.tryReuse, Buffer.tryReuse, hc, hc']
  have hreuse := hmatches.reuse? hfilled' index kinds
  generalize c.reuse? index kinds = p, c'.reuse? index kinds = p' at hreuse ⊢
  cases hreuse with
  | none => exact ⟨rfl, hmatches⟩
  | some hp => exact ⟨congrArg some hp.1, hp.2⟩

end Steps

end Matches

/-! ## Requests -/

/-- The blender after a request. -/
def serve (b : Blender) : Buffer.Request → Blender
  | .fill index => b.fillTo index
  | .reuse index kinds => (b.tryReuse index kinds).2
  | .drop index => b.truncate index

theorem Matches.serve (h : b.Matches b') (hfilled : Buffer.Filled symbols text set reuse b'.front b'.slots)
    (q : Buffer.Request) : (b.serve q).Matches (b'.serve q) := by
  cases q with
  | fill index => exact h.fillTo hfilled index
  | reuse index kinds => exact (h.tryReuse hfilled index kinds).2
  | drop index => exact h.truncate hfilled index

theorem matches_atStart (text : Text) (context : Context) (pool : Pool) :
    (atStart text context pool).Matches ⟨.atStart text context pool, []⟩ :=
  ⟨⟨pool, rfl⟩, .nil, rfl, fun _ => by simp [Buffer.cursorAfter, Cursor.atStart]⟩

theorem matches_afterEdit (old : OldTree) (changes : ChangeSet) (text : Text) (context : Context) (pool : Pool) :
    (afterEdit old changes text context pool).Matches ⟨.afterEdit old changes text context pool, []⟩ :=
  ⟨⟨pool, rfl⟩, .nil, rfl, fun _ => by simp [Buffer.cursorAfter, Cursor.afterEdit, Cursor.atStart]⟩

variable {front : Cursor}

/-- After any requests a blender has the slots of a buffer after the same ones. -/
theorem matches_of_requests (hfront : front.At symbols text set reuse []) (h : b.Matches ⟨front, []⟩)
    (requests : List Buffer.Request) :
    (requests.foldl serve b).Matches (requests.foldl Buffer.serve ⟨front, []⟩) := by
  induction requests using List.reverseRecOn with
  | nil => exact h
  | append_singleton requests q ih =>
    rw [List.foldl_append, List.foldl_append]
    exact ih.serve (Buffer.filled_foldl_serve hfront requests) q

/-- **Blenders answer as buffers do.** After any requests, whatever slot is asked for next holds an element like
that of the buffer, the same old node comes into its place, and as many elements came from the old tree. -/
theorem answers_of_requests (hfront : front.At symbols text set reuse []) (h : b.Matches ⟨front, []⟩)
    (requests : List Buffer.Request) (index : Nat) :
    Option.Rel BlendedSlot.Matches (((requests.foldl serve b).fillTo index).slot? index)
        (((requests.foldl Buffer.serve ⟨front, []⟩).fillTo index).slot? index) ∧
      (∀ kinds, ((requests.foldl serve b).tryReuse index kinds).1 =
        ((requests.foldl Buffer.serve ⟨front, []⟩).tryReuse index kinds).1) ∧
      (requests.foldl serve b).counts = (requests.foldl Buffer.serve ⟨front, []⟩).counts := by
  have hfilled := Buffer.filled_foldl_serve hfront requests
  have hmatches := matches_of_requests hfront h requests
  refine ⟨(hmatches.fillTo hfilled index).slot? index, fun kinds => ?_, hmatches.counts_eq⟩
  exact (hmatches.tryReuse hfilled index kinds).1

/-- The leaves of all slots. -/
def leaves (b : Blender) : List Leaf := Green.leavesAll (b.slots.map BlendedSlot.element)

/-- **Blenders mirror a scan.** After any requests the leaves of a blender are the first tokens of the text, and
its table has the directives that a buffer finds that scans as many. -/
theorem mirrors_scan (hfront : front.At symbols text set reuse []) (h : b.Matches ⟨front, []⟩)
    (requests : List Buffer.Request) :
    (requests.foldl serve b).leaves <+: tokenize symbols text ∧ ∀ pool, (requests.foldl serve b).table =
      (Buffer.scanOnly symbols text pool (requests.foldl serve b).leaves.length).directives := by
  have hmirrors := (Buffer.filled_foldl_serve hfront requests).mirrorsScan
  have hmatches := matches_of_requests hfront h requests
  have hleaves : (requests.foldl serve b).leaves =
      Buffer.leavesOf (requests.foldl Buffer.serve ⟨front, []⟩).slots := by
    refine Green.leavesAll_eq_of_shapes ?_
    rw [List.map_map, List.map_map]
    exact hmatches.map_eq fun _ _ hs => hs.shape
  rw [hleaves]
  exact ⟨hmirrors.leaves, fun pool => hmatches.table.trans (hmirrors.directives pool).1⟩

end Blender

end IncrementalSyntax

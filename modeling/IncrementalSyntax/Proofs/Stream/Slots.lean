import IncrementalSyntax.Proofs.Grammar.Root
import IncrementalSyntax.Proofs.Stream.Buffer
import IncrementalSyntax.Proofs.Tree.Sharing

/-!
# Reading from slots

The parser reads from a buffer and keeps the index of the slot at the front. Slots are filled when they are asked for,
and where the parser looks ahead they are filled before their time. When an old node is used again the slots from there
on are dropped, filled or not. Since every slot keeps the cursor behind it, the buffer is at any time what a cursor at
the front would fill next. So the slots feed what this cursor feeds, and how far they have been filled shows nowhere in
the result of a parse.

## Main definitions

* `Slots`: a buffer with an index, as a source of tokens
* `Cursor.Fills`, `Buffer.FilledFrom`: slots that a cursor fills one after the other
* `Slots.cursor`: the cursor in front of the slot at the front
* `Slots.supply`, `Slots.InOrder`: slots feed what their cursor feeds
* `Slots.simulation`: slots follow their cursor, whatever is asked for
* `Slots.parseOf`, `Slots.Agrees`: what a parse of slots and a parse of their cursor have in common

## Main results

* `Slots.Consistent.next`, `Slots.Consistent.reuse`: slots and their cursor move on together
* `Slots.InOrder.slot?_eq`: the token at the front is that of the slot with the index, in the buffer filled up to there
* `Slots.Consistent.parse_agrees`: the parse is that of the cursor, however the slots are filled
-/

namespace IncrementalSyntax

/-! ## Filled slots -/

/-- The slot that is filled with the next token. -/
def Cursor.slot (c : Cursor) : Slot := ⟨.token c.next.1, c.offset, c.next.2.1, c.next.2.2⟩

/-- **Fills.** The slots are those that are filled one after the other at a cursor. The one that ends the text is the
last. -/
def Cursor.Fills : Cursor → List Slot → Prop
  | _, [] => True
  | c, s :: slots => s = c.slot ∧ (s.isEnd = true → slots = []) ∧ s.behind.Fills slots

theorem Cursor.isEnd_slot (c : Cursor) : c.slot.isEnd = decide (c.next.1.leaf.tokenKind = .eof) := by
  simp [slot, Slot.isEnd, Green.tokenKind?]

namespace Buffer

theorem cursorBehind_append' (front : Cursor) (as bs : List Slot) :
    cursorBehind front (as ++ bs) = cursorBehind (cursorBehind front as) bs := by
  rcases List.eq_nil_or_concat bs with rfl | ⟨bs, b, rfl⟩
  · rw [List.append_nil]
    rfl
  · rw [List.concat_eq_append, ← List.append_assoc, cursorBehind_append, cursorBehind_append]

end Buffer

/-- One more slot can be filled behind slots that do not end the text. -/
theorem Cursor.Fills.concat {c : Cursor} {slots : List Slot} (h : c.Fills slots)
    (hend : slots.getLast?.any Slot.isEnd = false) : c.Fills (slots ++ [(Buffer.cursorBehind c slots).slot]) := by
  induction slots generalizing c with
  | nil => exact ⟨rfl, fun _ => rfl, trivial⟩
  | cons s slots ih =>
    obtain ⟨hs, hlast, hrest⟩ := h
    have hbehind : Buffer.cursorBehind c (s :: slots) = Buffer.cursorBehind s.behind slots :=
      Buffer.cursorBehind_append' c [s] slots
    rw [hbehind]
    refine ⟨hs, fun hs' => ?_, ih hrest ?_⟩
    · -- a slot that ends the text would be the last
      obtain rfl := hlast hs'
      simp [hs'] at hend
    · cases slots with
      | nil => rfl
      | cons s' slots => rwa [List.getLast?_cons_cons] at hend

namespace Buffer

variable {b : Buffer} {i : Nat}

/-- **Filled from an index on.** The slots from there on are filled with tokens, as the cursor there gives them. -/
structure FilledFrom (b : Buffer) (i : Nat) : Prop where
  le : i ≤ b.slots.length
  fills : (b.cursorAfter i).Fills (b.slots.drop i)

theorem cursorAfter_append {slots more : List Slot} {front : Cursor} (h : i ≤ slots.length) :
    cursorAfter ⟨front, slots ++ more⟩ i = cursorAfter ⟨front, slots⟩ i := by
  rw [cursorAfter_eq, cursorAfter_eq]
  simp only [List.take_append_of_le_length h]

/-- The cursor behind all slots, by the slots from an index on. -/
theorem cursor_eq_behind (b : Buffer) (i : Nat) : b.cursor = cursorBehind (b.cursorAfter i) (b.slots.drop i) := by
  rw [cursorAfter_eq, ← cursorBehind_append', List.take_append_drop, cursor_eq]

theorem fill_slots (b : Buffer) : b.fill.slots = b.slots ++ [b.cursor.slot] := rfl

/-- Filling keeps the slots that are there, and the cursors between them. -/
theorem cursorAfter_fill (h : i ≤ b.slots.length) : b.fill.cursorAfter i = b.cursorAfter i := cursorAfter_append h

theorem FilledFrom.fill (h : b.FilledFrom i) (hend : (b.slots.drop i).getLast?.any Slot.isEnd = false) :
    b.fill.FilledFrom i where
  le := by simpa [fill_slots] using h.le.trans (Nat.le_succ _)
  fills := by
    rw [cursorAfter_fill h.le, fill_slots, List.drop_append_of_le_length h.le, b.cursor_eq_behind i]
    exact h.fills.concat hend

theorem getLast?_drop_of_atEnd (h : b.atEnd = false) : (b.slots.drop i).getLast?.any Slot.isEnd = false := by
  rw [List.getLast?_drop]
  split
  · rfl
  · exact h

theorem fillMore_of_atEnd (h : b.atEnd = true) (count : Nat) : fillMore count b = b := by
  cases count with
  | zero => rfl
  | succ count => rw [fillMore, if_pos h]

/-- Filling adds slots at the end. -/
theorem exists_fillMore_eq (count : Nat) (b : Buffer) :
    ∃ more, fillMore count b = { b with slots := b.slots ++ more } := by
  induction count generalizing b with
  | zero => exact ⟨[], by rw [fillMore, List.append_nil]⟩
  | succ count ih =>
    rw [fillMore]
    split
    · exact ⟨[], by rw [List.append_nil]⟩
    · obtain ⟨more, hmore⟩ := ih b.fill
      exact ⟨b.cursor.slot :: more, by rw [hmore, fill_slots, List.append_assoc]; rfl⟩

/-- Filling more slots changes nothing in front of an index. -/
theorem FilledFrom.fillMore (h : b.FilledFrom i) (count : Nat) :
    (fillMore count b).FilledFrom i ∧ (fillMore count b).cursorAfter i = b.cursorAfter i ∧
      (fillMore count b).slots.take i = b.slots.take i := by
  induction count generalizing b with
  | zero => exact ⟨h, rfl, rfl⟩
  | succ count ih =>
    rw [Buffer.fillMore]
    split
    · exact ⟨h, rfl, rfl⟩
    · next hend =>
      obtain ⟨hfilled, hcursor, htake⟩ := ih (h.fill (getLast?_drop_of_atEnd (by simpa using hend)))
      refine ⟨hfilled, hcursor.trans (cursorAfter_fill h.le), htake.trans ?_⟩
      rw [fill_slots, List.take_append_of_le_length h.le]

/-- Behind the slot at an index. -/
theorem FilledFrom.step {s : Slot} {rest : List Slot} (h : b.FilledFrom i) (hdrop : b.slots.drop i = s :: rest) :
    b.FilledFrom (i + 1) ∧ b.cursorAfter (i + 1) = s.behind ∧ b.slots.take (i + 1) = b.slots.take i ++ [s] := by
  have hi : i < b.slots.length := by
    by_contra hle
    rw [List.drop_eq_nil_of_le (Nat.le_of_not_lt hle)] at hdrop
    cases hdrop
  obtain ⟨hs, hrest⟩ := List.cons.inj ((List.drop_eq_getElem_cons hi).symm.trans hdrop)
  have htake : b.slots.take (i + 1) = b.slots.take i ++ [s] := by
    rw [List.take_succ_eq_append_getElem hi, hs]
  have hcursor : b.cursorAfter (i + 1) = s.behind := by
    rw [cursorAfter_eq, htake, cursorBehind_append]
  refine ⟨⟨hi, ?_⟩, hcursor, htake⟩
  have hfills := h.fills
  rw [hdrop] at hfills
  rw [hcursor, hrest]
  exact hfills.2.2

/-- An old node in place of the slots from an index on, if the cursor there offers one. -/
theorem tryReuse_eq (h : i ≤ b.slots.length) (kinds : NodeKind → Bool) :
    b.tryReuse i kinds = match (b.cursorAfter i).reuseNode? kinds with
      | some (g, c) => (some g, { b with
          slots := b.slots.take i ++ [⟨g, (b.cursorAfter i).offset, .reusedNode, c⟩] })
      | none => (none, b) := by
  have hfilled : (if i = 0 then b else b.fillTo (i - 1)) = b := by
    split
    · rfl
    · rw [fillTo, show i - 1 + 1 - b.slots.length = 0 by omega, Buffer.fillMore]
  rw [tryReuse, hfilled, reuse?, if_neg (Nat.not_lt.2 h)]
  cases (b.cursorAfter i).reuseNode? kinds <;> rfl

/-- What takes the place of slots was offered by a cursor. -/
theorem exists_reuseNode? {kinds : NodeKind → Bool} {g : Green} (h : (b.tryReuse i kinds).1 = some g) :
    ∃ c c' : Cursor, c.reuseNode? kinds = some (g, c') := by
  rw [tryReuse] at h
  revert h
  generalize (if i = 0 then b else b.fillTo (i - 1)) = filled
  intro h
  unfold reuse? at h
  split at h
  · next heq =>
    split at heq
    · cases heq
    · obtain ⟨found, hfound, hpair⟩ := Option.map_eq_some_iff.1 heq
      obtain rfl : found.1 = g := (Prod.mk.inj hpair).1.trans (Option.some.inj h)
      exact ⟨_, found.2, hfound⟩
  · cases h

end Buffer

/-! ## Slots as a source -/

/-- **Slots.** A buffer and the index of the slot at the front. When the parser comes to an index, `ahead` says how many
more slots are filled there than are asked for, if the text is long enough. Identities of nodes are counted apart. -/
structure Slots where
  buffer : Buffer
  position : Nat := 0
  ahead : Nat → Nat := fun _ => 0
  nextId : Id := 0

namespace Slots

variable {s : Slots}

/-- The cursor in front of the slot at the front. -/
def cursor (s : Slots) : Cursor := s.buffer.cursorAfter s.position

/-- The buffer with the slot at the front filled. -/
def filled (s : Slots) : Buffer := if s.position < s.buffer.slots.length then s.buffer else s.buffer.fill

/-- The token at the front. -/
def front (s : Slots) : Token :=
  ((s.filled.slots[s.position]?).bind fun slot => slot.element.firstToken?).getD s.cursor.next.1

/-- One slot further, with another buffer. -/
def advance (s : Slots) (b : Buffer) : Slots :=
  { s with buffer := Buffer.fillMore (s.ahead (s.position + 1)) b, position := s.position + 1 }

instance : TokenSource Slots where
  next s := (s.front, s.advance s.filled)
  reuse? kinds s := match s.buffer.tryReuse s.position kinds with
    | (some g, b) => some (g, s.advance b)
    | (none, _) => none
  fresh s := (s.nextId, { s with nextId := s.nextId + 1 })
  remaining s := s.cursor.rest.length

theorem next_apply (s : Slots) : TokenSource.next s = (s.front, s.advance s.filled) := rfl

/-- **Consistent.** From the front on the slots are as their cursor fills them. -/
def Consistent (s : Slots) : Prop := s.buffer.FilledFrom s.position

/-- At the front stands the slot that the cursor fills there, whether it has been filled before or not. -/
theorem Consistent.filled (h : s.Consistent) :
    s.filled.FilledFrom s.position ∧ s.filled.cursorAfter s.position = s.cursor ∧
      s.filled.slots.take s.position = s.buffer.slots.take s.position ∧
      ∃ rest, s.filled.slots.drop s.position = s.cursor.slot :: rest := by
  rw [Slots.filled]
  split
  · next hlt =>
    refine ⟨h, rfl, rfl, ?_⟩
    have hfills := h.fills
    rw [List.drop_eq_getElem_cons hlt] at hfills ⊢
    exact ⟨_, by rw [hfills.1]; rfl⟩
  · next hge =>
    have hlen : s.buffer.slots.length = s.position := Nat.le_antisymm (Nat.le_of_not_lt hge) h.le
    have hdrop : s.buffer.slots.drop s.position = [] := List.drop_eq_nil_of_le hlen.le
    refine ⟨h.fill (by simp [hdrop]), Buffer.cursorAfter_fill h.le, ?_, [], ?_⟩
    · rw [Buffer.fill_slots, List.take_append_of_le_length h.le]
    · rw [Buffer.fill_slots, List.drop_append_of_le_length h.le, hdrop, s.buffer.cursor_eq_behind s.position, hdrop]
      rfl

theorem Consistent.advance {b : Buffer} (h : b.FilledFrom (s.position + 1)) :
    (s.advance b).Consistent ∧ (s.advance b).cursor = b.cursorAfter (s.position + 1) ∧
      (s.advance b).buffer.slots.take (s.advance b).position = b.slots.take (s.position + 1) := h.fillMore _

theorem Consistent.front_eq (h : s.Consistent) : s.front = s.cursor.next.1 := by
  obtain ⟨-, -, -, rest, hdrop⟩ := h.filled
  have hget : s.filled.slots[s.position]? = some s.cursor.slot := by
    rw [← List.head?_drop, hdrop]
    rfl
  rw [front, hget]
  rfl

/-- **Moving on.** The token at the front is the next one of the cursor, and behind it both stand at the same place. -/
theorem Consistent.next (h : s.Consistent) :
    (TokenSource.next s).1 = (TokenSource.next s.cursor).1 ∧
      (TokenSource.next s).2.cursor = (TokenSource.next s.cursor).2 ∧ (TokenSource.next s).2.Consistent ∧
      (TokenSource.next s).2.buffer.slots.take (TokenSource.next s).2.position =
        s.buffer.slots.take s.position ++ [s.cursor.slot] := by
  obtain ⟨hfilled, -, htake, rest, hdrop⟩ := h.filled
  obtain ⟨hstep, hcursor, htake'⟩ := hfilled.step hdrop
  obtain ⟨hconsistent, hcursor', htake''⟩ := Consistent.advance hstep
  exact ⟨h.front_eq, hcursor'.trans hcursor, hconsistent, htake''.trans (htake'.trans (by rw [htake]))⟩

/-- **An old node** is offered where the cursor offers one. It takes the place of all slots from the front on. -/
theorem Consistent.reuse (h : s.Consistent) (kinds : NodeKind → Bool) :
    match TokenSource.reuse? kinds s.cursor with
    | none => TokenSource.reuse? kinds s = none
    | some (g, c) => ∃ s' slot, TokenSource.reuse? kinds s = some (g, s') ∧ s'.Consistent ∧ s'.cursor = c ∧
        s'.buffer.slots.take s'.position = s.buffer.slots.take s.position ++ [slot] ∧ slot.element = g := by
  have hreuse : (TokenSource.reuse? kinds s : Option (Green × Slots)) =
      match s.buffer.tryReuse s.position kinds with
      | (some g, b) => some (g, s.advance b)
      | (none, _) => none := rfl
  rw [hreuse, Buffer.tryReuse_eq h.le]
  show match s.cursor.reuseNode? kinds with
    | none => _
    | some (g, c) => _
  rw [cursor]
  cases hnode : (s.buffer.cursorAfter s.position).reuseNode? kinds with
  | none => rfl
  | some found =>
    obtain ⟨g, c⟩ := found
    let slot : Slot := ⟨g, (s.buffer.cursorAfter s.position).offset, .reusedNode, c⟩
    let b : Buffer := { s.buffer with slots := s.buffer.slots.take s.position ++ [slot] }
    have hlen : b.slots.length = s.position + 1 := by simp [b, h.le]
    have hall : b.slots.take (s.position + 1) = b.slots := List.take_of_length_le hlen.le
    have hcursor : b.cursorAfter (s.position + 1) = c := by
      rw [Buffer.cursorAfter_eq, hall, Buffer.cursorBehind_append]
    have hfilled : b.FilledFrom (s.position + 1) :=
      ⟨hlen.ge, by rw [List.drop_eq_nil_of_le hlen.le]; trivial⟩
    obtain ⟨hconsistent, hcursor', htake⟩ := Consistent.advance hfilled
    exact ⟨s.advance b, slot, rfl, hconsistent, hcursor'.trans hcursor, htake.trans hall, rfl⟩

/-- What is offered in place of slots is offered by their cursor. -/
theorem Consistent.of_reuse (h : s.Consistent) {kinds : NodeKind → Bool} {g : Green} {s' : Slots}
    (hreuse : TokenSource.reuse? kinds s = some (g, s')) :
    TokenSource.reuse? kinds s.cursor = some (g, s'.cursor) ∧ s'.Consistent ∧ ∃ slot,
      s'.buffer.slots.take s'.position = s.buffer.slots.take s.position ++ [slot] ∧ slot.element = g := by
  have hoffer := h.reuse kinds
  cases hcursor : TokenSource.reuse? kinds s.cursor with
  | none =>
    rw [hcursor] at hoffer
    rw [hoffer] at hreuse
    cases hreuse
  | some found =>
    rw [hcursor] at hoffer
    obtain ⟨s'', slot, hs'', hconsistent, hbehind, hslot⟩ := hoffer
    obtain ⟨rfl, rfl⟩ : found.1 = g ∧ s'' = s' := by simpa using hs''.symm.trans hreuse
    exact ⟨by rw [hbehind], hconsistent, slot, hslot⟩

variable {version : LanguageVersion} (S : Supply version Cursor)

/-- **In order.** The slots are consistent, their cursor is in a good state, and no slot in front ends the text. -/
structure InOrder (s : Slots) : Prop where
  consistent : s.Consistent
  ok : S.Ok s.cursor
  inside : ∀ slot ∈ s.buffer.slots.take s.position, slot.isEnd = false

/-- **The supply of slots.** They feed what their cursor feeds. -/
def supply : Supply version Slots where
  Ok := InOrder S
  upcoming s := S.upcoming s.cursor
  Careful := S.Careful
  present h := h.consistent.next.1 ▸ S.present h.ok
  next_of_ne := by
    intro s h hk
    obtain ⟨hleaf, hcursor, hconsistent, htake⟩ := h.consistent.next
    rw [hleaf] at hk ⊢
    obtain ⟨hok, hup⟩ := S.next_of_ne h.ok hk
    refine ⟨⟨hconsistent, hcursor ▸ hok, fun slot hslot => ?_⟩, hcursor ▸ hup⟩
    rw [htake, List.mem_append, List.mem_singleton] at hslot
    rcases hslot with hslot | rfl
    · exact h.inside slot hslot
    · exact s.cursor.isEnd_slot.trans (decide_eq_false hk)
  next_of_eq h hk := by
    rw [h.consistent.next.1] at hk ⊢
    exact S.next_of_eq h.ok hk
  fresh h := ⟨⟨h.consistent, h.ok, h.inside⟩, rfl⟩
  remaining h := S.remaining h.ok
  reuse := by
    intro s kinds g s' h hreuse
    obtain ⟨hoffer, hconsistent, slot, htake, rfl⟩ := h.consistent.of_reuse hreuse
    obtain ⟨hok, hrest⟩ := S.reuse h.ok hoffer
    refine ⟨⟨hconsistent, hok, fun slot' hslot => ?_⟩, hrest⟩
    rw [htake, List.mem_append, List.mem_singleton] at hslot
    rcases hslot with hslot | rfl
    · exact h.inside slot' hslot
    · -- the slot holds a node
      have hkind := S.offered hoffer
      cases hg : slot'.element with
      | token t => simp [hg, Green.nodeKind?] at hkind
      | node hd cs => simp [Slot.isEnd, hg, Green.tokenKind?]
  offered := by
    intro s kinds g s' hreuse
    have hsome : (s.buffer.tryReuse s.position kinds).1 = some g := by
      change (match s.buffer.tryReuse s.position kinds with
        | (some g, b) => some (g, s.advance b)
        | (none, _) => none) = some (g, s') at hreuse
      split at hreuse
      · next heq => rw [heq, (Prod.mk.inj (Option.some.inj hreuse)).1]
      · cases hreuse
    obtain ⟨c, c', hnode⟩ := Buffer.exists_reuseNode? hsome
    have hoffer : TokenSource.reuse? kinds c = some (g, c') := hnode
    exact S.offered hoffer
  careful := by
    intro hcareful s kinds g s' h hreuse hunit
    exact S.careful hcareful h.ok (h.consistent.of_reuse hreuse).1 hunit

variable {S}

/-- Before any slot is filled all is in order. -/
theorem InOrder.start {c : Cursor} (hok : S.Ok c) (ahead : Nat → Nat) :
    InOrder S { buffer := ⟨c, []⟩, ahead := ahead } := ⟨⟨le_rfl, trivial⟩, hok, nofun⟩

/-- Asking for the slot with the index fills the one at the front, if it has not been filled before. -/
theorem InOrder.fillTo_eq (h : InOrder S s) : s.buffer.fillTo s.position = s.filled := by
  rw [Buffer.fillTo, filled]
  split
  · next hlt => rw [show s.position + 1 - s.buffer.slots.length = 0 by omega, Buffer.fillMore]
  · next hge =>
    have hlen : s.buffer.slots.length = s.position := Nat.le_antisymm (Nat.le_of_not_lt hge) h.consistent.le
    have hinside : s.buffer.atEnd = false := by
      rw [Buffer.atEnd, Option.any_eq_false]
      intro slot hslot
      have hmem : slot ∈ s.buffer.slots.take s.position := by
        rw [← hlen, List.take_length]
        exact List.mem_of_getLast? hslot
      simp [h.inside slot hmem]
    rw [show s.position + 1 - s.buffer.slots.length = 1 by omega, Buffer.fillMore, hinside]
    rfl

/-- **The slot at the front** holds the token there, and it is the one that is got for the index. -/
theorem InOrder.slot?_eq (h : InOrder S s) : ∃ slot, (s.buffer.fillTo s.position).slot? s.position = some slot ∧
    slot.element = .token (TokenSource.next s).1 := by
  obtain ⟨-, -, -, rest, hdrop⟩ := h.consistent.filled
  have hget : s.filled.slots[s.position]? = some s.cursor.slot := by
    rw [← List.head?_drop, hdrop]
    rfl
  refine ⟨s.cursor.slot, ?_, congrArg Green.token h.consistent.next.1.symm⟩
  have hlt : s.position < s.filled.slots.length := (List.getElem?_eq_some_iff.1 hget).1
  rw [h.fillTo_eq, Buffer.slot?, Nat.min_eq_left (Nat.le_sub_one_of_lt hlt), hget]

/-! ## Parses of slots -/

/-- Slots and a cursor that stands where theirs does. -/
def simulation : Simulation Slots Cursor where
  Rel s c := s.Consistent ∧ ∃ pool, c = s.cursor.repool pool
  next := by
    rintro s _ ⟨h, pool, rfl⟩
    obtain ⟨hleaf, hcursor, hconsistent, -⟩ := h.next
    obtain ⟨hsame, pool', hbehind⟩ := Cursor.next_repool s.cursor pool
    exact ⟨(congrArg Token.leaf hleaf).trans hsame.symm, hconsistent, pool', hbehind.trans (by rw [hcursor]; rfl)⟩
  reuse := by
    rintro s _ kinds ⟨h, pool, rfl⟩
    have hoffer := h.reuse kinds
    change match s.cursor.reuseNode? kinds with
      | none => _
      | some (g, c) => _ at hoffer
    show Option.Rel _ _ ((s.cursor.repool pool).reuseNode? kinds)
    rw [Cursor.reuseNode?_repool]
    cases hnode : s.cursor.reuseNode? kinds with
    | none =>
      rw [hnode] at hoffer
      rw [hoffer]
      exact .none
    | some found =>
      rw [hnode] at hoffer
      obtain ⟨s', -, hs', hconsistent, hbehind, -⟩ := hoffer
      rw [hs']
      exact .some ⟨rfl, hconsistent, pool, by rw [hbehind]⟩
  fresh := by
    rintro s _ ⟨h, pool, rfl⟩
    exact ⟨h, pool.fresh.2, rfl⟩
  remaining := by
    rintro s _ ⟨-, pool, rfl⟩
    rfl

/-- Behind the token that ends the text there are no slots, however many were to be filled. -/
theorem Consistent.cursor_of_eof (h : s.Consistent) (heof : (TokenSource.next s).1.leaf.tokenKind = .eof) :
    (TokenSource.next s).2.buffer.cursor = (TokenSource.next s).2.cursor := by
  obtain ⟨hfilled, -, -, rest, hdrop⟩ := h.filled
  obtain ⟨-, hcursor, -⟩ := hfilled.step hdrop
  -- the slot at the front ends the text, so it is the last one
  have hend : s.cursor.slot.isEnd = true := by
    rw [Cursor.isEnd_slot, decide_eq_true_eq]
    rwa [h.next.1] at heof
  obtain rfl : rest = [] := by
    have hfills := hfilled.fills
    rw [hdrop] at hfills
    exact hfills.2.1 hend
  have hall : s.filled.slots = s.filled.slots.take s.position ++ [s.cursor.slot] := by
    conv_lhs => rw [← List.take_append_drop s.position s.filled.slots, hdrop]
  have hatEnd : s.filled.atEnd = true := by
    rw [Buffer.atEnd, hall, List.getLast?_append]
    simpa using hend
  have hbuffer : (TokenSource.next s).2.buffer = s.filled := Buffer.fillMore_of_atEnd hatEnd _
  rw [hbuffer, h.next.2.1, Buffer.cursor_eq, hall, Buffer.cursorBehind_append]
  rfl

/-- The parse of a text in which an action reads all that stands below the root. -/
def parseOf {σ : Type} [TokenSource σ] (inner : Parse σ Unit) (version : LanguageVersion) (entry : EntryPoint) (s : σ) :
    Parsed σ :=
  let p := (inner (.start version s)).2
  let behind := (TokenSource.next p.source).2
  ⟨.ofChildren (TokenSource.fresh behind).1 (.node (Parse.rootKind entry))
    (p.out ++ [.token (TokenSource.next p.source).1]), p.status, (TokenSource.fresh behind).2⟩

theorem parseOf_rootInner {σ : Type} [TokenSource σ] (version : LanguageVersion) (entry : EntryPoint) (s : σ) :
    parseOf (Parse.rootInner entry) version entry s = parse version entry s := (parse_eq version entry s).symm

/-- **Agrees.** A parse of slots and a parse of a cursor give the same root but for identities, the same status, and
leave the same directives and counts behind. -/
structure Agrees (r : Parsed Slots) (r' : Parsed Cursor) : Prop where
  shape : r.root.shape = r'.root.shape
  status : r.status = r'.status
  directives : r.source.buffer.directives = r'.source.table
  counts : r.source.buffer.counts = r'.source.counts

/-- **Filling shows nowhere.** What stands below the root may be read off the slots in another way than off their
cursor: if the one action follows the other, the parses agree. -/
theorem Consistent.parse_agrees (h : s.Consistent) (hok : S.Ok s.cursor) (entry : EntryPoint)
    {inner : Parse Slots Unit} (hinner : Parse.Follows simulation inner (Parse.rootInner entry)) :
    Agrees (parseOf inner version entry s) (parse version entry s.cursor) := by
  have hsame := (hinner (.start version s) (.start version s.cursor)
    ⟨⟨h, s.cursor.pool, rfl⟩, rfl, rfl, rfl, rfl⟩).2
  obtain ⟨hconsistent, -⟩ := hsame.source
  obtain ⟨hleaf, hconsistent', pool, hcursor⟩ := simulation.next hsame.source
  -- what is left is behind the token that ends the text
  have heof : (TokenSource.next (inner (.start version s)).2.source).1.leaf.tokenKind = .eof := by
    rw [hleaf]
    exact tokenKind_next_atEnd hok entry
  have hbuffer := hconsistent.cursor_of_eof heof
  rw [← parseOf_rootInner]
  refine ⟨?_, hsame.status, ?_, ?_⟩
  · simp [parseOf, Green.ofChildren, Green.shape, hsame.shapes, hleaf]
  · show (TokenSource.next (inner (.start version s)).2.source).2.buffer.cursor.table = _
    rw [hbuffer]
    exact (congrArg Cursor.table hcursor).symm
  · show (TokenSource.next (inner (.start version s)).2.source).2.buffer.cursor.counts = _
    rw [hbuffer]
    exact (congrArg Cursor.counts hcursor).symm

end Slots

end IncrementalSyntax

import IncrementalSyntax.Stream.Cursor

/-!
# Slot buffers

A buffer holds the elements from the start of a text up to some place, one slot each. More slots are
filled on demand, an old node can take the place of a slot and all behind it, and slots can be dropped
again. Each slot keeps the cursor behind it, so nothing is left of a slot that was dropped. A `Blender` keeps
less of each slot and one directive table for all.

## Main definitions

* `Slot`, `Buffer`: the elements with the cursors between them
* `Buffer.fillTo`, `Buffer.slot?`: the slot with an index
* `Buffer.truncate`: without the slots from an index on
* `Buffer.reuse?`: an old node in the slot with an index
-/

namespace IncrementalSyntax

/-- **Slot.** An element, its offset, where it comes from, and the cursor behind it. -/
structure Slot where
  element : Green
  start : Nat
  source : ElementSource
  behind : Cursor

namespace Slot

/-- The offset right behind the element. -/
def stop (s : Slot) : Nat := s.behind.offset

/-- The context right behind the element. -/
def context (s : Slot) : Context := s.behind.context

/-- The kind of the first token; that of the end of a text if there is no token. -/
def tokenKind (s : Slot) : Kind := (s.element.firstToken?.map (·.leaf.kind)).getD (.token .eof)

/-- Whether the slot holds the token that ends the text. -/
def isEnd (s : Slot) : Bool := s.element.tokenKind? = some .eof

end Slot

/-- **Buffer.** The slots filled so far, and the cursor in front of the first one. -/
structure Buffer where
  front : Cursor
  slots : List Slot := []

namespace Buffer

/-- The cursor behind the first slots of a buffer, `count` of them. -/
def cursorAfter (b : Buffer) (count : Nat) : Cursor :=
  ((b.slots.take count).getLast?.map Slot.behind).getD b.front

/-- The cursor behind all slots. -/
def cursor (b : Buffer) : Cursor := b.cursorAfter b.slots.length

/-- The directives of all slots. -/
def directives (b : Buffer) : DirectiveTable := b.cursor.table

/-- Where the elements of all slots come from. -/
def counts (b : Buffer) : ReuseCounts := b.cursor.counts

/-- Whether the text is at its end. -/
def atEnd (b : Buffer) : Bool := b.slots.getLast?.any Slot.isEnd

/-- One more slot with the next token. -/
def fill (b : Buffer) : Buffer :=
  let c := b.cursor
  { b with slots := b.slots ++ [⟨.token c.next.1, c.offset, c.next.2.1, c.next.2.2⟩] }

/-- More slots, `count` of them if the text does not end before. -/
def fillMore : Nat → Buffer → Buffer
  | 0, b => b
  | count + 1, b => if b.atEnd then b else fillMore count b.fill

/-- The buffer with the slot of an index filled, if the text is long enough. -/
def fillTo (b : Buffer) (index : Nat) : Buffer := fillMore (index + 1 - b.slots.length) b

/-- All slots of the text. Each token but the last takes at least one character. -/
def fillAll (b : Buffer) : Buffer := fillMore (b.cursor.rest.length + 1) b

/-- The slot with an index, in a filled buffer; the last one if the text has fewer. -/
def slot? (b : Buffer) (index : Nat) : Option Slot := b.slots[min index (b.slots.length - 1)]?

/-- The buffer without the slots from an index on. -/
def truncate (b : Buffer) (index : Nat) : Buffer := { b with slots := b.slots.take index }

/-- An old node of an accepted kind in the slot with an index, in place of all slots from there on. -/
def reuse? (b : Buffer) (index : Nat) (kinds : NodeKind → Bool) : Option (Green × Buffer) :=
  if b.slots.length < index then none
  else
    (b.cursorAfter index).reuseNode? kinds |>.map fun p =>
      (p.1,
        { b with
          slots := b.slots.take index ++
            [⟨p.1, (b.cursorAfter index).offset, .reusedNode, p.2⟩] })

/-- The slots in front of an index filled, and then an old node in the slot with the index, if one of an
accepted kind may be used there. -/
def tryReuse (b : Buffer) (index : Nat) (kinds : NodeKind → Bool) : Option Green × Buffer :=
  let filled := if index = 0 then b else b.fillTo (index - 1)
  match filled.reuse? index kinds with
  | some (g, b') => (some g, b')
  | none => (none, filled)

end Buffer

end IncrementalSyntax

import IncrementalSyntax.Stream.Buffer

/-!
# Blenders

A blender is a slot buffer with one directive table for all slots. A slot does not keep the directives in
front of it but only their number, and the table is cut back to that number when slots are dropped. The
pool is never cut back.

## Main definitions

* `Blender.Mark`, `BlendedSlot`: the slots, with what is known between them
* `Blender`: the slots filled so far, and the directives of all of them
* `Blender.fillTo`, `Blender.truncate`, `Blender.tryReuse`: what can be asked for, as for a buffer
-/

namespace IncrementalSyntax

/-- **Mark.** What is known between two slots: the offset, the context, and how many directives the text has
up to there. -/
structure Blender.Mark where
  offset : Nat
  context : Context
  tableLength : Nat

/-- **Blended slot.** An element, its offset, where it comes from, and the mark behind it. -/
structure BlendedSlot where
  element : Green
  start : Nat
  source : ElementSource
  behind : Blender.Mark

/-- Whether the slot holds the token that ends the text. -/
def BlendedSlot.isEnd (s : BlendedSlot) : Bool := s.element.tokenKind? = some .eof

/-- **Blender.** A text with the context at its start, the slots filled so far, and their directives. With an
old tree at hand its elements are used again where possible. -/
structure Blender where
  text : Text
  reuse : Option Reuse
  initial : Context
  pool : Pool
  slots : List BlendedSlot := []
  table : DirectiveTable

namespace Blender

/-- A blender that only scans. -/
def atStart (text : Text) (context : Context) (pool : Pool) : Blender where
  text := text
  reuse := none
  initial := context
  pool := pool
  table := ⟨context.directives, []⟩

/-- A blender for a text that changes have made out of the text of an old tree. -/
def afterEdit (old : OldTree) (changes : ChangeSet) (text : Text) (context : Context) (pool : Pool) : Blender :=
  { atStart text context pool with reuse := some ⟨old, changes.spans⟩ }

/-- The mark in front of the slot with an index. -/
def markBefore (b : Blender) : Nat → Mark
  | 0 => ⟨0, b.initial, 0⟩
  | index + 1 => (b.slots[index]?.map BlendedSlot.behind).getD ⟨0, b.initial, 0⟩

/-- The mark behind all slots. -/
def mark (b : Blender) : Mark := b.markBefore b.slots.length

/-- Where the elements of all slots come from. -/
def counts (b : Blender) : ReuseCounts := (b.slots.map BlendedSlot.source).foldl ReuseCounts.add {}

/-- Whether the text is at its end. -/
def atEnd (b : Blender) : Bool := b.slots.getLast?.any BlendedSlot.isEnd

/-- One more slot with an element, behind which a context holds, and its directives in the table. -/
def push (b : Blender) (g : Green) (source : ElementSource) (context : Context) (entries : List DirectiveEntry) :
    Blender :=
  let table := b.table.append entries
  { b with
    slots := b.slots ++
      [⟨g, b.mark.offset, source, ⟨b.mark.offset + g.width, context, table.entries.length⟩⟩]
    table := table }

/-- One more slot with an old element, together with its directives. -/
def takeOver (b : Blender) (r : Reuse) (g : Green) (oldStart : Nat) (source : ElementSource) : Blender :=
  let entries := r.entriesFor oldStart g.width b.mark.offset
  let context : Context :=
    { directives := (entries.getLast?.map DirectiveEntry.stateAfter).getD b.mark.context.directives
      lineStart := Text.endsLine (b.text.before (b.mark.offset + g.width)) }
  b.push g source context entries

/-- One more slot with a scanned token. -/
def scanNext (b : Blender) : Blender :=
  let s := scan b.mark.context (b.text.after b.mark.offset)
  let p := b.pool.token s.leaf
  { b.push (.token p.1) .scanned s.context (s.entries.map (·.shift b.mark.offset)) with pool := p.2 }

/-- One more slot with the next token. -/
def fill (b : Blender) : Blender :=
  match b.reuse.bind fun r => (r.token? b.mark.offset b.mark.context).map fun p => (r, p) with
  | some (r, oldStart, t) => b.takeOver r (.token t) oldStart .reusedToken
  | none => b.scanNext

/-- More slots, `count` of them if the text does not end before. -/
def fillMore : Nat → Blender → Blender
  | 0, b => b
  | count + 1, b => if b.atEnd then b else fillMore count b.fill

/-- The blender with the slot of an index filled, if the text is long enough. -/
def fillTo (b : Blender) (index : Nat) : Blender := fillMore (index + 1 - b.slots.length) b

/-- The slot with an index, in a filled blender; the last one if the text has fewer. -/
def slot? (b : Blender) (index : Nat) : Option BlendedSlot := b.slots[min index (b.slots.length - 1)]?

/-- The blender without the slots from an index on, and without their directives. -/
def truncate (b : Blender) (index : Nat) : Blender :=
  if index < b.slots.length then
    { b with
      slots := b.slots.take index
      table := b.table.truncate (b.markBefore index).tableLength }
  else b

/-- An old node of an accepted kind in the slot with an index, in place of all slots from there on. -/
def reuse? (b : Blender) (index : Nat) (kinds : NodeKind → Bool) : Option (Green × Blender) :=
  if b.slots.length < index then none
  else
    let m := b.markBefore index
    match b.reuse.bind fun r => (r.node? kinds m.offset m.context).map fun p => (r, p) with
    | some (r, oldStart, g) => some (g, (b.truncate index).takeOver r g oldStart .reusedNode)
    | none => none

/-- The slots in front of an index filled, and then an old node in the slot with the index, if one of an
accepted kind may be used there. -/
def tryReuse (b : Blender) (index : Nat) (kinds : NodeKind → Bool) : Option Green × Blender :=
  let filled := if index = 0 then b else b.fillTo (index - 1)
  match filled.reuse? index kinds with
  | some (g, b') => (some g, b')
  | none => (none, filled)

end Blender

end IncrementalSyntax

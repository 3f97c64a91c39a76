import IncrementalSyntax.Green.Pool
import IncrementalSyntax.Stream.Reuse

/-!
# Cursors

A cursor stands between two tokens of a text. It moves on over a token, which is an old one used again
if that is possible and a scanned one otherwise, or over a whole old node.

## Main definitions

* `ReuseCounts`, `Origin`: where elements come from
* `Cursor`: a place in a text with all that is known there
* `Cursor.next`: the next token
* `Cursor.reuseNode?`: an old node used again
-/

namespace IncrementalSyntax

/-- **Source of an element.** Scanned, or taken from the old tree. -/
inductive ElementSource where
  | scanned | reusedToken | reusedNode
  deriving DecidableEq, Repr

/-- **Counts.** How many elements came from where. -/
structure ReuseCounts where
  tokens : Nat := 0
  nodes : Nat := 0
  scanned : Nat := 0
  deriving DecidableEq, Repr

/-- The counts with one more element. -/
def ReuseCounts.add (c : ReuseCounts) : ElementSource → ReuseCounts
  | .scanned => { c with scanned := c.scanned + 1 }
  | .reusedToken => { c with tokens := c.tokens + 1 }
  | .reusedNode => { c with nodes := c.nodes + 1 }

/-- **Cursor.** A place in a text: its offset, the text from there on, the context, the directives of the
text before, what was used again so far, and the pool for the tokens to come. With an old tree at hand
its elements are used again where possible. -/
structure Cursor where
  reuse : Option Reuse
  offset : Nat
  rest : Text
  context : Context
  table : DirectiveTable
  counts : ReuseCounts
  pool : Pool

namespace Cursor

/-- The start of a text, with nothing to use again. -/
def atStart (text : Text) (context : Context) (pool : Pool) : Cursor where
  reuse := none
  offset := 0
  rest := text
  context := context
  table := ⟨context.directives, []⟩
  counts := {}
  pool := pool

/-- The start of a text that changes have made out of the text of an old tree. -/
def afterEdit (old : OldTree) (changes : ChangeSet) (text : Text) (context : Context) (pool : Pool) :
    Cursor :=
  { atStart text context pool with reuse := some ⟨old, changes.spans⟩ }

/-- The cursor behind an old element that is used again, together with its directives. -/
def behind (c : Cursor) (r : Reuse) (g : Green) (start : Nat) (source : ElementSource) : Cursor :=
  let entries := r.entriesFor start g.width c.offset
  { c with
    offset := c.offset + g.width
    rest := c.rest.after g.width
    context :=
      { directives := (entries.getLast?.map DirectiveEntry.stateAfter).getD c.context.directives
        lineStart := Text.endsLine (c.rest.before g.width) }
    table := c.table.append entries
    counts := c.counts.add source }

/-- The next token by scanning, and the cursor behind it. -/
def scanNext (c : Cursor) : Token × Cursor :=
  let s := scan c.context c.rest
  let p := c.pool.token s.leaf
  (p.1,
    { c with
      offset := c.offset + s.leaf.width
      rest := s.rest
      context := s.context
      table := c.table.append (s.entries.map (·.shift c.offset))
      counts := c.counts.add .scanned
      pool := p.2 })

/-- The next token, where it comes from, and the cursor behind it. -/
def next (c : Cursor) : Token × ElementSource × Cursor :=
  match c.reuse.bind fun r => (r.token? c.offset c.context).map fun p => (r, p) with
  | some (r, start, t) => (t, .reusedToken, c.behind r (.token t) start .reusedToken)
  | none => (c.scanNext.1, .scanned, c.scanNext.2)

/-- An old node of an accepted kind used again here, and the cursor behind it. -/
def reuseNode? (c : Cursor) (kinds : NodeKind → Bool) : Option (Green × Cursor) :=
  match c.reuse.bind fun r => (r.node? kinds c.offset c.context).map fun p => (r, p) with
  | some (r, start, g) => some (g, c.behind r g start .reusedNode)
  | none => none

/-- An identity that has not been used. -/
def fresh (c : Cursor) : Id × Cursor := (c.pool.fresh.1, { c with pool := c.pool.fresh.2 })

end Cursor

end IncrementalSyntax

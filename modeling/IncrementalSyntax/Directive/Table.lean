import IncrementalSyntax.Directive.State
import IncrementalSyntax.Kind.Basic

/-!
# Directive tables

A table lists the directives of a text in order, each with the state after it, so that the state at any
offset can be read off without scanning the text again.

## Main definitions

* `DirectiveEntry`, `DirectiveTable`: the table
* `DirectiveTable.stateAt`: the state at an offset
* `DirectiveTable.within`: the directives inside a range
-/

namespace IncrementalSyntax

/-- **Directive entry.** A directive line with its terminator, and the state after it. -/
structure DirectiveEntry where
  kind : DirectiveKind
  range : Range
  stateAfter : DirectiveState
  deriving DecidableEq, Repr

/-- The entry in a text where it stands further to the right. -/
def DirectiveEntry.shift (e : DirectiveEntry) (amount : Nat) : DirectiveEntry :=
  { e with range := e.range.shift amount }

/-- **Directive table.** The state at the start of a text and its directives in order. -/
structure DirectiveTable where
  initial : DirectiveState
  entries : List DirectiveEntry := []
  deriving DecidableEq, Repr

namespace DirectiveTable

/-- The table with more directives at its end. -/
def append (t : DirectiveTable) (entries : List DirectiveEntry) : DirectiveTable :=
  { t with entries := t.entries ++ entries }

/-- The table with its first entries only. -/
def truncate (t : DirectiveTable) (count : Nat) : DirectiveTable :=
  { t with entries := t.entries.take count }

/-- The directives that end at an offset or before it. -/
def upTo (t : DirectiveTable) (offset : Nat) : List DirectiveEntry :=
  t.entries.takeWhile (·.range.stop ≤ offset)

/-- The state at an offset: that after the last directive that ends there or before. -/
def stateAt (t : DirectiveTable) (offset : Nat) : DirectiveState :=
  match (t.upTo offset).getLast? with
  | some e => e.stateAfter
  | none => t.initial

/-- The directives that lie in a range from start to end. -/
def within (t : DirectiveTable) (r : Range) : List DirectiveEntry :=
  (t.upTo r.stop).dropWhile (·.range.start < r.start)

end DirectiveTable

end IncrementalSyntax

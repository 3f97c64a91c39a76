import IncrementalSyntax.Green.Lookup
import IncrementalSyntax.Text.Change
import IncrementalSyntax.Token.Scan

/-!
# What an edit leaves intact

After an edit an element of the old tree may stand in the new one if the text it was read from, and all
the text that was looked at to end it there, is unchanged, and if the context in front of it is the same
as before.

## Main definitions

* `OldTree`, `Reuse`: the old tree, and the ranges that the edit has replaced
* `Reuse.oldOffset?`: the old offset of a place in unchanged text
* `Reuse.isClean`: whether no change touches a stretch of old text or what is looked at behind it
* `Green.isOpenEnded`: the nodes whose end depends on the token behind them
* `Reuse.accepts`: whether an old element may be used again
-/

namespace IncrementalSyntax

/-- **Old tree.** A tree with the text it was parsed from and the directives of that text. -/
structure OldTree where
  root : Green
  text : Text
  directives : DirectiveTable

/-- **Reuse.** An old tree and the ranges that an edit replaces, each with the range of its new text. -/
structure Reuse where
  old : OldTree
  spans : List (Range × Range)

mutual

/-- Whether the parser had to look at the token behind a node to end it there: an `if` without `else` at
its right edge would have taken a following `else`. -/
def Green.isOpenEnded : Green → Bool
  | .token _ => false
  | .node h cs =>
    (h.kind = .node .ifStmt && (cs.getLast?.bind Green.nodeKind?) ≠ some .elseClause) ||
      Green.lastIsOpenEnded cs

/-- Whether the last of some elements in a row is open-ended. -/
def Green.lastIsOpenEnded : List Green → Bool
  | [] => false
  | [c] => c.isOpenEnded
  | _ :: c :: cs => Green.lastIsOpenEnded (c :: cs)

end

namespace Reuse

/-- The old offset of a new one. The ranges before it end at `oldEnd` in the old text and at `newEnd` in
the new one. There is none for an offset inside new text. -/
def oldOffsetFrom? (oldEnd newEnd offset : Nat) : List (Range × Range) → Option Nat
  | [] => some (oldEnd + (offset - newEnd))
  | (old, new) :: spans =>
    if offset < new.start then some (oldEnd + (offset - newEnd))
    else if offset < new.stop then none
    else oldOffsetFrom? old.stop new.stop offset spans

/-- The old offset at which the text of a new offset stood. It always fits where an offset fits: it is counted from the
end of an old range, so it is not negative, and for a place in the new text it is not behind the end of the old text. -/
def oldOffset? (r : Reuse) (offset : Nat) : Option Nat := oldOffsetFrom? 0 0 offset r.spans

/-- Whether no change touches the old text from `start` to `stop`, or what the scanner may have looked at
behind it. -/
def isClean (r : Reuse) (start stop : Nat) : Bool :=
  let limit := lookaheadEnd r.old.text stop
  r.spans.all fun span => !(span.1.start < limit && start < span.1.stop)

/-- The context at an offset of the old text, read off its directives and the character before it. -/
def contextAt (r : Reuse) (offset : Nat) : Context where
  directives := r.old.directives.stateAt offset
  lineStart := offset = 0 || (r.old.text.splitAt? offset).any fun p => Text.endsLine p.1

/-- Whether an old element that starts at `start`, and was ended in sight of the text up to `stop`, may be
used again in a context. Nothing that carries a diagnostic or an annotation is used again. -/
def accepts (r : Reuse) (g : Green) (start stop : Nat) (context : Context) : Bool :=
  0 < g.width && !g.flags.diagnostics && !g.flags.annotations && r.isClean start stop &&
    r.contextAt start = context

/-- The end of the text that was looked at to end a node that starts at `start`. -/
def windowEnd (r : Reuse) (g : Green) (start : Nat) : Nat :=
  let stop := start + g.width
  if g.isOpenEnded then
    match r.old.root.tokenStarting? stop with
    | some next => stop + next.leaf.width
    | none => stop
  else stop

/-- The old token that may be used again at an offset of the new text, with its old offset. -/
def token? (r : Reuse) (offset : Nat) (context : Context) : Option (Nat × Token) :=
  match r.oldOffset? offset with
  | none => none
  | some start =>
    match r.old.root.tokenStarting? start with
    | none => none
    | some t =>
      if t.leaf.tokenKind ≠ .eof ∧ r.accepts (.token t) start (start + t.leaf.width) context then
        some (start, t)
      else none

/-- The old node of an accepted kind that may be used again at an offset of the new text, with its old
offset. Only the outermost node that starts there is asked for. -/
def node? (r : Reuse) (kinds : NodeKind → Bool) (offset : Nat) (context : Context) :
    Option (Nat × Green) :=
  match r.oldOffset? offset with
  | none => none
  | some start =>
    match r.old.root.nodeStarting? (fun g => g.nodeKind?.any kinds) start with
    | none => none
    | some g =>
      if r.accepts g start (r.windowEnd g start) context then some (start, g) else none

/-- The directives in an old range that starts at `start`, moved to where it stands in the new text. -/
def entriesFor (r : Reuse) (start width offset : Nat) : List DirectiveEntry :=
  (r.old.directives.within ⟨start, width⟩).map fun e =>
    { e with range := ⟨e.range.start - start + offset, e.range.length⟩ }

end Reuse

end IncrementalSyntax

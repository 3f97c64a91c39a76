import IncrementalSyntax.Red.Basic

/-!
# Differences between trees

The walk through a new tree skips whatever it shares with an old one. A changed node is reported and
then compared child by child: the children shared at both ends are left out, and of those between,
a child shared with any old child between the ends is left out too. Children of one kind at the same
place are compared further, and any other child is reported with everything below it.

## Main definitions

* `sharedPrefix`: how many elements at the start of two lists are the same
* `Red.diff`: the elements of a new tree that are not shared with an old one
-/

namespace IncrementalSyntax

/-- The number of elements at the start of two lists that are the same one, pair by pair. -/
def sharedPrefix : List Green → List Green → Nat
  | a :: as, b :: bs => if a.isSame b then sharedPrefix as bs + 1 else 0
  | _, _ => 0

/-- **Window.** The children between the shared ones at both ends: `start` and `stop` are indices of the
new children, and `old` holds the old children between the ends. -/
structure Window where
  start : Nat
  stop : Nat
  old : List Green

/-- The window of two lists of children. The shared end is counted only as far as it does not run into
the shared start. -/
def Window.ofChildren (old new : List Green) : Window :=
  let start := sharedPrefix old new
  let room := min old.length new.length - start
  let end' := min room (sharedPrefix old.reverse new.reverse)
  ⟨start, new.length - end', (old.take (old.length - end')).drop start⟩

/-- The old child to compare with: a node of the same kind at the same place of the window. -/
def Window.partner? (w : Window) (index : Nat) (new : Green) : Option Green :=
  (w.old[index - w.start]?).filter fun o => o.isNode && new.isNode && o.kind = new.kind

namespace Red

mutual

/-- The differences below a new element at a place, compared with an old element. -/
def diffFrom (old : Green) : (new : Green) → (offset : Nat) → (above : List Crumb) → List Red
  | .token t, offset, above => if old.isSame (.token t) then [] else [⟨.token t, offset, above⟩]
  | .node h cs, offset, above =>
    if old.isSame (.node h cs) then []
    else
      ⟨.node h cs, offset, above⟩ ::
        diffAll (Window.ofChildren old.children cs) ⟨.node h cs, offset, above⟩ 0 cs

/-- The differences below the children of a new parent from one index on. -/
def diffAll (w : Window) (parent : Red) (index : Nat) : List Green → List Red
  | [] => []
  | c :: cs =>
    (if index < w.start ∨ w.stop ≤ index ∨ w.old.any (·.isSame c) then []
      else
        match w.partner? index c with
        | some o => diffFrom o c (parent.below index c).offset (parent.below index c).above
        | none => walk c (parent.below index c).offset (parent.below index c).above) ++
      diffAll w parent (index + 1) cs

end

/-- The elements of a new tree that are not shared with an old one, in the order of the text. -/
def diff (old new : Red) : List Red := diffFrom old.green new.green new.offset new.above

end Red

end IncrementalSyntax

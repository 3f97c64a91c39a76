import IncrementalSyntax.Green.Basic

/-!
# Searching for an offset

The child of a node whose range holds an offset is found by halving. Several children can start at one
offset if some of them have no width, so the search stops behind the last child that starts there, and
steps back over all that have none. A token or a node is found by going down from child to child.

## Main definitions

* `partitionPoint`: the halving search
* `Green.childAt?`: the index of the child whose range holds an offset
* `Green.findToken?`: the scanned token that starts at an offset
* `Green.findNode?`: the outermost accepted node that starts at an offset
-/

namespace IncrementalSyntax

/-- The first number from `lo` to `hi` of which `p` does not hold, found by halving; `hi` if it holds of all
in front of that. Where `p` fails it has to fail further on too. -/
def partitionPoint (p : Nat → Bool) (lo hi : Nat) : Nat :=
  if lo < hi then
    let mid := lo + (hi - lo) / 2
    if p mid then partitionPoint p (mid + 1) hi else partitionPoint p lo mid
  else lo
termination_by hi - lo

namespace Green

/-- The index of the last of the first `n` elements in a row that has a width. -/
def lastWide? (cs : List Green) : Nat → Option Nat
  | 0 => none
  | i + 1 => if (cs[i]?.map width).getD 0 = 0 then lastWide? cs i else some i

/-- The index of the child whose range holds the offset. -/
def childAt? (g : Green) (offset : Nat) : Option Nat :=
  if g.width ≤ offset then none
  else
    lastWide? g.children
      (partitionPoint (fun i => (g.childOffset? i).any (· ≤ offset)) 0 g.children.length)

/-- The child whose range holds the offset, with its own offset, below an element that starts at `start`. -/
def childAcross? (g : Green) (start offset : Nat) : Option (Nat × Green) :=
  (g.childAt? (offset - start)).bind fun i =>
    g.children[i]?.map fun c => (start + g.childStart i, c)

theorem sizeOf_lt_of_mem_children {g c : Green} (h : c ∈ g.children) : sizeOf c < sizeOf g := by
  cases g with
  | token t => simp [children] at h
  | node hd cs =>
    have hlt : sizeOf c < sizeOf cs := List.sizeOf_lt_of_mem h
    rw [node.sizeOf_spec]
    omega

theorem sizeOf_lt_of_childAcross? {g c : Green} {start offset below : Nat}
    (h : g.childAcross? start offset = some (below, c)) : sizeOf c < sizeOf g := by
  obtain ⟨i, -, hi⟩ := Option.bind_eq_some_iff.1 h
  obtain ⟨d, hd, heq⟩ := Option.map_eq_some_iff.1 hi
  cases heq
  exact sizeOf_lt_of_mem_children (List.mem_of_getElem? hd)

/-- The token below an element that starts at the offset, with its offset. The element starts at `start`. -/
def tokenAcross? (g : Green) (start offset : Nat) : Option (Nat × Token) :=
  match _h : g.childAcross? start offset with
  | none => none
  | some (below, token t) => if below = offset then some (below, t) else none
  | some (below, node hd cs) => tokenAcross? (node hd cs) below offset
termination_by sizeOf g
decreasing_by exact sizeOf_lt_of_childAcross? _h

/-- The scanned token that starts at the offset, with its offset. A missing token is never found. At the end
of the text this is the token of no width that ends it, if that is the last one. -/
def findToken? (g : Green) (offset : Nat) : Option (Nat × Token) :=
  if offset = g.width then
    (g.lastToken?.filter fun t => t.leaf.tokenKind = .eof && t.leaf.width = 0).map fun t => (offset, t)
  else g.tokenAcross? 0 offset

/-- The outermost node below an element that starts at the offset and is accepted, with its offset. The
element starts at `start`. -/
def nodeAcross? (accept : Green → Bool) (g : Green) (start offset : Nat) : Option (Nat × Green) :=
  match _h : g.childAcross? start offset with
  | none => none
  | some (_, token _) => none
  | some (below, node hd cs) =>
    if below = offset && accept (node hd cs) then some (below, node hd cs)
    else nodeAcross? accept (node hd cs) below offset
termination_by sizeOf g
decreasing_by exact sizeOf_lt_of_childAcross? _h

/-- The outermost node below the root that starts at the offset and is accepted, with its offset. -/
def findNode? (g : Green) (accept : Green → Bool) (offset : Nat) : Option (Nat × Green) :=
  g.nodeAcross? accept 0 offset

end Green

end IncrementalSyntax

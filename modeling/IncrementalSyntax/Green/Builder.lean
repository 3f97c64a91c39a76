import IncrementalSyntax.Green.Basic

/-!
# Building trees from events

A builder takes the elements of a tree from left to right. A node is opened before its first child is
pushed, or later at a mark set there, and takes up everything pushed since when it is closed.

## Main definitions

* `Builder`: the elements so far and the nodes that are open
* `Builder.open'`, `Builder.openAt`, `Builder.push`, `Builder.close`: the events
* `Builder.finish`: the tree
-/

namespace IncrementalSyntax

/-- **Builder.** The elements pushed so far, the closed nodes among them, and the open nodes, the
innermost first, each with the number of elements before it. -/
structure Builder where
  opened : List (Kind × Nat) := []
  elements : List Green := []
  nextId : Id := 0

namespace Builder

/-- Opens a node at the next element. -/
def open' (b : Builder) (kind : Kind) : Builder :=
  { b with opened := (kind, b.elements.length) :: b.opened }

/-- Adds an element. -/
def push (b : Builder) (g : Green) : Builder := { b with elements := b.elements ++ [g] }

/-- Adds a token made of a leaf. -/
def pushLeaf (b : Builder) (l : Leaf) : Builder :=
  { b with elements := b.elements ++ [.token ⟨b.nextId, l⟩], nextId := b.nextId + 1 }

/-- The number of elements so far, to open a node there later. -/
def mark (b : Builder) : Nat := b.elements.length

/-- Opens a node around everything pushed since a mark. -/
def openAt (b : Builder) (mark : Nat) (kind : Kind) : Builder :=
  { b with opened := (kind, min mark b.elements.length) :: b.opened }

/-- The number of elements since a mark. -/
def countSince (b : Builder) (mark : Nat) : Nat := b.elements.length - mark

/-- The elements with a node around those from an index on. -/
def wrap (id : Id) (kind : Kind) (first : Nat) (elements : List Green) : List Green :=
  elements.take first ++ [.ofChildren id kind (elements.drop first)]

/-- Closes the innermost open node, if there is one. -/
def close (b : Builder) : Builder :=
  match b.opened with
  | [] => b
  | (kind, first) :: rest =>
    ⟨rest, wrap b.nextId kind first b.elements, b.nextId + 1⟩

/-- Closes the given nodes, the innermost first. -/
def closeAll (elements : List Green) (nextId : Id) : List (Kind × Nat) → List Green × Id
  | [] => (elements, nextId)
  | (kind, first) :: rest => closeAll (wrap nextId kind first elements) (nextId + 1) rest

/-- The root over the elements at the top: the only one itself if it is a node, otherwise a fragment. A
token that stands alone at the top is left out of the fragment. -/
def rootOf (id : Id) : List Green → Green
  | [.node h cs] => .node h cs
  | [.token _] => .ofChildren id (.node .fragment) []
  | elements => .ofChildren id (.node .fragment) elements

/-- The finished tree; nodes that are still open are closed. -/
def finish (b : Builder) : Green :=
  let r := closeAll b.elements b.nextId b.opened
  rootOf r.2 r.1

end Builder

end IncrementalSyntax

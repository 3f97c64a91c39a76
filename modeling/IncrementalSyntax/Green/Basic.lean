import IncrementalSyntax.Green.Leaf

/-!
# Green elements

A green element is a token, or a node over green elements. It does not know where it stands, so one
element can be part of many trees; elements are told apart by their identities. A node keeps the width
and the flags of what is below it, and how far from its start each child stands.

## Main definitions

* `Header`, `Green`: the tree
* `Green.ofChildren`: the one way to make a node, with the right summary
* `Shape`, `Green.shape`: what a tree is regardless of identities; `Green.sameShape` compares it
* `Green.tokens`, `Green.text`: the tokens of a tree and its text
* `Green.Exact`: every node of the tree keeps the right summary
* `Green.replaceChild`, `Green.insertChild`, `Green.removeChild`, `Green.annotate`: changed copies
-/

namespace IncrementalSyntax

/-- **Header.** A node without its children, with the offset of each child from the start of the node. -/
structure Header where
  id : Id
  kind : Kind
  annotations : List Annotation
  width : Nat
  offsets : List Nat
  flags : Flags
  deriving DecidableEq, Repr

/-- **Green element.** A token or a node. -/
inductive Green where
  | token (token : Token)
  | node (header : Header) (children : List Green)
  deriving Repr

instance : Inhabited Green := ⟨.token ⟨0, { kind := .token .eof, text := [] }⟩⟩

/-- **Shape.** A tree without identities and summaries. -/
inductive Shape where
  | leaf (leaf : Leaf)
  | node (kind : Kind) (annotations : List Annotation) (children : List Shape)
  deriving Repr

mutual

/-- Shapes can be compared. -/
def Shape.decEq : (a b : Shape) → Decidable (a = b)
  | .leaf a, .leaf b =>
    if h : a = b then .isTrue (by rw [h]) else .isFalse (by simp [h])
  | .leaf _, .node .. => .isFalse (by simp)
  | .node .., .leaf _ => .isFalse (by simp)
  | .node k as cs, .node k' as' cs' =>
    if h : k = k' ∧ as = as' then
      match Shape.decEqList cs cs' with
      | .isTrue e => .isTrue (by rw [h.1, h.2, e])
      | .isFalse e => .isFalse (by simp [e])
    else .isFalse (by simp; intro h₁ h₂; exact absurd ⟨h₁, h₂⟩ h)

/-- Lists of shapes can be compared. -/
def Shape.decEqList : (as bs : List Shape) → Decidable (as = bs)
  | [], [] => .isTrue rfl
  | [], _ :: _ => .isFalse (by simp)
  | _ :: _, [] => .isFalse (by simp)
  | a :: as, b :: bs =>
    match Shape.decEq a b with
    | .isTrue e =>
      match Shape.decEqList as bs with
      | .isTrue es => .isTrue (by rw [e, es])
      | .isFalse es => .isFalse (by simp [es])
    | .isFalse e => .isFalse (by simp [e])

end

instance : DecidableEq Shape := Shape.decEq

namespace Green

/-- The identity of an element. -/
def id : Green → Id
  | token t => t.id
  | node h _ => h.id

def kind : Green → Kind
  | token t => t.leaf.kind
  | node h _ => h.kind

/-- The width of the text below an element. -/
def width : Green → Nat
  | token t => t.leaf.width
  | node h _ => h.width

def flags : Green → Flags
  | token t => t.leaf.flags
  | node h _ => h.flags

def annotations : Green → List Annotation
  | token t => t.leaf.annotations
  | node h _ => h.annotations

/-- The elements right below; none below a token. -/
def children : Green → List Green
  | token _ => []
  | node _ cs => cs

def isNode : Green → Bool
  | token _ => false
  | node .. => true

/-- The production that a node stands for; `none` for a token, and for a node labelled by any other kind. -/
def nodeKind? : Green → Option NodeKind
  | node { kind := .node k, .. } _ => some k
  | _ => none

/-- What the grammar takes a token for; `none` for a node. -/
def tokenKind? : Green → Option TokenKind
  | token t => some t.leaf.tokenKind
  | node .. => none

/-- Whether two elements are the same one. A token is never the same as a node. -/
def isSame : Green → Green → Bool
  | token a, token b => a.isSame b
  | node a _, node b _ => a.id == b.id
  | _, _ => false

/-- The width of elements in a row. -/
def widthAll : List Green → Nat
  | [] => 0
  | c :: cs => c.width + widthAll cs

/-- The offsets of elements in a row, the first one at `start`: each stands behind the one in front of it. -/
def offsetsFrom (start : Nat) : List Green → List Nat
  | [] => []
  | c :: cs => start :: offsetsFrom (start + c.width) cs

/-- The flags of elements together. -/
def flagsAll : List Green → Flags
  | [] => .none
  | c :: cs => c.flags.union (flagsAll cs)

/-- The flags that a node has of its own. -/
def ownFlags (kind : Kind) (annotations : List Annotation) : Flags :=
  { skippedText := kind = .node .skippedTokens, annotations := !annotations.isEmpty }

/-- A node over the given elements, with its summary read off them. -/
def ofChildren (id : Id) (kind : Kind) (children : List Green)
    (annotations : List Annotation := []) : Green :=
  node
    { id, kind, annotations
      width := widthAll children
      offsets := offsetsFrom 0 children
      flags := (ownFlags kind annotations).union (flagsAll children) }
    children

/-- **Summary.** What a node keeps of its children is what can be read off them. -/
structure Summarizes (h : Header) (cs : List Green) : Prop where
  width : h.width = widthAll cs
  offsets : h.offsets = offsetsFrom 0 cs
  flags : h.flags = (ownFlags h.kind h.annotations).union (flagsAll cs)

/-- The offset of a child from the start of its parent, as the parent keeps it. -/
def childOffset? : Green → Nat → Option Nat
  | token _, _ => none
  | node h _, index => h.offsets[index]?

/-- How far behind the start of its parent a child stands. -/
def childStart (g : Green) (index : Nat) : Nat := (g.childOffset? index).getD 0

mutual

/-- What the tree is regardless of identities. -/
def shape : Green → Shape
  | token t => .leaf t.leaf
  | node h cs => .node h.kind h.annotations (shapes cs)

/-- The shapes of elements in a row. -/
def shapes : List Green → List Shape
  | [] => []
  | c :: cs => c.shape :: shapes cs

end

/-- Whether two elements are equal in structure. -/
def sameShape (a b : Green) : Bool := a.shape = b.shape

mutual

/-- The tokens of an element from left to right. -/
def tokens : Green → List Token
  | token t => [t]
  | node _ cs => tokensAll cs

/-- The tokens of elements in a row. -/
def tokensAll : List Green → List Token
  | [] => []
  | c :: cs => c.tokens ++ tokensAll cs

end

mutual

/-- Every node keeps the summary of its children. -/
def Exact : Green → Prop
  | token _ => True
  | node h cs => Summarizes h cs ∧ ExactAll cs

/-- All elements in a row keep the right summaries. -/
def ExactAll : List Green → Prop
  | [] => True
  | c :: cs => c.Exact ∧ ExactAll cs

end

mutual

/-- The number of levels of a tree. -/
def depth : Green → Nat
  | token _ => 1
  | node _ cs => depthAll cs + 1

/-- The most levels that one of some elements in a row has. -/
def depthAll : List Green → Nat
  | [] => 0
  | c :: cs => max c.depth (depthAll cs)

end

/-- The text of an element, trivia included. -/
def text (g : Green) : Text := g.tokens.flatMap fun t => t.leaf.fullText

def firstToken? (g : Green) : Option Token := g.tokens.head?

def lastToken? (g : Green) : Option Token := g.tokens.getLast?

/-- Tokens in a row with the offset of each, the first one at `start`. -/
def placeTokens (start : Nat) : List Token → List (Nat × Token)
  | [] => []
  | t :: ts => (start, t) :: placeTokens (start + t.leaf.width) ts

/-- The tokens of an element with their offsets. -/
def tokensFrom (g : Green) (start : Nat) : List (Nat × Token) := placeTokens start g.tokens

/-! ## Changed copies -/

/-- A copy with other children. A token has none, so it stays as it is. -/
def withChildren (id : Id) (children : List Green) : Green → Green
  | token t => token t
  | node h _ => ofChildren id h.kind children h.annotations

/-- A copy with one child replaced; the others are shared. -/
def replaceChild (g : Green) (id : Id) (index : Nat) (c : Green) : Green :=
  g.withChildren id (g.children.set index c)

/-- A copy with one more child, at the end if the index lies past it. -/
def insertChild (g : Green) (id : Id) (index : Nat) (c : Green) : Green :=
  g.withChildren id (g.children.insertIdx (min index g.children.length) c)

/-- A copy without one child. -/
def removeChild (g : Green) (id : Id) (index : Nat) : Green :=
  g.withChildren id (g.children.eraseIdx index)

/-- A copy with one more annotation on the element itself. -/
def annotate (g : Green) (id : Id) (a : Annotation) : Green :=
  match g with
  | token t => token ⟨id, t.leaf.withAnnotation a⟩
  | node h cs => ofChildren id h.kind cs (h.annotations ++ [a])

@[simp] theorem shapes_eq_map (cs : List Green) : shapes cs = cs.map shape := by
  induction cs with
  | nil => rfl
  | cons c cs ih => simp [shapes, ih]

@[simp] theorem tokensAll_eq_flatMap (cs : List Green) : tokensAll cs = cs.flatMap tokens := by
  induction cs with
  | nil => rfl
  | cons c cs ih => simp [tokensAll, ih]

theorem exactAll_iff (cs : List Green) : ExactAll cs ↔ ∀ c ∈ cs, c.Exact := by
  induction cs with
  | nil => simp [ExactAll]
  | cons c cs ih => simp [ExactAll, ih]

theorem exact_node {h : Header} {cs : List Green} :
    (node h cs).Exact ↔ Summarizes h cs ∧ ∀ c ∈ cs, c.Exact :=
  and_congr_right fun _ => exactAll_iff cs

/-- A node that is made of exact elements is exact. -/
theorem exact_ofChildren {id : Id} {kind : Kind} {cs : List Green} {as : List Annotation} :
    (ofChildren id kind cs as).Exact ↔ ∀ c ∈ cs, c.Exact :=
  exact_node.trans (and_iff_right ⟨rfl, rfl, rfl⟩)

end Green

end IncrementalSyntax

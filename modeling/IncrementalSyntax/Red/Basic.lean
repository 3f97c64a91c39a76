import IncrementalSyntax.Green.Search
import IncrementalSyntax.Text.Quoted

/-!
# Red elements

A red element is a green element at a place of a tree. It knows its offset and the way up to the root,
and it is made on demand.

## Main definitions

* `Crumb`, `Red`: a place in a tree
* `Red.ofRoot`, `Red.child?`, `Red.parent?`: the steps from place to place
* `Red.descendants`: all places from one down, in the order of the text
* `Red.tokenAt?`: the token whose range holds an offset
* `Red.reports`: the diagnostics below a place, with their ranges in the text
* `Red.replaceWith`: a new root with another element at the place
-/

namespace IncrementalSyntax

/-- **Crumb.** A step of the way up: the parent, its offset, and the index of the child that one comes
from. -/
structure Crumb where
  parent : Green
  offset : Nat
  index : Nat

/-- **Red element.** A green element with its offset and the way up to the root, the parent first. -/
structure Red where
  green : Green
  offset : Nat
  above : List Crumb := []

instance : Inhabited Red := ⟨⟨default, 0, []⟩⟩

namespace Red

/-- The place of the root. -/
def ofRoot (g : Green) : Red := ⟨g, 0, []⟩

def kind (r : Red) : Kind := r.green.kind

/-- The range with all trivia. -/
def fullRange (r : Red) : Range := ⟨r.offset, r.green.width⟩

/-- The range without the leading trivia of the first token and the trailing trivia of the last one. -/
def range (r : Red) : Range :=
  let start := r.offset + (r.green.firstToken?.map (·.leaf.leadingWidth)).getD 0
  let stop := r.fullRange.stop - (r.green.lastToken?.map (·.leaf.trailingWidth)).getD 0
  .between start stop

def parent? (r : Red) : Option Red :=
  match r.above with
  | [] => none
  | c :: rest => some ⟨c.parent, c.offset, rest⟩

/-- The index among the children of the parent; 0 for the root. -/
def index (r : Red) : Nat := (r.above.head?.map Crumb.index).getD 0

/-- The places from a way up, the nearest first. -/
def ofCrumbs : List Crumb → List Red
  | [] => []
  | c :: rest => ⟨c.parent, c.offset, rest⟩ :: ofCrumbs rest

/-- The element itself, its parent, and so on up to the root. -/
def ancestors (r : Red) : List Red := r :: ofCrumbs r.above

/-- The root that the element was reached from. -/
def root (r : Red) : Red := (ofCrumbs r.above).getLastD r

/-- The place of a child with an index, as far behind the start of its parent as the parent keeps it. -/
def below (r : Red) (index : Nat) (c : Green) : Red :=
  ⟨c, r.offset + r.green.childStart index, ⟨r.green, r.offset, index⟩ :: r.above⟩

/-- The child with an index. -/
def child? (r : Red) (index : Nat) : Option Red := (r.green.children[index]?).map (r.below index)

/-- The children of a parent from one index on. -/
def place (parent : Red) (index : Nat) : List Green → List Red
  | [] => []
  | c :: cs => parent.below index c :: place parent (index + 1) cs

/-- The children in order. -/
def children (r : Red) : List Red := r.place 0 r.green.children

/-- The element at the end of a path of child indices. -/
def follow? (r : Red) : List Nat → Option Red
  | [] => some r
  | i :: path =>
    match r.child? i with
    | some c => c.follow? path
    | none => none

mutual

/-- The element at a place and everything below it, in the order of the text. -/
def walk : (g : Green) → (offset : Nat) → (above : List Crumb) → List Red
  | .token t, offset, above => [⟨.token t, offset, above⟩]
  | .node h cs, offset, above =>
    ⟨.node h cs, offset, above⟩ :: walkAll ⟨.node h cs, offset, above⟩ 0 cs

/-- The children of a parent from one index on, each with everything below it. -/
def walkAll (parent : Red) (index : Nat) : List Green → List Red
  | [] => []
  | c :: cs =>
    walk c (parent.below index c).offset (parent.below index c).above ++ walkAll parent (index + 1) cs

end

/-- The element and everything below it, in the order of the text. -/
def descendants (r : Red) : List Red := walk r.green r.offset r.above

/-- The nodes among an element and everything below it. -/
def nodes (r : Red) : List Red := r.descendants.filter (·.green.isNode)

/-- The tokens among an element and everything below it. -/
def tokens (r : Red) : List Red := r.descendants.filter fun d => !d.green.isNode

def firstToken? (r : Red) : Option Red := r.tokens.head?

def lastToken? (r : Red) : Option Red := r.tokens.getLast?

/-- The token below the element whose range holds an offset of the text. -/
def tokenAt? (r : Red) (offset : Nat) : Option Red :=
  if offset < r.offset then none
  else
    match _h : (r.green.childAt? (offset - r.offset)).bind r.child? with
    | none => none
    | some c => if c.green.isNode then c.tokenAt? offset else some c
termination_by sizeOf r.green
decreasing_by
  obtain ⟨i, -, hi⟩ := Option.bind_eq_some_iff.1 _h
  obtain ⟨g, hg, rfl⟩ := Option.map_eq_some_iff.1 hi
  exact Green.sizeOf_lt_of_mem_children (List.mem_of_getElem? hg)

/-- The diagnostics of a token that starts at an offset. -/
def tokenReports (start : Nat) (t : Token) : List Report :=
  t.leaf.diagnostics.map fun d => d.reportAt start

/-- The diagnostics below the element in the order of their tokens. Elements whose flags show none are
not searched. -/
def reports (r : Red) : List Report :=
  if r.green.flags.diagnostics then
    (r.green.tokensFrom r.offset).flatMap fun p => tokenReports p.1 p.2
  else []

/-- Whether two places of a tree are the same one: the same element at the same offset. -/
def isSame (a b : Red) : Bool := a.offset == b.offset && a.green.isSame b.green

/-- The root with an element replaced at the end of a way up. Each node on the way is copied under a new
identity, and all other children are shared. Also the next identity. -/
def rebuild (g : Green) (nextId : Id) : List Crumb → Green × Id
  | [] => (g, nextId)
  | c :: rest => rebuild (c.parent.replaceChild nextId c.index g) (nextId + 1) rest

/-- The root with another element at this place, and the next identity. -/
def replaceWith (r : Red) (nextId : Id) (g : Green) : Green × Id := rebuild g nextId r.above

/-- The element on one line: its kind and range, and its text if it is a token. -/
def render (r : Red) : String :=
  match r.green with
  | .token t =>
    t.leaf.kind.label ++ "@" ++ r.range.render ++ " " ++ Text.quote t.leaf.text
  | .node h _ => h.kind.label ++ "@" ++ r.fullRange.render

end Red

end IncrementalSyntax

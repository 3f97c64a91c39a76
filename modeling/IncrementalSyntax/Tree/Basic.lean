import IncrementalSyntax.Grammar.Root
import IncrementalSyntax.Red.Diff
import IncrementalSyntax.Text.Snapshot

/-!
# Syntax trees

A syntax tree belongs to one snapshot of a text. An edit gives a new tree, which shares with the old one
every element that the edit has left intact, and the old tree stays as it is. All trees that come from
one another share a workspace: the history of their texts, and the pool of their tokens.

## Main definitions

* `Workspace`, `SyntaxTree`: what trees share, and a tree
* `SyntaxTree.ofText`: the tree of a text
* `SyntaxTree.edit`, `SyntaxTree.update`: the tree after changes, and that of a later snapshot
* `SyntaxTree.annotate`: the tree with an annotation on one element
* `SyntaxTree.reports`, `SyntaxTree.diff`: the diagnostics of a tree, and its differences to another one
-/

namespace IncrementalSyntax

/-- **Workspace.** What trees of one origin share. -/
structure Workspace where
  history : History := {}
  pool : Pool := {}

/-- **Syntax tree.** The parse of a snapshot, with what the parse has used again. -/
structure SyntaxTree where
  snapshot : Snapshot
  options : Options
  entry : EntryPoint
  root : Green
  directives : DirectiveTable
  status : ParseStatus
  counts : ReuseCounts

namespace SyntaxTree

/-- The context at the start of a text. -/
def initialContext (options : Options) : Context := .initial options.symbols

/-- The tree of a snapshot, read from a cursor at the start of its text; also the pool afterwards. -/
def ofCursor (snapshot : Snapshot) (options : Options) (entry : EntryPoint) (cursor : Cursor) :
    SyntaxTree × Pool :=
  let p := parse options.version entry cursor
  ({ snapshot := snapshot
     options := options
     entry := entry
     root := p.root
     directives := p.source.table
     status := p.status
     counts := p.source.counts },
    p.source.pool)

/-- The tree of a text, whose snapshot begins a new lineage. -/
def ofText (w : Workspace) (text : Text) (options : Options) (entry : EntryPoint) :
    SyntaxTree × Workspace :=
  let s := w.history.begin text
  let t := ofCursor s.1 options entry (.atStart text (initialContext options) w.pool)
  (t.1, ⟨s.2, t.2⟩)

def text (t : SyntaxTree) : Text := t.snapshot.text

/-- The tree as one to take elements from. -/
def asOld (t : SyntaxTree) : OldTree := ⟨t.root, t.text, t.directives⟩

/-- The tree of a snapshot that changes have made out of the text of an old tree; also the pool
afterwards. -/
def reparse (t : SyntaxTree) (snapshot : Snapshot) (changes : ChangeSet) (pool : Pool) :
    SyntaxTree × Pool :=
  ofCursor snapshot t.options t.entry
    (.afterEdit t.asOld changes snapshot.text (initialContext t.options) pool)

/-- The tree after changes to its text. -/
def edit (w : Workspace) (t : SyntaxTree) (changes : ChangeSet) :
    Except TextError (SyntaxTree × Workspace) :=
  (w.history.derive t.snapshot changes).map fun s =>
    let r := t.reparse s.1 changes w.pool
    (r.1, ⟨s.2, r.2⟩)

/-- The tree of a later snapshot of the text, by way of the changes that lead to it. -/
def update (w : Workspace) (t : SyntaxTree) (snapshot : Snapshot) :
    Except TextError (SyntaxTree × Workspace) :=
  (w.history.changesBetween t.snapshot snapshot).map fun changes =>
    let r := t.reparse snapshot changes w.pool
    (r.1, ⟨w.history.hold snapshot, r.2⟩)

/-- The place of the root. -/
def red (t : SyntaxTree) : Red := .ofRoot t.root

/-- Whether a place was reached from the root of this tree. -/
def owns (t : SyntaxTree) (r : Red) : Bool := r.root.green.isSame t.root

/-- The tree with one more annotation on an element, if the element is one of its own. -/
def annotate (w : Workspace) (t : SyntaxTree) (r : Red) (a : Annotation) :
    Option (SyntaxTree × Workspace) :=
  if t.owns r then
    let id := w.pool.fresh
    let new := r.replaceWith id.2.nextId (r.green.annotate id.1 a)
    some ({ t with root := new.1 },
      { history := w.history.hold t.snapshot, pool := { id.2 with nextId := new.2 } })
  else none

/-- The diagnostics of the tree in the order of the text. -/
def reports (t : SyntaxTree) : List Report := t.red.reports

/-- The elements of a new tree that are not shared with an old one. -/
def diff (old new : SyntaxTree) : List Red := old.red.diff new.red

end SyntaxTree

end IncrementalSyntax

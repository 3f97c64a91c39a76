import IncrementalSyntax.Proofs.Grammar.Discipline
import IncrementalSyntax.Proofs.Tree.Session

/-!
# The parser is total and disciplined

Whatever the text, and whatever old tree is at hand, the machine that builds a tree by events reads the whole
text without failing. So every round of a repetition that goes on has moved, every node that is closed has been
opened, every mark lies inside the node that is open, and in the end nothing is left open. The tree it leaves is
the one of the parse, a root with the end of the text behind everything else.

## Main definitions

* `SyntaxTree.Disciplined`: a tree that the machine builds from a cursor

## Main results

* `Session.disciplined`: trees of a text, and trees after changes to the text of a tree of a session
-/

namespace IncrementalSyntax

namespace SyntaxTree

/-- **Disciplined.** The machine builds the tree from a cursor and does not fail. In the end no node and no list is
open, and it does not look ahead. The root is of the kind that belongs to the entry point, and the token that ends
the text is its last child and stands nowhere else. -/
structure Disciplined (t : SyntaxTree) (cursor : Cursor) : Prop where
  run : ∃ m, Events.rootNode t.entry { source := cursor, version := t.options.version } = some ((), m) ∧
    m.builder.opened = [] ∧ m.contexts = [] ∧ m.lookahead = 0 ∧ m.builder.finish = t.root ∧ m.status = t.status
  root : Events.Rooted (Parse.rootKind t.entry) t.root

variable {options : Options} {set : ChangeSet} {reuse : Option Reuse} {cursor : Cursor}

theorem disciplined_ofCursor (snapshot : Snapshot) (entry : EntryPoint)
    (hat : cursor.At options.symbols snapshot.text set reuse [])
    (hsound : ∀ r, reuse = some r → r.old.root.SoundWherePlain options.version) :
    Disciplined (ofCursor snapshot options entry cursor).1 cursor := by
  let S := Supply.ofCursor options.version options.symbols snapshot.text set reuse hsound
  have hok : S.Ok cursor := ⟨[], hat⟩
  obtain ⟨m, hrun, hfinished⟩ := Events.rootNode_finished hok entry
  refine ⟨⟨m, hrun, hfinished.opened, hfinished.contexts, hfinished.lookahead, hfinished.tree, hfinished.status⟩, ?_⟩
  exact Events.rooted hok entry

end SyntaxTree

namespace Session

open SyntaxTree

/-- **The parser is total and disciplined**, on every text, and on the text that changes make out of that of any tree
of a session. -/
theorem disciplined :
    (∀ (w : Workspace) (text : Text) (options : Options) (entry : EntryPoint),
      Disciplined (ofText w text options entry).1 (.atStart text (initialContext options) w.pool)) ∧
    ∀ {allowed : Text → ChangeSet → Prop} {w : Workspace} {trees : List SyntaxTree} {made : List Snapshot}
      {t : SyntaxTree}, Session allowed w trees made → t ∈ trees →
      ∀ {snapshot : Snapshot} {changes : ChangeSet}, changes.applyTo t.text = .ok snapshot.text → ∀ pool : Pool,
        Disciplined (t.reparse snapshot changes pool).1
          (.afterEdit t.asOld changes snapshot.text (initialContext t.options) pool) := by
  refine ⟨fun w text options entry => ?_, fun h ht snapshot changes happly pool => ?_⟩
  · exact disciplined_ofCursor (w.history.begin text).1 entry (Cursor.at_atStart options.symbols text .empty w.pool) nofun
  · have hvalid := (h.valid.2 _ ht).1
    exact disciplined_ofCursor snapshot _ (at_reparse hvalid happly pool) (sound_reparse hvalid)

/-- A block in which nothing can use one of the tokens, in front of which a statement is added. -/
theorem disciplined_block : ∃ (t : SyntaxTree) (snapshot : Snapshot) (changes : ChangeSet),
    t.text = ['{', ')', '}'] ∧ changes.applyTo t.text = .ok snapshot.text ∧ snapshot.text = ['{', ';', ')', '}'] ∧
      Disciplined (t.reparse snapshot changes {}).1
        (.afterEdit t.asOld changes snapshot.text (initialContext t.options) {}) := by
  let t₀ : SyntaxTree := (ofText {} ['{', ')', '}'] {} .statement).1
  let changes : ChangeSet := .single ⟨⟨1, 0⟩, [';']⟩
  let snapshot : Snapshot := { t₀.snapshot with text := ['{', ';', ')', '}'] }
  have h₀ : Session (fun _ _ => True) _ [t₀] _ := .parse ['{', ')', '}'] {} .statement .start
  have happly : changes.applyTo t₀.text = .ok snapshot.text := rfl
  exact ⟨t₀, snapshot, changes, rfl, happly, rfl, disciplined.2 h₀ (List.mem_singleton_self _) happly {}⟩

end Session

end IncrementalSyntax

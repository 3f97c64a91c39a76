import IncrementalSyntax.Proofs.Grammar.Simulation
import IncrementalSyntax.Proofs.Green.Pool
import IncrementalSyntax.Tree.Basic

/-!
# The pool decides sharing only

A cursor that takes its tokens from another pool feeds the same leaves, since a pool never changes the content
of a token. So a tree does not depend on the pool, identities apart.

## Main definitions

* `Cursor.repool`: a cursor with another pool
* `Cursor.poolSimulation`: cursors that differ in their pools only
* `SyntaxTree.SameUpToIdentity`: trees that differ in identities only

## Main results

* `Pool.id_answer_eq_iff`: which requests of a sequence get the same token
* `SyntaxTree.sharing_only`: what the pool decides
-/

namespace IncrementalSyntax

/-! ## Requests in a sequence -/

namespace Pool

/-- Behind a request stands the pool that has answered it. -/
theorem answer_take_succ {ls : List Leaf} {i : Nat} (hi : i < ls.length) :
    ((answer {} (ls.take (i + 1))).2 : Pool) = ((answer {} (ls.take i)).2.token ls[i]).2 := by
  rw [List.take_succ_eq_append_getElem hi, answer_append]
  rfl

/-- **Sharing in a sequence.** A later request gets the token of an earlier one just if both ask for the same
poolable leaf, and this leaf was in the pool right behind the earlier request. -/
theorem id_answer_eq_iff {ls : List Leaf} {i j : Nat} (hij : i < j) (hj : j < ls.length) :
    (answer {} ls).1[i]?.map Token.id = (answer {} ls).1[j]?.map Token.id ↔
      ls[i] = ls[j] ∧ ls[j].isPoolable = true ∧ ((answer {} (ls.take (i + 1))).2.find? ls[j]).isSome = true := by
  have hi : i < ls.length := hij.trans hj
  -- between the two stand the requests from `i + 1` to `j`
  have hbetween : ls.take j = ls.take (i + 1) ++ (ls.take j).drop (i + 1) := by
    conv_lhs => rw [← List.take_append_drop (i + 1) (ls.take j), List.take_take, Nat.min_eq_left hij]
  have hpool : (answer {} (ls.take j)).2 =
      (((answer {} (ls.take i)).2.token ls[i]).2.answer ((ls.take j).drop (i + 1))).2 := by
    rw [hbetween, answer_append, answer_take_succ hi, ← hbetween]
  rw [getElem?_answer hi, getElem?_answer hj, hpool, answer_take_succ hi, Option.map_some, Option.map_some,
    Option.some_inj]
  exact id_eq_iff (wellFormed_answer wellFormed_empty _) _ _ _

end Pool

/-! ## Cursors with other pools -/

namespace Cursor

/-- The cursor with another pool. -/
def repool (c : Cursor) (pool : Pool) : Cursor := { c with pool := pool }

@[simp] theorem repool_rest (c : Cursor) (pool : Pool) : (c.repool pool).rest = c.rest := rfl

/-- Another pool may give another token for the same leaf, and nothing else changes. -/
theorem next_repool (c : Cursor) (pool : Pool) :
    (c.repool pool).next.1.leaf = c.next.1.leaf ∧ ∃ pool', (c.repool pool).next.2.2 = c.next.2.2.repool pool' := by
  cases h : c.reuse.bind fun r => (r.token? c.offset c.context).map fun p => (r, p) with
  | some found =>
    have h' : (c.repool pool).reuse.bind (fun r =>
        (r.token? (c.repool pool).offset (c.repool pool).context).map fun p => (r, p)) = some found := h
    rw [next, next, h, h']
    exact ⟨rfl, pool, rfl⟩
  | none =>
    have h' : (c.repool pool).reuse.bind (fun r =>
        (r.token? (c.repool pool).offset (c.repool pool).context).map fun p => (r, p)) = none := h
    rw [next, next, h, h']
    refine ⟨?_, (pool.token (scan c.context c.rest).leaf).2, rfl⟩
    exact (pool.leaf_token _).trans (c.pool.leaf_token _).symm

/-- The same old nodes are offered, whatever the pool. -/
theorem reuseNode?_repool (c : Cursor) (pool : Pool) (kinds : NodeKind → Bool) :
    (c.repool pool).reuseNode? kinds = (c.reuseNode? kinds).map fun p => (p.1, p.2.repool pool) := by
  cases h : c.reuse.bind fun r => (r.node? kinds c.offset c.context).map fun p => (r, p) with
  | some found =>
    have h' : (c.repool pool).reuse.bind (fun r =>
        (r.node? kinds (c.repool pool).offset (c.repool pool).context).map fun p => (r, p)) = some found := h
    rw [reuseNode?, reuseNode?, h, h']
    rfl
  | none =>
    have h' : (c.repool pool).reuse.bind (fun r =>
        (r.node? kinds (c.repool pool).offset (c.repool pool).context).map fun p => (r, p)) = none := h
    rw [reuseNode?, reuseNode?, h, h']
    rfl

/-- Cursors that differ in their pools only. -/
def poolSimulation : Simulation Cursor Cursor where
  Rel c d := ∃ pool, d = c.repool pool
  next := by
    rintro c _ ⟨pool, rfl⟩
    obtain ⟨hleaf, hbehind⟩ := next_repool c pool
    exact ⟨hleaf.symm, hbehind⟩
  reuse := by
    rintro c _ kinds ⟨pool, rfl⟩
    show Option.Rel _ (c.reuseNode? kinds) ((c.repool pool).reuseNode? kinds)
    rw [reuseNode?_repool]
    cases c.reuseNode? kinds with
    | none => exact .none
    | some p => exact .some ⟨rfl, pool, rfl⟩
  fresh := by
    rintro c _ ⟨pool, rfl⟩
    exact ⟨pool.fresh.2, rfl⟩
  remaining := by
    rintro c _ ⟨pool, rfl⟩
    rfl

end Cursor

/-! ## Trees with other pools -/

namespace SyntaxTree

/-- **The same up to identity.** Two trees with the same root, directives, status and counts. -/
structure SameUpToIdentity (a b : SyntaxTree) : Prop where
  shape : a.root.shape = b.root.shape
  directives : a.directives = b.directives
  status : a.status = b.status
  counts : a.counts = b.counts

theorem ofCursor_repool (snapshot : Snapshot) (options : Options) (entry : EntryPoint) (c : Cursor) (pool : Pool) :
    SameUpToIdentity (ofCursor snapshot options entry (c.repool pool)).1 (ofCursor snapshot options entry c).1 := by
  obtain ⟨hshape, hstatus, pool', hsource⟩ :=
    Cursor.poolSimulation.parse (s := c) (t := c.repool pool) ⟨pool, rfl⟩ options.version entry
  refine ⟨hshape.symm, ?_, hstatus.symm, ?_⟩
  · show (parse options.version entry (c.repool pool)).source.table = _
    rw [hsource]
    rfl
  · show (parse options.version entry (c.repool pool)).source.counts = _
    rw [hsource]
    rfl

/-- **The pool decides sharing only.** Every request for a token gets one with the leaf asked for, whatever was
asked for before. The pool never holds more tokens than its limit, and a later request gets the token of an
earlier one just if both ask for the same poolable leaf and this leaf was in the pool right behind the earlier
one. So the tree of a text, and that of a text after changes, are the same as with an empty pool. -/
theorem sharing_only (calls : List Leaf) :
    (((Pool.answer {} calls).1.map Token.leaf = calls ∧ (Pool.answer {} calls).2.entries.length ≤ 8192) ∧
      ∀ (i j : Nat) (hij : i < j) (hj : j < calls.length),
        ((Pool.answer {} calls).1[i]?.map Token.id = (Pool.answer {} calls).1[j]?.map Token.id ↔
          calls[i] = calls[j] ∧ calls[j].isPoolable = true ∧
            ((Pool.answer {} (calls.take (i + 1))).2.find? calls[j]).isSome = true)) ∧
      (∀ (w : Workspace) (text : Text) (options : Options) (entry : EntryPoint),
        SameUpToIdentity (ofText { w with pool := (Pool.answer {} calls).2 } text options entry).1
          (ofText { w with pool := {} } text options entry).1) ∧
      ∀ (t : SyntaxTree) (snapshot : Snapshot) (changes : ChangeSet),
        SameUpToIdentity (t.reparse snapshot changes (Pool.answer {} calls).2).1 (t.reparse snapshot changes {}).1 := by
  have hwell := Pool.wellFormed_answer Pool.wellFormed_empty calls
  refine ⟨⟨⟨Pool.leaves_answer _ _, ?_⟩, fun i j hij hj => Pool.id_answer_eq_iff hij hj⟩, ?_, ?_⟩
  · exact hwell.count ▸ hwell.count_le
  · intro w text options entry
    exact ofCursor_repool _ _ _ (.atStart text (initialContext options) {}) _
  · intro t snapshot changes
    exact ofCursor_repool _ _ _ (.afterEdit t.asOld changes snapshot.text (initialContext t.options) {}) _

/-- A name that is asked for twice gets the same token both times, but with a comment behind it a new one. -/
theorem sharing_only_names :
    let name : Leaf := { kind := .token .ident, text := ['x'] }
    let commented : Leaf := { name with trailing := [⟨.trivia .singleLineComment, ['/', '/']⟩] }
    let calls := [name, commented, name, commented]
    (Pool.answer {} calls).1[0]?.map Token.id = (Pool.answer {} calls).1[2]?.map Token.id ∧
      (Pool.answer {} calls).1[1]?.map Token.id ≠ (Pool.answer {} calls).1[3]?.map Token.id := by
  intro name commented calls
  have hshared := ((sharing_only calls).1.2 0 2 (by decide) (by decide)).2
  have hnew := ((sharing_only calls).1.2 1 3 (by decide) (by decide)).1
  refine ⟨hshared ⟨rfl, by decide, by decide⟩, fun h => ?_⟩
  have hpoolable : commented.isPoolable = true := (hnew h).2.1
  exact absurd hpoolable (by decide)

end SyntaxTree

end IncrementalSyntax

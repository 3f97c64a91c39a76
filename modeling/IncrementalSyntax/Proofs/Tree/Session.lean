import IncrementalSyntax.Proofs.Stream.Blender
import IncrementalSyntax.Proofs.Text.History
import IncrementalSyntax.Proofs.Tree.Parsed

/-!
# Sessions

A session parses texts, makes new trees out of old ones, by changes to a text or by way of a later snapshot,
and puts annotations on trees. Snapshots may be derived and let go of at any time. Whatever happens, every
tree has the tokens and the directives of its text, and its statements and members are built again out of
their tokens.

A new tree is the one that a fresh parse gives, unless an `else` gets lost. That can happen where text is
added at the end of an old text that ends with a line feed: an `if` at the end of the old text is used again
although an `else` comes behind it now.

## Main definitions

* `Reparse`: a tree made out of an old one
* `Session`: what a workspace, its trees and its snapshots can become

## Main results

* `Session.valid`: every tree of a session is valid
* `Session.forall_trees`: what holds of every tree
* `Session.tokens_spec`: every tree of a session has the tokens of its text
* `Session.buffer_spec`: a buffer over an old tree of a session mirrors a scan
* `Session.blender_spec`: so does a blender, with its one table
* `Session.agreement_spec`: when a new tree is the one that a fresh parse gives
-/

namespace IncrementalSyntax

open SyntaxTree (ofText initialContext)

/-- **Reparse.** A new tree out of an old one: after changes to its text, or that of a snapshot by way of the
changes that lead to it. -/
inductive Reparse (w : Workspace) (made : List Snapshot) (t : SyntaxTree) :
    ChangeSet → SyntaxTree → Workspace → Prop
  | edit {changes : ChangeSet} {t' : SyntaxTree} {w' : Workspace} (h : t.edit w changes = .ok (t', w')) :
      Reparse w made t changes t' w'
  | update {s : Snapshot} {changes : ChangeSet} {t' : SyntaxTree} {w' : Workspace} (hs : s ∈ made)
      (hchanges : w.history.changesBetween t.snapshot s = .ok changes) (h : t.update w s = .ok (t', w')) :
      Reparse w made t changes t' w'

/-- **Session.** A workspace with the trees and the snapshots made in it so far. Changes to a text lead to a
new tree if they are allowed. -/
inductive Session (allowed : Text → ChangeSet → Prop) : Workspace → List SyntaxTree → List Snapshot → Prop
  | start : Session allowed {} [] []
  | parse {w : Workspace} {trees : List SyntaxTree} {made : List Snapshot} (text : Text) (options : Options)
      (entry : EntryPoint) (h : Session allowed w trees made) :
      Session allowed (ofText w text options entry).2 ((ofText w text options entry).1 :: trees)
        ((ofText w text options entry).1.snapshot :: made)
  | reparse {w w' : Workspace} {trees : List SyntaxTree} {made : List Snapshot} {t t' : SyntaxTree}
      {changes : ChangeSet} (h : Session allowed w trees made) (ht : t ∈ trees) (hallowed : allowed t.text changes)
      (hr : Reparse w made t changes t' w') : Session allowed w' (t' :: trees) (t'.snapshot :: made)
  | annotate {w w' : Workspace} {trees : List SyntaxTree} {made : List Snapshot} {t t' : SyntaxTree} {r : Red}
      {path : List Nat} {a : Annotation} (h : Session allowed w trees made) (ht : t ∈ trees)
      (hr : t.red.follow? path = some r) (ha : t.annotate w r a = some (t', w')) :
      Session allowed w' (t' :: trees) made
  | derive {w : Workspace} {trees : List SyntaxTree} {made : List Snapshot} {base s : Snapshot}
      {changes : ChangeSet} {history : History} (h : Session allowed w trees made) (hbase : base ∈ made)
      (hs : w.history.derive base changes = .ok (s, history)) :
      Session allowed { w with history := history } trees (s :: made)
  | hold {w : Workspace} {trees : List SyntaxTree} {made : List Snapshot} {s : Snapshot}
      (h : Session allowed w trees made) (hs : s ∈ made) :
      Session allowed { w with history := w.history.hold s } trees made
  | release {w : Workspace} {trees : List SyntaxTree} {made : List Snapshot} (s : Snapshot)
      (h : Session allowed w trees made) : Session allowed { w with history := w.history.release s } trees made

/-! ## One new tree out of an old one -/

theorem History.Orderly.cons_of_mem {h : History} {made : List Snapshot} (ho : h.Orderly made) {s : Snapshot}
    (hs : s ∈ made) : h.Orderly (s :: made) := by
  have hmem : ∀ a ∈ s :: made, a ∈ made := fun a ha => (List.mem_cons.1 ha).elim (fun e => e ▸ hs) id
  refine ⟨fun a ha => List.mem_cons_of_mem _ (ho.held a ha), fun a ha => ho.version_lt a (hmem a ha),
    fun a ha b hb => ho.version_inj a (hmem a ha) b (hmem b hb), fun a ha o horigin => ?_⟩
  obtain ⟨base, hbase, hrest⟩ := ho.origin a (hmem a ha) o horigin
  exact ⟨base, List.mem_cons_of_mem _ hbase, hrest⟩

/-- A new tree is parsed with elements of the old tree at hand and with the pool of the workspace. Its snapshot is derived
by the changes, or it is a later one to which the changes lead. -/
theorem Reparse.cases {w w' : Workspace} {made : List Snapshot} {t t' : SyntaxTree} {changes : ChangeSet}
    (hr : Reparse w made t changes t' w') :
    (t' = (t.reparse t'.snapshot changes w.pool).1 ∧ w'.pool = (t.reparse t'.snapshot changes w.pool).2) ∧
      (w.history.derive t.snapshot changes = .ok (t'.snapshot, w'.history) ∨
        t'.snapshot ∈ made ∧ w.history.changesBetween t.snapshot t'.snapshot = .ok changes ∧
          w'.history = w.history.hold t'.snapshot) := by
  cases hr with
  | edit h =>
    unfold SyntaxTree.edit at h
    cases hs : w.history.derive t.snapshot changes with
    | error e =>
      rw [hs] at h
      cases h
    | ok s =>
      rw [hs] at h
      cases h
      exact ⟨⟨rfl, rfl⟩, .inl rfl⟩
  | update hs hchanges h =>
    unfold SyntaxTree.update at h
    rw [hchanges] at h
    cases h
    exact ⟨⟨rfl, rfl⟩, .inr ⟨hs, hchanges, rfl⟩⟩

/-- The changes of a new tree lead to its text, and it is parsed with elements of the old tree at hand. -/
theorem Reparse.spec {w w' : Workspace} {made : List Snapshot} {t t' : SyntaxTree} {changes : ChangeSet}
    (hr : Reparse w made t changes t' w') (ho : w.history.Orderly made) (ht : t.snapshot ∈ made) :
    changes.applyTo t.text = .ok t'.text ∧ w'.history.Orderly (t'.snapshot :: made) ∧
      ∃ pool, t' = (t.reparse t'.snapshot changes pool).1 := by
  obtain ⟨⟨htree, -⟩, hderive | ⟨hs, hchanges, hhistory⟩⟩ := hr.cases
  · obtain ⟨horderly, happly⟩ := ho.derive ht hderive
    exact ⟨happly, horderly, w.pool, htree⟩
  · rw [hhistory]
    exact ⟨ho.applyTo_changesBetween ht hs hchanges, (ho.hold hs).cons_of_mem hs, w.pool, htree⟩

namespace SyntaxTree

/-- The cursor of a reparse stands at the start of the new text. -/
theorem at_reparse {t : SyntaxTree} (h : t.Valid) {text : Text} {changes : ChangeSet}
    (happly : changes.applyTo t.text = .ok text) (pool : Pool) :
    Cursor.At t.options.symbols text changes (some ⟨t.asOld, changes.spans⟩) []
      (.afterEdit t.asOld changes text (initialContext t.options) pool) :=
  Cursor.at_afterEdit h.old happly pool

theorem sound_reparse {t : SyntaxTree} (h : t.Valid) {spans : List (Range × Range)} :
    ∀ r, some (⟨t.asOld, spans⟩ : Reuse) = some r → r.old.root.SoundWherePlain t.options.version := by
  rintro r ⟨⟩
  exact h.sound

theorem valid_reparse {t : SyntaxTree} (h : t.Valid) {snapshot : Snapshot} {changes : ChangeSet}
    (happly : changes.applyTo t.text = .ok snapshot.text) (pool : Pool) :
    (t.reparse snapshot changes pool).1.Valid :=
  valid_ofCursor snapshot t.entry (at_reparse h happly pool) (sound_reparse h)

theorem valid_ofText (w : Workspace) (text : Text) (options : Options) (entry : EntryPoint) :
    (ofText w text options entry).1.Valid :=
  valid_ofCursor (w.history.begin text).1 entry (Cursor.at_atStart options.symbols text .empty w.pool) nofun

/-- An element of the tree, and no other, can get an annotation. The pool goes on behind the identities of the copies. -/
theorem annotate_eq_some_iff {w w' : Workspace} {t t' : SyntaxTree} {r : Red} {a : Annotation} :
    t.annotate w r a = some (t', w') ↔ t.owns r = true ∧
      t' = { t with root := (r.replaceWith (w.pool.nextId + 1) (r.green.annotate w.pool.nextId a)).1 } ∧
      w' = ⟨w.history.hold t.snapshot,
        { w.pool with nextId := (r.replaceWith (w.pool.nextId + 1) (r.green.annotate w.pool.nextId a)).2 }⟩ := by
  rw [annotate]
  split
  · next howns => simp [howns, Pool.fresh, eq_comm]
  · next howns => simp [howns]

/-- An annotation changes nothing but itself. -/
theorem valid_annotate {w w' : Workspace} {t t' : SyntaxTree} {r : Red} {path : List Nat} {a : Annotation}
    (h : t.Valid) (hr : t.red.follow? path = some r) (ha : t.annotate w r a = some (t', w')) :
    t'.Valid ∧ t'.snapshot = t.snapshot ∧ Green.Annotated t.root t'.root ∧
      w'.history = w.history.hold t.snapshot := by
  obtain ⟨-, rfl, rfl⟩ := annotate_eq_some_iff.1 ha
  have hcopy := Red.annotated_replaceWith hr w.pool.nextId (w.pool.nextId + 1) a
  refine ⟨⟨⟨hcopy.fine h.old.fine, hcopy.ending h.old.ending, ?_, h.old.initial, h.old.entries⟩,
    hcopy.soundWherePlain h.old.fine.exact h.sound⟩, rfl, hcopy, rfl⟩
  exact hcopy.scannedAll_eq.trans h.old.scanned

/-- The root can always get an annotation. -/
theorem exists_annotate_red (t : SyntaxTree) (w : Workspace) (a : Annotation) :
    ∃ g w', t.annotate w t.red a = some ({ t with root := g }, w') := by
  have howns : t.owns t.red = true := by
    show t.root.isSame t.root = true
    cases t.root <;> simp [Green.isSame, Token.isSame]
  rw [annotate, if_pos howns]
  exact ⟨_, _, rfl⟩

end SyntaxTree

/-! ## All trees of a session -/

namespace Session

variable {allowed : Text → ChangeSet → Prop} {w w' : Workspace} {trees : List SyntaxTree} {made : List Snapshot}
variable {t t' : SyntaxTree} {changes : ChangeSet}

/-- Every tree of a session is valid, and its snapshot is one of the session. -/
theorem valid (h : Session allowed w trees made) :
    w.history.Orderly made ∧ ∀ t ∈ trees, t.Valid ∧ t.snapshot ∈ made := by
  induction h with
  | start => exact ⟨⟨by simp, by simp, by simp, by simp⟩, nofun⟩
  | @parse w trees made text options entry h ih =>
    refine ⟨ih.1.begin text, List.forall_mem_cons.2 ⟨?_, fun t ht => ?_⟩⟩
    · exact ⟨SyntaxTree.valid_ofText w text options entry, List.mem_cons_self⟩
    · exact ⟨(ih.2 t ht).1, List.mem_cons_of_mem _ (ih.2 t ht).2⟩
  | @reparse w w' trees made t t' changes h ht hallowed hr ih =>
    obtain ⟨hvalid, hsnapshot⟩ := ih.2 t ht
    obtain ⟨happly, horderly, pool, heq⟩ := hr.spec ih.1 hsnapshot
    refine ⟨horderly, List.forall_mem_cons.2 ⟨?_, fun u hu => ?_⟩⟩
    · exact ⟨heq ▸ SyntaxTree.valid_reparse hvalid happly pool, List.mem_cons_self⟩
    · exact ⟨(ih.2 u hu).1, List.mem_cons_of_mem _ (ih.2 u hu).2⟩
  | @annotate w w' trees made t t' r path a h ht hr ha ih =>
    obtain ⟨hvalid, hsnapshot⟩ := ih.2 t ht
    obtain ⟨hvalid', hsame, -, hhistory⟩ := SyntaxTree.valid_annotate hvalid hr ha
    refine ⟨hhistory ▸ ih.1.hold hsnapshot, List.forall_mem_cons.2 ⟨⟨hvalid', hsame ▸ hsnapshot⟩, ih.2⟩⟩
  | derive h hbase hs ih =>
    exact ⟨(ih.1.derive hbase hs).1, fun t ht => ⟨(ih.2 t ht).1, List.mem_cons_of_mem _ (ih.2 t ht).2⟩⟩
  | hold h hs ih => exact ⟨ih.1.hold hs, ih.2⟩
  | release s h ih => exact ⟨ih.1.release s, ih.2⟩

/-- **What holds of every tree.** It holds of a parse that may take elements from a tree of which it holds, and of a
copy with one more annotation. -/
theorem forall_trees {P : SyntaxTree → Prop}
    (hparse : ∀ (snapshot : Snapshot) {options : Options} (entry : EntryPoint) {set : ChangeSet} {reuse : Option Reuse}
      {cursor : Cursor}, cursor.At options.symbols snapshot.text set reuse [] →
      (∀ r, reuse = some r → r.old.root.SoundWherePlain options.version) →
      (∀ r, reuse = some r → ∃ t, P t ∧ r.old = t.asOld) → P (SyntaxTree.ofCursor snapshot options entry cursor).1)
    (hannotate : ∀ t g, t.Valid → P t → Green.Annotated t.root g → P { t with root := g })
    (h : Session allowed w trees made) : ∀ t ∈ trees, P t := by
  induction h with
  | start => nofun
  | @parse w trees made text options entry h ih =>
    refine List.forall_mem_cons.2 ⟨?_, ih⟩
    exact hparse (w.history.begin text).1 entry (Cursor.at_atStart options.symbols text .empty w.pool) nofun nofun
  | @reparse w w' trees made t t' changes h ht hallowed hr ih =>
    refine List.forall_mem_cons.2 ⟨?_, ih⟩
    obtain ⟨hvalid, hsnapshot⟩ := h.valid.2 t ht
    obtain ⟨happly, -, pool, heq⟩ := hr.spec h.valid.1 hsnapshot
    rw [heq]
    refine hparse t'.snapshot t.entry (SyntaxTree.at_reparse hvalid happly pool) (SyntaxTree.sound_reparse hvalid) ?_
    rintro r ⟨⟩
    exact ⟨t, ih t ht, rfl⟩
  | @annotate w w' trees made t t' r path a h ht hr ha ih =>
    refine List.forall_mem_cons.2 ⟨?_, ih⟩
    obtain ⟨hvalid, -⟩ := h.valid.2 t ht
    obtain ⟨-, -, hcopy, -⟩ := SyntaxTree.valid_annotate hvalid hr ha
    have heq : t' = { t with root := t'.root } := by
      obtain ⟨-, rfl, -⟩ := SyntaxTree.annotate_eq_some_iff.1 ha
      rfl
    rw [heq]
    exact hannotate t _ hvalid (ih t ht) hcopy
  | derive h hbase hs ih => exact ih
  | hold h hs ih => exact ih
  | release s h ih => exact ih

/-- **The tokens of a tree.** Every tree of a session has the tokens of its text, one for one, its text and
its width are those of the text, and its directives are those that a scan of the text finds. -/
theorem tokens_spec (h : Session allowed w trees made) (ht : t ∈ trees) :
    Green.scannedAll [t.root] = tokenize t.options.symbols t.text ∧ t.root.text = t.text ∧
      t.root.width = t.text.width ∧
      ∀ pool, t.directives = (Buffer.scanAll t.options.symbols t.text pool).directives := by
  have hvalid := (h.valid.2 t ht).1
  refine ⟨hvalid.old.scanned, hvalid.old.text_eq, hvalid.old.width_eq, fun pool => ?_⟩
  obtain ⟨hfilled, hleaves⟩ := Buffer.filled_scanAll t.options.symbols t.text pool
  obtain ⟨hs, hinitial, -⟩ := hfilled.scanned
  obtain ⟨c, r, hs'⟩ := hvalid.old.entries
  rw [hleaves] at hs
  rw [Buffer.directives, Buffer.cursor_eq]
  exact DirectiveTable.eq_of (hvalid.old.initial.trans hinitial.symm) (hs'.functional hs).2.2

/-- A text is parsed and edited, and the new tree gets an annotation. -/
theorem tokens_spec_annotated : ∃ (w : Workspace) (trees : List SyntaxTree) (made : List Snapshot) (t : SyntaxTree),
    Session (fun _ _ => True) w trees made ∧ t ∈ trees ∧ t.text = ['a', '+', 'b', ';'] ∧
      t.root.flags.annotations = true ∧ Green.scannedAll [t.root] = tokenize [] ['a', '+', 'b', ';'] := by
  have h₀ : Session (fun _ _ => True) _ _ _ := .parse ['a', ';'] {} .statement .start
  obtain ⟨t₁, w₁, hedit, htext⟩ : ∃ t₁ w₁, (ofText {} ['a', ';'] {} .statement).1.edit
      (ofText {} ['a', ';'] {} .statement).2 (.single ⟨⟨1, 0⟩, ['+', 'b']⟩) = .ok (t₁, w₁) ∧
      t₁.text = ['a', '+', 'b', ';'] ∧ t₁.options = {} := ⟨_, _, rfl, rfl, rfl⟩
  have h₁ := h₀.reparse (List.mem_singleton_self _) trivial (.edit hedit)
  have howns : t₁.owns t₁.red = true := by
    show t₁.root.isSame t₁.root = true
    cases t₁.root <;> simp [Green.isSame, Token.isSame]
  obtain ⟨t₂, w₂, hannotate, htext₂⟩ : ∃ t₂ w₂, t₁.annotate w₁ t₁.red ⟨0, "m", none⟩ = some (t₂, w₂) ∧
      t₂.text = t₁.text ∧ t₂.options = t₁.options := by
    rw [SyntaxTree.annotate, if_pos howns]
    exact ⟨_, _, rfl, rfl, rfl⟩
  have hroot : t₁.red.follow? [] = some t₁.red := rfl
  have h₂ := h₁.annotate List.mem_cons_self hroot hannotate
  have hspec := (h₂.tokens_spec List.mem_cons_self).1
  rw [htext₂.1, htext₂.2, htext.1, htext.2] at hspec
  refine ⟨_, _, _, t₂, h₂, List.mem_cons_self, htext₂.1.trans htext.1, ?_, hspec⟩
  have hvalid := (h₁.valid.2 t₁ List.mem_cons_self).1
  exact (SyntaxTree.valid_annotate hvalid hroot hannotate).2.2.1.annotations_eq_true hvalid.old.fine.exact

/-- **Buffers over old trees.** However a buffer is used over an old tree of a session, or over a text alone,
its slots mirror a scan of the text. -/
theorem buffer_spec (h : Session allowed w trees made) (ht : t ∈ trees) {text : Text}
    (happly : changes.applyTo t.text = .ok text) {pool : Pool} {front : Cursor}
    (hfront : front = .afterEdit t.asOld changes text (initialContext t.options) pool ∨
      front = .atStart text (initialContext t.options) pool)
    {b : Buffer} (hrun : Buffer.Run ⟨front, []⟩ b) : b.MirrorsScan t.options.symbols text := by
  have hvalid := (h.valid.2 t ht).1
  rcases hfront with rfl | rfl
  · obtain ⟨hfilled, hb⟩ := hrun.filled (SyntaxTree.at_reparse hvalid happly pool)
    exact (hb ▸ hfilled).mirrorsScan
  · obtain ⟨hfilled, hb⟩ := hrun.filled (Cursor.at_atStart t.options.symbols text .empty pool)
    exact (hb ▸ hfilled).mirrorsScan

/-- Slots over an edited text: one is filled, an old node is asked for, and slots are dropped. -/
theorem buffer_spec_dropped : ∃ (t : SyntaxTree) (changes : ChangeSet) (b : Buffer),
    t.text = ['a', ';', 'b', ';'] ∧ changes.applyTo t.text = .ok ['c', ';', 'b', ';'] ∧ b.slots.length = 2 ∧
      b.MirrorsScan [] ['c', ';', 'b', ';'] := by
  let old : Text := ['a', ';', 'b', ';']
  let changes : ChangeSet := .single ⟨⟨0, 1⟩, ['c']⟩
  let t₀ : SyntaxTree := (ofText {} old {} .compilationUnit).1
  have h₀ : Session (fun _ _ => True) _ [t₀] _ := .parse old {} .compilationUnit .start
  let start : Buffer := ⟨.afterEdit t₀.asOld changes ['c', ';', 'b', ';'] (initialContext {}) {}, []⟩
  have hrun : Buffer.Run start (((start.fillTo 3).tryReuse 2 NodeKind.isMember).2.truncate 2) :=
    .truncate 2 (.tryReuse 2 NodeKind.isMember (.fillTo 3 .start))
  have happly : changes.applyTo t₀.text = .ok ['c', ';', 'b', ';'] := rfl
  exact ⟨t₀, changes, _, rfl, happly, by decide +kernel,
    h₀.buffer_spec (List.mem_singleton_self _) happly (.inl rfl) hrun⟩

/-- **Blenders over old trees.** After any requests a blender over an old tree of a session holds the first
tokens of the new text, and its table the directives that scanning as many tokens finds. -/
theorem blender_spec (h : Session allowed w trees made) (ht : t ∈ trees) {text : Text}
    (happly : changes.applyTo t.text = .ok text) (pool : Pool) (requests : List Buffer.Request) :
    let b := requests.foldl Blender.serve (.afterEdit t.asOld changes text (initialContext t.options) pool)
    b.leaves <+: tokenize t.options.symbols text ∧
      ∀ pool', b.table = (Buffer.scanOnly t.options.symbols text pool' b.leaves.length).directives :=
  Blender.mirrors_scan (SyntaxTree.at_reparse (h.valid.2 t ht).1 happly pool)
    (Blender.matches_afterEdit t.asOld changes text (initialContext t.options) pool) requests

/-- A new tree is the one that a fresh parse gives, just if no `else` got lost in it. -/
theorem agrees_iff (h : Session allowed w trees made) (ht : t ∈ trees) (hr : Reparse w made t changes t' w')
    (v : Workspace) :
    t'.Agrees (ofText v t'.text t.options t.entry).1 ↔ t'.root.missesElse .eof = false := by
  obtain ⟨hvalid, hsnapshot⟩ := h.valid.2 t ht
  obtain ⟨happly, -, pool, heq⟩ := hr.spec h.valid.1 hsnapshot
  have hagrees := SyntaxTree.agrees_ofCursor_iff t'.snapshot t.entry (v.history.begin t'.text).1
    (SyntaxTree.at_reparse hvalid happly pool) (SyntaxTree.sound_reparse hvalid)
    (Cursor.at_atStart t.options.symbols t'.text .empty v.pool) rfl
  have hcursor : (SyntaxTree.ofCursor t'.snapshot t.options t.entry
      (.afterEdit t.asOld changes t'.text (initialContext t.options) pool)).1 = t' := heq.symm
  rw [hcursor] at hagrees
  exact hagrees

/-- An `else` gets lost only where text is added at the end of a line, or if one was lost in the old tree. -/
theorem missesElse_of_reparse (h : Session allowed w trees made) (ht : t ∈ trees) (hr : Reparse w made t changes t' w')
    (hlost : t'.root.missesElse .eof = true) :
    t.root.missesElse .eof = true ∨ Reuse.AddsBehindLine t.text changes := by
  obtain ⟨hvalid, hsnapshot⟩ := h.valid.2 t ht
  obtain ⟨happly, -, pool, heq⟩ := hr.spec h.valid.1 hsnapshot
  by_contra hcareful
  rw [not_or, Bool.not_eq_true] at hcareful
  rw [heq] at hlost
  have hkept := SyntaxTree.missesElse_ofCursor t'.snapshot t.entry (SyntaxTree.at_reparse hvalid happly pool)
    (SyntaxTree.sound_reparse hvalid) fun r hr => by
      obtain rfl := Option.some.inj hr
      exact ⟨hcareful.2, hcareful.1⟩
  exact Bool.false_ne_true (hkept.symm.trans hlost)

/-- Where no text is added at the end of a line, no tree of a session lost an `else`. -/
theorem missesElse_eq_false (h : Session allowed w trees made)
    (hallowed : ∀ text set, allowed text set → ¬ Reuse.AddsBehindLine text set) :
    ∀ t ∈ trees, t.root.missesElse .eof = false := by
  induction h with
  | start => nofun
  | @parse w trees made text options entry h ih =>
    refine List.forall_mem_cons.2 ⟨?_, ih⟩
    exact SyntaxTree.missesElse_ofCursor (w.history.begin text).1 entry
      (Cursor.at_atStart options.symbols text .empty w.pool) nofun nofun
  | @reparse w w' trees made t t' changes h ht hstep hr ih =>
    refine List.forall_mem_cons.2 ⟨?_, ih⟩
    by_contra hlost
    rcases h.missesElse_of_reparse ht hr (Bool.eq_true_of_not_eq_false hlost) with hold | hadds
    · exact Bool.false_ne_true ((ih t ht).symm.trans hold)
    · exact hallowed _ _ hstep hadds
  | @annotate w w' trees made t t' r path a h ht hr ha ih =>
    refine List.forall_mem_cons.2 ⟨?_, ih⟩
    obtain ⟨-, -, hcopy, -⟩ := SyntaxTree.valid_annotate (h.valid.2 t ht).1 hr ha
    exact (hcopy.missesElse_eq .eof).trans (ih t ht)
  | derive h hbase hs ih => exact ih
  | hold h hs ih => exact ih
  | release s h ih => exact ih

/-- **A new tree is the one that a fresh parse gives**, just if no `else` got lost in it. One gets lost only where text
is added at the end of a text that ends with a line feed, or if one was lost in the old tree. So where this is never
done, all new trees are those that fresh parses give. -/
theorem agreement_spec (h : Session allowed w trees made) (ht : t ∈ trees) (hr : Reparse w made t changes t' w')
    (v : Workspace) :
    (t'.Agrees (ofText v t'.text t.options t.entry).1 ↔ t'.root.missesElse .eof = false) ∧
    (t'.root.missesElse .eof = true → t.root.missesElse .eof = true ∨ Reuse.AddsBehindLine t.text changes) ∧
    ((∀ text set, allowed text set → ¬ Reuse.AddsBehindLine text set) → ¬ Reuse.AddsBehindLine t.text changes →
      t'.Agrees (ofText v t'.text t.options t.entry).1) := by
  refine ⟨h.agrees_iff ht hr v, h.missesElse_of_reparse ht hr, fun hallowed hadds => (h.agrees_iff ht hr v).2 ?_⟩
  by_contra hlost
  rcases h.missesElse_of_reparse ht hr (Bool.eq_true_of_not_eq_false hlost) with hold | hadds'
  · exact Bool.false_ne_true ((h.missesElse_eq_false hallowed t ht).symm.trans hold)
  · exact hadds hadds'

/-- An `else` behind an `if` at the end of a text that does not end with a line feed. -/
theorem agreement_spec_addElse : ∃ (w w' : Workspace) (trees : List SyntaxTree) (made : List Snapshot) (t t' : SyntaxTree)
    (changes : ChangeSet), Session (fun text changes => ¬ Reuse.AddsBehindLine text changes) w trees made ∧
      t ∈ trees ∧ Reparse w made t changes t' w' ∧ t.text = ['i', 'f', '(', 'a', ')', 'b', ';'] ∧
      t'.text = t.text ++ ['e', 'l', 's', 'e', ' ', 'c', ';'] ∧
      t'.Agrees (ofText {} t'.text t.options t.entry).1 := by
  let old : Text := ['i', 'f', '(', 'a', ')', 'b', ';']
  have h₀ : Session (fun text changes => ¬ Reuse.AddsBehindLine text changes) _ _ _ :=
    .parse old {} .statement .start
  obtain ⟨t₁, w₁, hedit, htext⟩ : ∃ t₁ w₁, (ofText {} old {} .statement).1.edit (ofText {} old {} .statement).2
      (.single ⟨⟨7, 0⟩, ['e', 'l', 's', 'e', ' ', 'c', ';']⟩) = .ok (t₁, w₁) ∧
      t₁.text = old ++ ['e', 'l', 's', 'e', ' ', 'c', ';'] := ⟨_, _, rfl, rfl⟩
  exact ⟨_, w₁, _, _, _, t₁, _, h₀, List.mem_singleton_self _, .edit hedit, rfl, htext,
    (h₀.agreement_spec (List.mem_singleton_self _) (.edit hedit) {}).2.2 (fun _ _ => id)
      fun h => absurd h.1 (by decide)⟩

/-- **An `else` gets lost** where it is added behind an `if` at the end of a text that ends with a line feed. -/
theorem not_agrees_addElse : ∃ (w w' : Workspace) (trees : List SyntaxTree) (made : List Snapshot)
    (t t' : SyntaxTree) (changes : ChangeSet), Session (fun _ _ => True) w trees made ∧ t ∈ trees ∧
      Reparse w made t changes t' w' ∧ t.text = ['i', 'f', ' ', '(', 'a', ')', ' ', 'b', ';', '\n'] ∧
      t'.text = t.text ++ ['e', 'l', 's', 'e', ' ', 'c', ';'] ∧
      ∀ v, ¬ t'.Agrees (ofText v t'.text t.options t.entry).1 := by
  let old : Text := ['i', 'f', ' ', '(', 'a', ')', ' ', 'b', ';', '\n']
  let changes : ChangeSet := .single ⟨⟨10, 0⟩, ['e', 'l', 's', 'e', ' ', 'c', ';']⟩
  let w₀ : Workspace := (ofText {} old {} .statement).2
  let t₀ : SyntaxTree := (ofText {} old {} .statement).1
  have h₀ : Session (fun _ _ => True) w₀ [t₀] [t₀.snapshot] := .parse old {} .statement .start
  let s₁ : Snapshot := ⟨old ++ ['e', 'l', 's', 'e', ' ', 'c', ';'], 2, 1, some ⟨1, changes⟩⟩
  have hedit : ∃ w₁, t₀.edit w₀ changes = .ok ((t₀.reparse s₁ changes w₀.pool).1, w₁) := ⟨_, rfl⟩
  obtain ⟨w₁, hedit⟩ := hedit
  refine ⟨w₀, w₁, _, _, t₀, _, changes, h₀, List.mem_singleton_self _, .edit hedit, rfl, rfl, fun v hagrees => ?_⟩
  have hmiss := (h₀.agrees_iff (List.mem_singleton_self _) (.edit hedit) v).1 hagrees
  have hlost : (t₀.reparse s₁ changes w₀.pool).1.root.missesElse .eof = true := by decide +kernel
  rw [hlost] at hmiss
  cases hmiss

end Session

end IncrementalSyntax

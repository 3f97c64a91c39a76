import IncrementalSyntax.Proofs.Stream.Shared
import IncrementalSyntax.Proofs.Tree.Accepted
import IncrementalSyntax.Proofs.Tree.Session

/-!
# What lies before an edit is shared

A file without diagnostics consists of members. The parse of an edited text begins as the one before it did:
round by round it takes over the next member, as long as the edit begins behind all that was seen of it. With
no edit at all it takes over every member and has nothing left to scan but the end of the text.

## Main definitions

* `Cursor.TakenOver`: a cursor behind members of an old file, all of which were used again
* `SyntaxTree.SharesChild`: a child that two trees have in common

## Main results

* `Session.exists_consists`: a tree of a session is a file that consists of its members
* `atEnd_of_takenOver`: the rounds in front of an edit
* `Session.members_shared`: what lies before an edit is shared
-/

namespace IncrementalSyntax

open Green hiding id
open SyntaxTree (ofText initialContext)

/-! ## Rounds in front of an edit -/

/-- **Taken over.** The cursor stands behind members of an old file, and all that was done so far was to use
them again, one by one. -/
structure Cursor.TakenOver (symbols : List Text) (text : Text) (set : ChangeSet) (old : OldTree) (ms : List Green)
    (c : Cursor) : Prop where
  stands : c.At symbols text set (some ⟨old, set.spans⟩) (leavesAll ms)
  counts : c.counts = { tokens := 0, nodes := ms.length, scanned := 0 }

section Rounds

variable {version : LanguageVersion} {symbols : List Text} {text : Text} {set : ChangeSet} {old : OldTree}
variable {hsound : ∀ r, some (⟨old, set.spans⟩ : Reuse) = some r → r.old.root.SoundWherePlain version}
variable {ms bs : List Green} {m : Green} {c : Cursor} {q : Parser Cursor}

/-- **A round in front of an edit** takes over the next member. -/
theorem Parse.memberRound_of_takenOver (hq : Ready (.ofCursor version symbols text set _ hsound) q)
    (hold : old.Consists symbols (q.out ++ m :: bs)) (htaken : q.source.TakenOver symbols text set old q.out)
    (hfront : ∀ d ∈ set.changes.head?,
      lookaheadEnd old.text (Leaf.widthAll (leavesAll (q.out ++ [m]))) ≤ d.range.start) :
    (memberRound member none q).1 = true ∧ (memberRound member none q).2.out = q.out ++ [m] ∧
      (memberRound member none q).2.source.TakenOver symbols text set old (q.out ++ [m]) := by
  obtain ⟨c, hreuse, hat, hcounts⟩ := htaken.stands.exists_reuseNode? hold hfront
  rw [memberRound_of_reuse hq hreuse (hold.listed m (by simp))]
  refine ⟨rfl, rfl, hat, ?_⟩
  rw [hcounts, htaken.counts]
  simp [ReuseCounts.add]

/-- **The rounds in front of an edit.** A parse takes over the members in front of the edit one by one, and what
every round from there on preserves holds at its end. -/
theorem atEnd_of_takenOver {I Q : List Green → Cursor → Prop} (hold : old.Consists symbols (ms ++ bs))
    (hsound : ∀ r, some (⟨old, set.spans⟩ : Reuse) = some r → r.old.root.SoundWherePlain version)
    (hstart : c.TakenOver symbols text set old []) (hfront : ms ≠ [] → ∀ d ∈ set.changes.head?,
      lookaheadEnd old.text (Leaf.widthAll (leavesAll ms)) ≤ d.range.start)
    (htaken : ∀ c', c'.TakenOver symbols text set old ms → I ms c')
    (hround : Parse.RoundKeeps (.ofCursor version symbols text set _ hsound) I Q) :
    Q (Parser.atEnd version .compilationUnit c).out (Parser.atEnd version .compilationUnit c).source := by
  let S := Supply.ofCursor version symbols text set (some ⟨old, set.spans⟩) hsound
  let Taking (out : List Green) (c' : Cursor) : Prop :=
    ∃ bs', ms = out ++ bs' ∧ c'.TakenOver symbols text set old out
  have hok : S.Ok c := ⟨_, hstart.stands⟩
  -- either some members are still to be taken over, or all of them were
  refine atEnd_of_roundKeeps (I := fun out c' => Taking out c' ∨ I out c') hok (.inl ⟨ms, rfl, hstart⟩) ?_
  have hlast : ∀ out c', Taking out c' → (∃ m bs', ms = out ++ m :: bs' ∧ c'.TakenOver symbols text set old out) ∨
      I out c' := by
    rintro out c' ⟨_ | ⟨m, bs'⟩, hms, hc'⟩
    · rw [List.append_nil] at hms
      exact .inr (hms ▸ htaken c' (hms ▸ hc'))
    · exact .inl ⟨m, bs', hms, hc'⟩
  intro q hq hI
  rcases hI.elim (hlast _ _) .inr with ⟨m, bs', hms, hc'⟩ | hI
  · have hold' : old.Consists symbols (q.out ++ m :: (bs' ++ bs)) := by simpa [hms] using hold
    have hms' : ms = (q.out ++ [m]) ++ bs' := by simp [hms]
    obtain ⟨hgo, hout, htaken'⟩ := Parse.memberRound_of_takenOver hq hold' hc' fun d hd => by
      refine le_trans ?_ (hfront (by simp [hms]) d hd)
      rw [hms']
      exact (hms' ▸ hold).lookaheadEnd_le (by simp)
    constructor
    · rw [hout]
      exact .inl ⟨bs', hms', htaken'⟩
    · rw [hgo]
      exact fun h => Bool.noConfusion h
  · obtain ⟨hI', hQ⟩ := hround q hq hI
    exact ⟨.inr hI', hQ⟩

/-- The members in front of an edit are the first ones of the new file. -/
theorem prefix_atEnd (hold : old.Consists symbols (ms ++ bs))
    (hsound : ∀ r, some (⟨old, set.spans⟩ : Reuse) = some r → r.old.root.SoundWherePlain version)
    (hstart : c.TakenOver symbols text set old []) (hfront : ms ≠ [] → ∀ d ∈ set.changes.head?,
      lookaheadEnd old.text (Leaf.widthAll (leavesAll ms)) ≤ d.range.start) :
    ms <+: (Parser.atEnd version .compilationUnit c).out := by
  refine atEnd_of_takenOver (I := fun out _ => ms <+: out) (Q := fun out _ => ms <+: out) hold hsound hstart hfront
    (fun _ _ => List.prefix_rfl) fun q hq hprefix => ?_
  obtain ⟨es, hout, -⟩ := Parse.out_memberRound hq
  have hprefix' : ms <+: (Parse.memberRound Parse.member none q).2.out := by
    rw [hout]
    exact hprefix.trans (List.prefix_append _ _)
  exact ⟨hprefix', fun _ => hprefix'⟩

/-- Behind all members of a file nothing is left but the end of the text. -/
theorem OldTree.Consists.front_eq (hold : old.Consists symbols ms) (htext : text = old.text)
    (hq : Parse.Ready (.ofCursor version symbols text set _ hsound) q)
    (htaken : q.source.TakenOver symbols text set old ms) :
    Parse.front (.ofCursor version symbols text set _ hsound) q = .eof := by
  subst htext
  obtain ⟨l, htokens, hl⟩ := hold.exists_tokenize_eq
  have hrest := htaken.stands.scanned.tokenizeRest_eq htaken.stands.kinds
  rw [← tokenize_eq, htokens] at hrest
  show frontKind (tokenizeRest q.source.context q.source.rest) = .eof
  rw [← List.append_cancel_left hrest, frontKind_cons, hl]

/-- Without an edit all members are taken over, and nothing else is done. -/
theorem takenOver_atEnd (hold : old.Consists symbols ms)
    (hsound : ∀ r, some (⟨old, set.spans⟩ : Reuse) = some r → r.old.root.SoundWherePlain version)
    (hstart : c.TakenOver symbols text set old []) (hempty : set.changes = []) (htext : text = old.text) :
    (Parser.atEnd version .compilationUnit c).out = ms ∧
      (Parser.atEnd version .compilationUnit c).source.TakenOver symbols text set old ms := by
  have hold' : old.Consists symbols (ms ++ []) := by rwa [List.append_nil]
  refine atEnd_of_takenOver (I := fun out c' => out = ms ∧ c'.TakenOver symbols text set old ms)
    (Q := fun out c' => out = ms ∧ c'.TakenOver symbols text set old ms) hold' hsound hstart (by simp [hempty])
    (fun _ h => ⟨rfl, h⟩) ?_
  rintro q hq ⟨hout, htaken⟩
  -- behind the last member the round that comes is the last one
  have hround : Parse.memberRound Parse.member none q = (false, q) := by
    rw [Parse.memberRound_apply hq, if_pos (hold.front_eq htext hq htaken)]
    rfl
  rw [hround]
  exact ⟨⟨hout, htaken⟩, fun _ => ⟨hout, htaken⟩⟩

end Rounds

/-! ## Trees of a session -/

namespace SyntaxTree

/-- **Shares a child.** The other tree has the very same element at the same place. -/
def SharesChild (t t' : SyntaxTree) (i : Nat) : Prop :=
  ∃ r r', t.red.child? i = some r ∧ t'.red.child? i = some r' ∧ r'.green = r.green ∧ r'.isSame r = true

theorem reports_eq_nil_iff {t : SyntaxTree} (h : t.Valid) : t.reports = [] ↔ t.root.flags.diagnostics = false := by
  have hexact : t.root.Exact := h.old.fine.exact
  rw [show t.reports = (Red.ofRoot t.root).reports from rfl, Red.reports_eq_nil_iff hexact, hexact.flagged_iff]
  rw [Bool.not_eq_true]

theorem sharesChild_of_prefix {t t' : SyntaxTree} {ms : List Green} {i : Nat} (hexact : t.root.Exact)
    (hexact' : t'.root.Exact) (h : ms <+: t.root.children) (h' : ms <+: t'.root.children) (hi : i < ms.length) :
    t.SharesChild t' i := by
  obtain ⟨cs, h⟩ := h
  obtain ⟨cs', h'⟩ := h'
  have hchild : ∀ {u : SyntaxTree} {ds : List Green}, u.root.Exact → ms ++ ds = u.root.children →
      u.red.child? i = some ⟨ms[i], 0 + widthAll (ms.take i), [⟨u.root, 0, i⟩]⟩ := by
    intro u ds hu hds
    have hc : u.root.children[i]? = some ms[i] := by
      rw [← hds, List.getElem?_append_left hi, List.getElem?_eq_getElem hi]
    refine Red.child?_eq_some_iff.2 ⟨hc, ?_⟩
    show _ = Red.mk _ (0 + u.root.childStart i) _
    rw [hu.childStart_eq hc, ← hds, List.take_append_of_le_length hi.le]
    rfl
  refine ⟨_, _, hchild hexact h, hchild hexact' h', rfl, ?_⟩
  cases ms[i] <;> simp [Red.isSame, isSame, Token.isSame]

/-- Where a member of a file stands. -/
theorem exists_of_child? {t : SyntaxTree} {symbols : List Text} {ms : List Green} {i : Nat} {r : Red}
    (hexact : t.root.Exact) (hold : t.asOld.Consists symbols ms) (hr : t.red.child? i = some r)
    (hmember : r.green.nodeKind?.any NodeKind.isMember = true) :
    i < ms.length ∧ r.fullRange.stop = widthAll (ms.take (i + 1)) := by
  obtain ⟨e, hchildren, -⟩ := hold.children
  have hchildren : t.root.children = ms ++ [.token e] := hchildren
  obtain ⟨g, hroot, rfl⟩ := Option.map_eq_some_iff.1 hr
  have hg : (ms ++ [.token e])[i]? = some g := hchildren ▸ hroot
  have hi : i < ms.length := by
    by_contra hge
    rw [List.getElem?_append_right (by omega), List.getElem?_singleton] at hg
    split at hg
    · obtain rfl := Option.some.inj hg
      cases hmember
    · cases hg
  refine ⟨hi, ?_⟩
  rw [List.getElem?_append_left hi, List.getElem?_eq_getElem hi, Option.some_inj] at hg
  subst hg
  show 0 + t.root.childStart i + (ms[i]).width = _
  rw [hexact.childStart_eq hroot, hchildren, List.take_append_of_le_length hi.le, List.take_succ_eq_append_getElem hi, widthAll_append, Nat.zero_add]
  rfl

/-- A file without diagnostics and annotations consists of its members. -/
theorem exists_consists_ofCursor (snapshot : Snapshot) {options : Options} {set : ChangeSet} {reuse : Option Reuse}
    {cursor : Cursor} (hat : cursor.At options.symbols snapshot.text set reuse [])
    (hsound : ∀ r, reuse = some r → r.old.root.SoundWherePlain options.version)
    (hd : (ofCursor snapshot options .compilationUnit cursor).1.root.flags.diagnostics = false)
    (ha : (ofCursor snapshot options .compilationUnit cursor).1.root.flags.annotations = false) :
    ∃ ms, (ofCursor snapshot options .compilationUnit cursor).1.asOld.Consists options.symbols ms := by
  have hvalid := (valid_ofCursor snapshot .compilationUnit hat hsound).old
  let S := Supply.ofCursor options.version options.symbols snapshot.text set reuse hsound
  have hok : S.Ok cursor := ⟨[], hat⟩
  obtain ⟨ms, e, hchildren, he, hlisted⟩ := exists_listed hok fun hflag => by
    have hd' := hvalid.fine.exact.flagged_iff.1 hflag
    exact Bool.false_ne_true (hd.symm.trans hd')
  exact ⟨ms, hvalid, ⟨e, hchildren, he⟩, hd, ha, hlisted⟩

/-- Possible changes lead to a new tree. -/
theorem exists_edit (w : Workspace) {t : SyntaxTree} {changes : ChangeSet} {text : Text}
    (happly : changes.applyTo t.text = .ok text) :
    ∃ t' w', t.edit w changes = .ok (t', w') ∧ t'.text = text := by
  obtain ⟨s, hderive, hs⟩ : ∃ s, w.history.derive t.snapshot changes = .ok s ∧ s.1.text = text := by
    rw [History.derive, show changes.applyTo t.snapshot.text = .ok text from happly]
    exact ⟨_, rfl, rfl⟩
  rw [edit, hderive]
  exact ⟨_, _, rfl, hs⟩

section Reparse

variable {t : SyntaxTree} {snapshot : Snapshot} {changes : ChangeSet} {ms : List Green}

/-- The cursor in front of the last token of a file that is parsed again. -/
theorem exists_last (hvalid : t.Valid) (hentry : t.entry = .compilationUnit)
    (happly : changes.applyTo t.text = .ok snapshot.text) (pool : Pool) :
    let last := Parser.atEnd t.options.version .compilationUnit
      (Cursor.afterEdit t.asOld changes snapshot.text (initialContext t.options) pool)
    (t.reparse snapshot changes pool).1.root.children = last.out ++ [.token last.source.next.1] ∧
      last.source.next.1.leaf.tokenKind = .eof ∧
      (t.reparse snapshot changes pool).1.counts = last.source.counts.add .scanned := by
  intro last
  let S := Supply.ofCursor t.options.version t.options.symbols snapshot.text changes (some ⟨t.asOld, changes.spans⟩)
    (sound_reparse hvalid)
  have hok : S.Ok (.afterEdit t.asOld changes snapshot.text (initialContext t.options) pool) :=
    ⟨[], at_reparse hvalid happly pool⟩
  have heof : last.source.next.1.leaf.tokenKind = .eof := tokenKind_next_atEnd hok .compilationUnit
  rw [reparse, hentry]
  have hparse := parse_eq t.options.version .compilationUnit
    (Cursor.afterEdit t.asOld changes snapshot.text (initialContext t.options) pool)
  refine ⟨congrArg (fun p : Parsed Cursor => p.root.children) hparse, heof, ?_⟩
  rw [← Cursor.counts_next heof]
  exact congrArg (fun p : Parsed Cursor => p.source.counts) hparse

/-- A member in front of an edit is shared. -/
theorem sharesChild_reparse (hvalid : t.Valid) (hentry : t.entry = .compilationUnit)
    (hold : t.asOld.Consists t.options.symbols ms) (happly : changes.applyTo t.text = .ok snapshot.text) (pool : Pool)
    {i : Nat} {r : Red} (hr : t.red.child? i = some r) (hmember : r.green.nodeKind?.any NodeKind.isMember = true)
    (hfront : ∀ c ∈ changes.changes.head?, lookaheadEnd t.text r.fullRange.stop ≤ c.range.start) :
    t.SharesChild (t.reparse snapshot changes pool).1 i := by
  -- the members up to this one are the first children of both roots
  obtain ⟨hi, hstop⟩ := exists_of_child? hvalid.old.fine.exact hold hr hmember
  have hsplit : t.asOld.Consists t.options.symbols (ms.take (i + 1) ++ ms.drop (i + 1)) := by
    rwa [List.take_append_drop]
  rw [hstop, hsplit.widthAll_eq] at hfront
  have hprefix := prefix_atEnd hsplit (sound_reparse hvalid) ⟨at_reparse hvalid happly pool, rfl⟩ fun _ => hfront
  obtain ⟨e, hroot, -⟩ := hold.children
  have hold' : ms.take (i + 1) <+: t.root.children := by
    rw [show t.root.children = _ from hroot]
    exact (List.take_prefix _ _).trans (List.prefix_append _ _)
  have hnew : ms.take (i + 1) <+: (t.reparse snapshot changes pool).1.root.children := by
    rw [(exists_last hvalid hentry happly pool).1]
    exact hprefix.trans (List.prefix_append _ _)
  have hvalid' := valid_reparse hvalid happly pool
  apply sharesChild_of_prefix hvalid.old.fine.exact hvalid'.old.fine.exact hold' hnew
  rw [List.length_take]
  omega

/-- Without changes all members are used again, and only the end of the text is scanned. -/
theorem reparse_of_empty (hvalid : t.Valid) (hentry : t.entry = .compilationUnit)
    (hold : t.asOld.Consists t.options.symbols ms) (hempty : changes.changes = [])
    (happly : changes.applyTo t.text = .ok snapshot.text) (pool : Pool) :
    ∃ e, (t.reparse snapshot changes pool).1.root.children = ms ++ [.token e] ∧ e.leaf.tokenKind = .eof ∧
      (t.reparse snapshot changes pool).1.counts = { tokens := 0, nodes := ms.length, scanned := 1 } := by
  have htext : snapshot.text = t.text := by
    have hsame : changes.applyTo t.text = .ok t.text := by
      simp [ChangeSet.applyTo, ChangeSet.replaceFrom, hempty]
    exact Except.ok.inj (happly.symm.trans hsame)
  obtain ⟨hchildren, heof, hcounts⟩ := exists_last hvalid hentry happly pool
  obtain ⟨hout, htaken⟩ :=
    takenOver_atEnd hold (sound_reparse hvalid) ⟨at_reparse hvalid happly pool, rfl⟩ hempty htext
  rw [hout] at hchildren
  rw [htaken.counts] at hcounts
  exact ⟨_, hchildren, heof, hcounts⟩

end Reparse

end SyntaxTree

namespace Session

variable {allowed : Text → ChangeSet → Prop} {w : Workspace} {trees : List SyntaxTree} {made : List Snapshot}
variable {t : SyntaxTree}

/-- Every file of a session without diagnostics and annotations consists of its members. -/
theorem exists_consists (h : Session allowed w trees made) : ∀ t ∈ trees, t.entry = .compilationUnit →
    t.root.flags.diagnostics = false → t.root.flags.annotations = false →
      ∃ ms, t.asOld.Consists t.options.symbols ms := by
  refine h.forall_trees (P := fun t => t.entry = .compilationUnit → t.root.flags.diagnostics = false →
    t.root.flags.annotations = false → ∃ ms, t.asOld.Consists t.options.symbols ms) ?_ ?_
  · rintro snapshot options entry set reuse cursor hat hsound - rfl
    exact SyntaxTree.exists_consists_ofCursor snapshot hat hsound
  · intro t g hvalid _ hcopy _ _ hnone
    -- an annotation shows at the root
    exact absurd ((hcopy.annotations_eq_true hvalid.old.fine.exact).symm.trans hnone) Bool.noConfusion

/-- **What lies before an edit is shared.** Take a file without diagnostics and annotations, and changes to its
text. If they are possible, they lead to a new tree. All members of the old tree behind which the scanner saw
nothing of the changes are the very same elements in the new one. Without any change these are all members;
nothing but the end of the text is scanned, and no token is used again. -/
theorem members_shared (h : Session allowed w trees made) (ht : t ∈ trees) (hentry : t.entry = .compilationUnit)
    (hreports : t.reports = []) (hplain : t.root.flags.annotations = false) (changes : ChangeSet) :
    (∀ text, changes.applyTo t.text = .ok text → ∃ t' w', t.edit w changes = .ok (t', w') ∧ t'.text = text) ∧
      ∀ t' w', Reparse w made t changes t' w' →
        (∀ i r, t.red.child? i = some r → r.green.nodeKind?.any NodeKind.isMember = true →
          (∀ c ∈ changes.changes.head?, lookaheadEnd t.text r.fullRange.stop ≤ c.range.start) →
            t.SharesChild t' i) ∧
        (changes.changes = [] → ∃ ms e e', t.root.children = ms ++ [.token e] ∧
          (∀ m ∈ ms, m.nodeKind?.any NodeKind.isMember = true) ∧
          t'.root.children = ms ++ [.token e'] ∧ e'.leaf.tokenKind = .eof ∧
          t'.counts = { tokens := 0, nodes := ms.length, scanned := 1 }) := by
  obtain ⟨hvalid, hsnapshot⟩ := h.valid.2 t ht
  obtain ⟨ms, hold⟩ := h.exists_consists t ht hentry ((SyntaxTree.reports_eq_nil_iff hvalid).1 hreports) hplain
  refine ⟨fun text happly => SyntaxTree.exists_edit w happly, fun t' w' hr => ?_⟩
  obtain ⟨happly, -, pool, heq⟩ := hr.spec h.valid.1 hsnapshot
  rw [heq]
  constructor
  · intro i r hchild hmember hfront
    exact SyntaxTree.sharesChild_reparse hvalid hentry hold happly pool hchild hmember hfront
  · intro hempty
    obtain ⟨e, hroot, -⟩ := hold.children
    obtain ⟨e', hroot', heof, hcounts⟩ := SyntaxTree.reparse_of_empty hvalid hentry hold hempty happly pool
    exact ⟨ms, e, e', hroot, fun m hm => (hold.listed m hm).member, hroot', heof, hcounts⟩

/-- A class gets another name, and the directive in front of it is shared. -/
theorem members_shared_renamed : ∃ (w w' : Workspace) (trees : List SyntaxTree) (made : List Snapshot)
    (t t' : SyntaxTree) (changes : ChangeSet), Session (fun _ _ => True) w trees made ∧ t ∈ trees ∧
      t.entry = .compilationUnit ∧ t.reports = [] ∧ t.root.flags.annotations = false ∧ Reparse w made t changes t' w' ∧
      t.text = "using A;class B\x7b\x7d".toList ∧ t'.text = "using A;class C\x7b\x7d".toList ∧ t.SharesChild t' 0 := by
  let old : Text := "using A;class B\x7b\x7d".toList
  let changes : ChangeSet := .single ⟨⟨14, 1⟩, ['C']⟩
  let t₀ : SyntaxTree := (ofText {} old {} .compilationUnit).1
  have h₀ : Session (fun _ _ => True) _ [t₀] _ := .parse old {} .compilationUnit .start
  have hreports : t₀.reports = [] := by decide +kernel
  have hplain : t₀.root.flags.annotations = false := by decide +kernel
  have happly : changes.applyTo t₀.text = .ok "using A;class C\x7b\x7d".toList := by decide +kernel
  obtain ⟨hedit, hshared⟩ := h₀.members_shared (List.mem_singleton_self _) rfl hreports hplain changes
  obtain ⟨t₁, w₁, hedit, htext⟩ := hedit _ happly
  obtain ⟨r, hr, hmember, hfront⟩ : ∃ r ∈ t₀.red.child? 0, r.green.nodeKind?.any NodeKind.isMember = true ∧
      ∀ c ∈ changes.changes.head?, lookaheadEnd t₀.text r.fullRange.stop ≤ c.range.start := by
    decide +kernel
  exact ⟨_, w₁, _, _, t₀, t₁, changes, h₀, List.mem_singleton_self _, rfl, hreports, hplain, .edit hedit, rfl, htext,
    (hshared t₁ w₁ (.edit hedit)).1 0 r hr hmember hfront⟩

end Session

end IncrementalSyntax

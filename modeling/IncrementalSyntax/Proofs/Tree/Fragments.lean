import IncrementalSyntax.Proofs.Grammar.Listed
import IncrementalSyntax.Proofs.Tree.Formed

/-!
# What stands in a fragment

The root of a fragment holds one node of the production that the text was taken for, then a node with all tokens that
the production has left, then the token that ends the text. The first one is lacking if the first token cannot begin
the production, and the second one if nothing is left.

## Main definitions

* `EntryPoint.starts`, `EntryPoint.yields`: the production of an entry point
* `Green.Fragment`: the children of the root of a fragment

## Main results

* `parse_fragment`: the root of a parse
* `Session.fragment`: the roots of a session
-/

namespace IncrementalSyntax

namespace EntryPoint

/-- The tokens that can begin the production of an entry point; for a file this is one of its members. -/
def starts : EntryPoint → TokenKind → Bool
  | compilationUnit | member => TokenKind.startsMember
  | statement => TokenKind.startsStatement
  | expression => TokenKind.startsExpression

/-- The nodes that the production of an entry point may give. -/
def yields : EntryPoint → NodeKind → Bool
  | compilationUnit, k | member, k => k.isMember || k = .incompleteMember
  | statement, k => k.isStatement
  | expression, k => k.isExpression

theorem yields_skippedTokens (entry : EntryPoint) : entry.yields .skippedTokens = false := by cases entry <;> rfl

end EntryPoint

open Green hiding id

/-- **Fragment.** The children of the root of a fragment. -/
def Green.Fragment (entry : EntryPoint) (cs : List Green) : Prop :=
  ∃ produced skipped last, cs = produced ++ skipped ++ [.token last] ∧ last.leaf.tokenKind = .eof ∧
    (produced = [] ∧ entry.starts (firstKind cs .eof) = false ∨
      ∃ g, produced = [g] ∧ g.nodeKind?.any entry.yields = true) ∧
    (skipped = [] ∨ ∃ g, skipped = [g] ∧ g.nodeKind? = some .skippedTokens)

/-! ## Parses -/

section Parses

variable {version : LanguageVersion} {σ : Type} [TokenSource σ] {S : Supply version σ} {s : σ}

namespace Parse

/-- Whatever a production emits, tokens that it leaves are skipped in one node behind it. -/
theorem exists_out_fragment {kinds : NodeKind → Bool} {starts : TokenKind → Bool} {a : Parse σ Unit}
    (hemits : Emits S kinds a) (hkept : ∀ p, Ready S p → Kept S p (a p).2) {p : Parser σ} (hp : Ready S p)
    (hnil : p.out = []) :
    ∃ produced skipped, ((do ifStarts starts a; let _ ← skipToRecovery : Parse σ Unit) p).2.out = produced ++ skipped ∧
      (produced = [] ∧ starts (front S p) = false ∨ ∃ g, produced = [g] ∧ g.nodeKind?.any kinds = true) ∧
      (skipped = [] ∨ ∃ g, skipped = [g] ∧ g.nodeKind? = some .skippedTokens) := by
  have hstarts : ifStarts starts a p = (if starts (front S p) = true then a else Pure.pure () : Parse σ Unit) p := by
    rw [ifStarts, peek_bind_apply hp]
  have hproduced : ∃ q : Parser σ, (ifStarts starts a p).2 = q ∧ Ready S q ∧
      (q.out = [] ∧ starts (front S p) = false ∨ ∃ g, q.out = [g] ∧ g.nodeKind?.any kinds = true) := by
    rw [hstarts]
    cases hfront : starts (front S p) with
    | true =>
      obtain ⟨g, hout, hg⟩ := hemits p hp
      rw [hnil, List.nil_append] at hout
      exact ⟨_, rfl, (hkept p hp).ready, .inr ⟨g, hout, hg⟩⟩
    | false => exact ⟨p, rfl, hp, .inl ⟨hnil, rfl⟩⟩
  -- behind the production the recovery does nothing, or it adds one node
  obtain ⟨q, hq, hready, hout⟩ := hproduced
  show ∃ produced skipped, (skipToRecovery (ifStarts starts a p).2).2.out = _ ∧ _
  rw [hq]
  rcases skipToRecovery_spec hready with ⟨-, heq⟩ | ⟨id, id', l, rest, s, heq, -⟩
  · exact ⟨q.out, [], by rw [heq, List.append_nil], hout, .inl rfl⟩
  · exact ⟨q.out, _, by rw [heq], hout, .inr ⟨_, rfl, rfl⟩⟩

theorem emits_member : Emits S (EntryPoint.yields .member) (member : Parse σ Unit) := by
  intro p _
  obtain ⟨g, hout, hg⟩ := exists_out_member S p
  refine ⟨g, hout, ?_⟩
  rcases hg with hmember | ⟨hincomplete, -⟩
  · obtain ⟨k, hk, hkind⟩ := (Option.any_eq_true _ _).1 hmember
    simp [hk, EntryPoint.yields, hkind]
  · simp [hincomplete, EntryPoint.yields]

theorem emits_statement : Emits S NodeKind.isStatement (statement : Parse σ Unit) := fun p hp =>
  emits_statementUpTo (TokenSource.remaining p.source) p hp

theorem emits_expression : Emits S NodeKind.isExpression (expression : Parse σ Unit) := by
  intro p hp
  have hoperand : Operand S (S.upcoming p.source).length anything 0 expression := .expression
  obtain ⟨⟨g, hout, hkind, -⟩, -⟩ := hoperand p hp trivial le_rfl
  exact ⟨g, hout, hkind⟩

end Parse

/-- The root of a parse of a fragment. -/
theorem parse_fragment (h : S.Ok s) {entry : EntryPoint} (hentry : Parse.rootKind entry = .fragment) :
    Fragment entry (parse version entry s).root.children := by
  have hready := ready_start h
  have hout : ∃ produced skipped, (Parser.atEnd version entry s).out = produced ++ skipped ∧
      (produced = [] ∧ entry.starts (Parse.front S (.start version s)) = false ∨
        ∃ g, produced = [g] ∧ g.nodeKind?.any entry.yields = true) ∧
      (skipped = [] ∨ ∃ g, skipped = [g] ∧ g.nodeKind? = some .skippedTokens) := by
    cases entry with
    | compilationUnit => cases hentry
    | member =>
      exact Parse.exists_out_fragment Parse.emits_member (fun p hp => Parse.memberUpTo_kept _ hp) hready rfl
    | statement =>
      exact Parse.exists_out_fragment Parse.emits_statement (fun p hp => Parse.statementUpTo_kept _ hp) hready rfl
    | expression =>
      refine Parse.exists_out_fragment Parse.emits_expression (fun p hp => ?_) hready rfl
      exact ((Parse.Meets.expression (S := S) (M := .whole) (n := 0)).keeps p hp trivial).1
  obtain ⟨produced, skipped, hout, hproduced, hskipped⟩ := hout
  have hfirst : firstKind (parse version entry s).root.children .eof = Parse.front S (.start version s) := by
    have hscanned : scannedAll (parse version entry s).root.children = (S.upcoming s).map Leaf.bare := by
      rw [← parse_scanned h entry, parse_eq, scannedAll_ofChildren]
      rfl
    rw [firstKind, hscanned, Parse.front]
    show _ = frontKind (S.upcoming s)
    cases S.upcoming s <;> rfl
  refine ⟨produced, skipped, _, ?_, tokenKind_next_atEnd h entry, ?_, hskipped⟩
  · rw [parse_eq, ← hout]
    rfl
  · rwa [hfirst]

end Parses

/-! ## Sessions -/

/-- What is kept of a child of the root by an annotated copy. -/
def Green.label (g : Green) : Option NodeKind × Option Leaf := (g.nodeKind?, g.plainLeaf?)

/-- Whether elements are the children of a fragment can be read off their labels and the first token. -/
theorem Green.Fragment.congr {entry : EntryPoint} {cs ds : List Green} (h : Fragment entry cs)
    (hlabels : ds.map label = cs.map label) (hfirst : firstKind ds .eof = firstKind cs .eof) : Fragment entry ds := by
  obtain ⟨produced, skipped, last, rfl, hlast, hproduced, hskipped⟩ := h
  rw [List.map_append, List.map_append] at hlabels
  obtain ⟨front, end', rfl, hfront, hend⟩ := List.map_eq_append_iff.1 hlabels
  obtain ⟨produced', skipped', rfl, hproduced', hskipped'⟩ := List.map_eq_append_iff.1 hfront
  obtain ⟨e, he, hlabel⟩ := List.map_eq_singleton_iff.1 hend
  obtain ⟨u, rfl, hu⟩ := exists_of_plainLeaf?_eq (congrArg Prod.snd hlabel)
  refine ⟨produced', skipped', u, by rw [he], hu.trans hlast, ?_, ?_⟩
  · rcases hproduced with ⟨rfl, hstarts⟩ | ⟨g, rfl, hg⟩
    · exact .inl ⟨List.map_eq_nil_iff.1 hproduced', by rwa [hfirst]⟩
    · obtain ⟨g', rfl, hsame⟩ := List.map_eq_singleton_iff.1 hproduced'
      have hkind : g'.nodeKind? = g.nodeKind? := congrArg Prod.fst hsame
      exact .inr ⟨g', rfl, hkind ▸ hg⟩
  · rcases hskipped with rfl | ⟨g, rfl, hg⟩
    · exact .inl (List.map_eq_nil_iff.1 hskipped')
    · obtain ⟨g', rfl, hsame⟩ := List.map_eq_singleton_iff.1 hskipped'
      have hkind : g'.nodeKind? = g.nodeKind? := congrArg Prod.fst hsame
      exact .inr ⟨g', rfl, hkind.trans hg⟩

theorem Green.Fragment.of_annotated {entry : EntryPoint} {g g' : Green} (ha : Annotated g g')
    (h : Fragment entry g.children) : Fragment entry g'.children := by
  cases ha with
  | here g id a => cases g <;> exact h
  | @inside hd cs i c c' id hc ha =>
    have hlabel : c'.label = c.label := by rw [label, label, ha.nodeKind?_eq, ha.plainLeaf?_eq]
    exact h.congr (Annotated.map_set label hc hlabel) (ha.firstKind_set hc .eof)

/-- The roots of the fragments of a session. -/
theorem Session.fragment {allowed : Text → ChangeSet → Prop} {w : Workspace} {trees : List SyntaxTree}
    {made : List Snapshot} (h : Session allowed w trees made) :
    ∀ t ∈ trees, t.root.nodeKind? = some .fragment → Fragment t.entry t.root.children := by
  refine h.forall_trees (P := fun t => t.root.nodeKind? = some .fragment → Fragment t.entry t.root.children)
    (fun snapshot options entry set reuse cursor hat hsound _ hkind => ?_)
    fun t g _ ht hcopy hkind => (ht (hcopy.nodeKind?_eq.symm.trans hkind)).of_annotated hcopy
  have hentry : Parse.rootKind entry = .fragment := by
    have hroot : (IncrementalSyntax.parse options.version entry cursor).root.nodeKind? = some .fragment := hkind
    rw [parse_eq] at hroot
    exact Option.some.inj hroot
  exact parse_fragment (S := Supply.ofCursor options.version options.symbols snapshot.text set reuse hsound) ⟨[], hat⟩
    hentry

end IncrementalSyntax

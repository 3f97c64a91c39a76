import IncrementalSyntax.Proofs.Red.Places
import IncrementalSyntax.Proofs.Tree.Fragments

/-!
# What recovery skips

Tokens are skipped only if no list around them can use them, and no further than up to the first token that some list
can use. The lists are read off the finished tree: they belong to the nodes around the skipped tokens. What is left of
a fragment behind its production is skipped up to the end of the text.

## Main definitions

* `Red.lists`: the lists of the nodes around a place

## Main results

* `Red.formed_of_mem_descendants`: a place is formed among the lists around it
* `Session.skipped_spec`: the skipped tokens of a tree
-/

namespace IncrementalSyntax

open Green (Formed Skipped firstKind leavesAll scannedAll)

namespace Red

variable {root : Green} {r : Red}

/-- The lists of the nodes around a place, the nearest first. -/
def lists (r : Red) : List ListContext := r.above.flatMap fun c => c.parent.list?.toList

/-- The leaves behind a place that are not missing. -/
def presentBehind (r : Red) : List Leaf := r.behind.filter fun l => !l.missing

/-- The first of some scanned leaves, or of those behind them. -/
theorem firstKind_frontKind (cs : List Green) (ls : List Leaf) :
    firstKind cs (frontKind ls) = frontKind ((leavesAll cs).filter (fun l => !l.missing) ++ ls) := by
  rw [firstKind, scannedAll]
  cases (leavesAll cs).filter fun l => !l.missing <;> rfl

/-- What is formed at a place is formed at the children of the place. -/
theorem formed_of_child? {c : Red} {i : Nat} (h : Formed r.lists [r.green] (frontKind r.presentBehind))
    (hc : r.child? i = some c) : Formed c.lists [c.green] (frontKind c.presentBehind) := by
  obtain ⟨hi, heq⟩ := child?_eq_some_iff.1 hc
  have hlists : c.lists = r.green.list?.toList ++ r.lists := by
    rw [heq]
    rfl
  -- behind the child come its later siblings, and then what comes behind the place
  have hbehind : c.presentBehind =
      (leavesAll (r.green.children.drop (i + 1))).filter (fun l => !l.missing) ++ r.presentBehind := by
    rw [heq, presentBehind, presentBehind, ← List.filter_append]
    rfl
  rw [hlists, hbehind, ← firstKind_frontKind]
  exact h.children.getElem hi

/-- **A place is formed where it stands.** The lists around it are those of the nodes that it lies in. -/
theorem formed_of_mem_descendants (h : Formed [] [root] .eof) (hr : r ∈ (ofRoot root).descendants) :
    Formed r.lists [r.green] (frontKind r.presentBehind) := by
  let P : Red → Prop := fun r => Formed r.lists [r.green] (frontKind r.presentBehind)
  have hroot : P (ofRoot root) := h
  exact forall_descendants (P := P) (fun r i c hr hc => formed_of_child? hr hc) hroot r hr

/-- A place lies among the children of the one that it was reached from. -/
theorem mem_children_of_parent? {p : Red} (hr : r ∈ (ofRoot root).descendants) (hp : r.parent? = some p) :
    r.green ∈ p.green.children := by
  let P : Red → Prop := fun r => ∀ p, r.parent? = some p → r.green ∈ p.green.children
  have hroot : P (ofRoot root) := fun p hp => nomatch hp
  refine forall_descendants (P := P) (fun r i c _ hc p hp => ?_) hroot r hr p hp
  obtain ⟨hi, heq⟩ := child?_eq_some_iff.1 hc
  rw [heq] at hp
  obtain rfl := Option.some.inj hp
  exact List.mem_of_getElem? hi

end Red

/-! ## Skipped tokens -/

/-- Without the diagnostic of the first one, skipped tokens are as they were scanned. -/
theorem scannedAll_of_skipped {ts : List Token} {l : Leaf} {rest : List Leaf}
    (hleaves : ts.map (·.leaf.unannotated) = Parse.unexpected l :: rest)
    (hplain : ∀ k ∈ l :: rest, k.bare = k ∧ k.missing = false) : scannedAll (ts.map .token) = l :: rest := by
  have hunannotated : (ts.map Token.leaf).map Leaf.unannotated = Parse.unexpected l :: rest := by
    rw [List.map_map]
    exact hleaves
  obtain ⟨⟨hl, hpresent⟩, hrest⟩ := List.forall_mem_cons.1 hplain
  have hfilter : (Parse.unexpected l :: rest).filter (fun k => !k.missing) = Parse.unexpected l :: rest := by
    refine List.filter_eq_self.2 (List.forall_mem_cons.2 ⟨?_, fun k hk => by simp [(hrest k hk).2]⟩)
    simp [Parse.unexpected, Leaf.withDiagnostic, hpresent]
  rw [scannedAll, Green.leavesAll_map_token, ← Leaf.map_bare_unannotated, hunannotated, hfilter, List.map_cons,
    Parse.bare_unexpected, hl, List.map_congr_left fun k hk => (hrest k hk).1, List.map_id']

/-! ## Sessions -/

namespace Session

variable {allowed : Text → ChangeSet → Prop} {w : Workspace} {trees : List SyntaxTree} {made : List Snapshot}
variable {t : SyntaxTree} {r : Red}

/-- The scanned tokens in front of a place, at it and behind it are all tokens of the text. -/
theorem exists_tokenize_eq (h : Session allowed w trees made) (ht : t ∈ trees) (hr : r ∈ t.red.descendants) :
    ∃ before, tokenize t.options.symbols t.text = before ++ scannedAll [r.green] ++ r.presentBehind.map Leaf.bare := by
  obtain ⟨before, hleaves⟩ := Red.exists_leaves_eq hr
  refine ⟨(before.filter fun l => !l.missing).map Leaf.bare, ?_⟩
  rw [← (h.tokens_spec ht).1, scannedAll, leavesAll, Green.tokensAll, Green.tokensAll, List.append_nil]
  have hroot : t.root.tokens.map Token.leaf = before ++ r.green.leaves ++ r.behind := hleaves
  rw [hroot]
  simp [scannedAll, Red.presentBehind]

/-- Behind tokens that do not end the text another one comes. -/
theorem exists_behind_eq (h : Session allowed w trees made) (ht : t ∈ trees) (hr : r ∈ t.red.descendants)
    (hnil : scannedAll [r.green] ≠ []) (hkinds : ∀ l ∈ scannedAll [r.green], l.tokenKind ≠ .eof) :
    ∃ missing next rest, r.behind = missing ++ next :: rest ∧ (∀ l ∈ missing, l.missing = true) ∧
      next.missing = false ∧ frontKind r.presentBehind = next.tokenKind := by
  cases hpresent : r.presentBehind with
  | nil =>
    -- the last token of the text would be one of these
    obtain ⟨before, htokens⟩ := h.exists_tokenize_eq ht hr
    obtain ⟨ts, hts, hup⟩ := SyntaxTree.exists_tokenList t.options.symbols t.text
    rw [← hup, hpresent, List.map_nil, List.append_nil] at htokens
    have hlast := congrArg List.getLast? htokens
    rw [TokenList.upcoming, List.getLast?_concat, List.getLast?_append_of_ne_nil _ hnil] at hlast
    exact absurd hts.last (hkinds _ (List.mem_of_getLast? hlast.symm))
  | cons next rest =>
    obtain ⟨missing, behind, heq, hmissing, hnext, -⟩ := List.filter_eq_cons_iff.1 hpresent
    exact ⟨missing, next, behind, heq, by simpa using hmissing, by simpa using hnext, rfl⟩

/-- **Skipped tokens.** The children of a node of skipped tokens are tokens of the text in a row, the first of them
with a diagnostic that covers just its text. No list around the node can use one of them, and the next token behind
them that is not missing ends the text or some list around the node can use it. Right below a fragment the node holds
all tokens from the end of the production to the end of the text. -/
theorem skipped_spec (h : Session allowed w trees made) (ht : t ∈ trees) (hr : r ∈ t.red.descendants)
    (hkind : r.green.nodeKind? = some .skippedTokens) :
    (∃ (ts : List Token) (l : Leaf) (rest before : List Leaf), r.green.children = ts.map .token ∧
      ts.map (·.leaf.unannotated) =
        l.withDiagnostic (.ofCode .unexpectedToken l.leadingWidth l.textWidth [l.kind.describe]) :: rest ∧
      tokenize t.options.symbols t.text = before ++ l :: rest ++ r.presentBehind.map Leaf.bare ∧
      ∀ token ∈ ts, ∀ context ∈ r.lists, context.isRecoveryPoint token.leaf.tokenKind = false) ∧
    (∃ missing next rest, r.behind = missing ++ next :: rest ∧ (∀ l ∈ missing, l.missing = true) ∧
      next.missing = false ∧
      (next.tokenKind = .eof ∨ ∃ context ∈ r.lists, context.isRecoveryPoint next.tokenKind = true)) ∧
    (t.root.nodeKind? = some .fragment → r.parent? = some t.red →
      ∃ produced last, t.root.children = produced ++ [r.green, .token last] ∧ last.leaf.tokenKind = .eof ∧
        (produced = [] ∧ t.entry.starts (frontKind (tokenize t.options.symbols t.text)) = false ∨
          ∃ g, produced = [g] ∧ g.nodeKind?.any t.entry.yields = true)) := by
  obtain ⟨ts, l, rest, hchildren, hleaves, hscanned, hstops⟩ :
      Skipped r.lists (frontKind r.presentBehind) r.green.children :=
    ((Red.formed_of_mem_descendants (h.formed t ht) hr).made hkind).2 rfl
  have htokens : scannedAll [r.green] = l :: rest := by
    rw [← Green.scannedAll_children hkind, hchildren]
    exact scannedAll_of_skipped hleaves fun k hk => ⟨(hscanned k hk).1, (hscanned k hk).2.1⟩
  have hkinds : ∀ k ∈ Parse.unexpected l :: rest, ListContext.stops r.lists k.tokenKind = false := by
    obtain ⟨hl, hrest⟩ := List.forall_mem_cons.1 hscanned
    exact List.forall_mem_cons.2 ⟨hl.2.2, fun k hk => (hrest k hk).2.2⟩
  refine ⟨?_, ?_, fun hfragment hparent => ?_⟩
  · obtain ⟨before, hbefore⟩ := h.exists_tokenize_eq ht hr
    rw [htokens] at hbefore
    refine ⟨ts, l, rest, before, hchildren, hleaves, hbefore, fun token htoken => ?_⟩
    have hmem : token.leaf.unannotated ∈ Parse.unexpected l :: rest := hleaves ▸ List.mem_map_of_mem htoken
    exact (ListContext.stops_eq_false_iff.1 (hkinds _ hmem)).2
  · obtain ⟨missing, next, behind, heq, hmissing, hnext, hfront⟩ := h.exists_behind_eq ht hr
      (htokens ▸ List.cons_ne_nil _ _)
      (htokens ▸ fun k hk => (ListContext.stops_eq_false_iff.1 (hscanned k hk).2.2).1)
    exact ⟨missing, next, behind, heq, hmissing, hnext, ListContext.stops_iff.1 (hfront ▸ hstops)⟩
  · obtain ⟨produced, skipped, last, hroot, hlast, hproduced, hskipped⟩ := h.fragment t ht hfragment
    have hfirst : firstKind t.root.children .eof = frontKind (tokenize t.options.symbols t.text) := by
      rw [← (h.tokens_spec ht).1, ← Green.scannedAll_children hfragment]
      rfl
    have hmem : r.green ∈ produced ++ skipped ++ [.token last] := hroot ▸ Red.mem_children_of_parent? hr hparent
    -- neither the node of the production nor the token at the end is one of skipped tokens
    have hmem : r.green ∈ skipped := by
      rcases List.mem_append.1 hmem with hmem | hmem
      · refine (List.mem_append.1 hmem).resolve_left fun hproduct => ?_
        rcases hproduced with ⟨rfl, -⟩ | ⟨g, rfl, hyields⟩
        · cases hproduct
        · rw [← List.mem_singleton.1 hproduct, hkind] at hyields
          exact Bool.false_ne_true ((EntryPoint.yields_skippedTokens t.entry).symm.trans hyields)
      · rw [List.mem_singleton.1 hmem] at hkind
        cases hkind
    obtain rfl : skipped = [r.green] := by
      rcases hskipped with rfl | ⟨g, rfl, -⟩
      · cases hmem
      · rw [List.mem_singleton.1 hmem]
    refine ⟨produced, last, by rw [hroot]; simp, hlast, ?_⟩
    rwa [hfirst] at hproduced

/-- A parenthesis in a block, which a statement follows, and a bracket behind the block. -/
theorem skipped_spec_block : ∃ (w : Workspace) (trees : List SyntaxTree) (made : List Snapshot) (t : SyntaxTree)
    (r r' : Red), Session (fun _ _ => True) w trees made ∧ t ∈ trees ∧ t.text = "\x7b)a;\x7d]".toList ∧
      r ∈ t.red.descendants ∧ r.green.nodeKind? = some .skippedTokens ∧ r.lists = [.block] ∧
      (∃ missing next rest, r.behind = missing ++ next :: rest ∧ (∀ l ∈ missing, l.missing = true) ∧
        next.missing = false ∧
        (next.tokenKind = .eof ∨ ∃ context ∈ r.lists, context.isRecoveryPoint next.tokenKind = true)) ∧
      r' ∈ t.red.descendants ∧ r'.green.nodeKind? = some .skippedTokens ∧
      ∃ produced last, t.root.children = produced ++ [r'.green, .token last] ∧ last.leaf.tokenKind = .eof := by
  let text : Text := "\x7b)a;\x7d]".toList
  let t₀ : SyntaxTree := (SyntaxTree.ofText {} text {} .statement).1
  have h₀ : Session (fun _ _ => True) _ [t₀] _ := .parse text {} .statement .start
  obtain ⟨r, hr, hkind, hlists⟩ : ∃ r ∈ t₀.red.descendants, r.green.nodeKind? = some .skippedTokens ∧
      r.lists = [.block] := by
    decide +kernel
  obtain ⟨r', hr', hkind', habove⟩ : ∃ r ∈ t₀.red.descendants, r.green.nodeKind? = some .skippedTokens ∧
      r.above.length = 1 := by
    decide +kernel
  have hfragment : t₀.root.nodeKind? = some .fragment := by decide +kernel
  have hparent : r'.parent? = some t₀.red := by
    have hup : t₀.red ∈ r'.ancestors := Red.mem_ancestors_of_mem_walk hr'
    obtain ⟨c, hc⟩ := List.length_eq_one_iff.1 habove
    rw [Red.ancestors, hc, Red.ofCrumbs, Red.ofCrumbs, List.mem_pair] at hup
    rcases hup with rfl | hup
    · cases hc
    · rw [hup, Red.parent?, hc]
  obtain ⟨produced, last, hroot, hlast, -⟩ :=
    (h₀.skipped_spec (List.mem_singleton_self _) hr' hkind').2.2 hfragment hparent
  exact ⟨_, _, _, t₀, r, r', h₀, List.mem_singleton_self _, rfl, hr, hkind, hlists,
    (h₀.skipped_spec (List.mem_singleton_self _) hr hkind).2.1, hr', hkind', produced, last, hroot, hlast⟩

end Session

end IncrementalSyntax

import IncrementalSyntax.Proofs.Grammar.BuiltStatements
import IncrementalSyntax.Proofs.Grammar.Derived
import IncrementalSyntax.Proofs.Grammar.Written
import IncrementalSyntax.Proofs.Tree.Parsed

/-!
# Accepted texts

A statement or an expression has a tree without diagnostics just if the grammar can write its tokens. In
one direction, whatever the parser reads without a diagnostic is derived; in the other one, what is
written has trees, and the parser builds them.

## Main definitions

* `sentence`: the kinds of the tokens of a text

## Main results

* `SyntaxTree.shape_ofText`: the tree of a text is the parse of the list of its tokens
* `SyntaxTree.ofText_of_reads`: the tree of a text whose course is known
* `SyntaxTree.reports_fragment_iff`: a fragment has no diagnostics just if it is a sentence of its phrase
-/

namespace IncrementalSyntax

open Green (Flagged flagged_append flagged_ofChildren)
open Shape (leaf branch)

/-! ## Trees and lists of tokens -/

/-- Where the flags are right, a tree reports nothing just if no leaf carries a diagnostic. -/
theorem Red.reports_eq_nil_iff {g : Green} (h : g.Exact) : (ofRoot g).reports = [] ↔ ¬ Flagged [g] := by
  rw [h.flagged_iff]
  constructor
  · intro hreports hflag
    obtain ⟨l, hl, hd⟩ := h.flagged_iff.2 hflag
    rw [reports_ofRoot h, List.flatMap_eq_nil_iff] at hreports
    have hnone : ∀ (ts : List Token) (start : Nat),
        (∀ p ∈ Green.placeTokens start ts, tokenReports p.1 p.2 = []) → ∀ t ∈ ts, t.leaf.diagnostics = [] := by
      intro ts
      induction ts with
      | nil => exact fun _ _ _ ht => nomatch ht
      | cons t ts ih =>
        intro start hts u hu
        rcases List.mem_cons.1 hu with rfl | hu
        · exact List.map_eq_nil_iff.1 (hts (start, u) List.mem_cons_self)
        · exact ih _ (fun p hp => hts p (List.mem_cons_of_mem _ hp)) u hu
    obtain ⟨t, ht, rfl⟩ : ∃ t ∈ g.tokens, t.leaf = l := by simpa [Green.leaves] using hl
    exact hd (hnone g.tokens 0 hreports t ht)
  · intro hflag
    show (if g.flags.diagnostics = true then _ else _) = _
    rw [if_neg hflag]

namespace SyntaxTree

/-- The tree of a text is the parse of the list of its tokens. -/
theorem shape_ofText (w : Workspace) {text : Text} {options : Options} (entry : EntryPoint) {ts : TokenList}
    (hts : ts.WellFormed) (hup : ts.upcoming = tokenize options.symbols text) :
    (ofText w text options entry).1.root.shape = (parse options.version entry ts).root.shape ∧
      (ofText w text options entry).1.status = (parse options.version entry ts).status := by
  have hat := Cursor.at_atStart options.symbols text .empty w.pool
  let S := Supply.ofCursor options.version options.symbols text .empty none nofun
  have hok : S.Ok (.atStart text (initialContext options) w.pool) := ⟨[], hat⟩
  have hsame : S.upcoming (.atStart text (initialContext options) w.pool) = ts.upcoming :=
    hup ▸ (hat.scanned.tokenizeRest_eq nofun).symm
  exact (parse_shape_iff hok hts hsame entry).2 (parse_missesElse_of_careful hok nofun entry)

theorem reports_ofText (w : Workspace) {text : Text} {options : Options} (entry : EntryPoint) {ts : TokenList}
    (hts : ts.WellFormed) (hup : ts.upcoming = tokenize options.symbols text) :
    (ofText w text options entry).1.reports = [] ↔ ¬ Flagged [(parse options.version entry ts).root] := by
  have hshape := (shape_ofText w entry hts hup).1
  have hvalid : (ofText w text options entry).1.Valid :=
    valid_ofCursor (w.history.begin text).1 entry (Cursor.at_atStart options.symbols text .empty w.pool) nofun
  have hexact : (ofText w text options entry).1.root.Exact := hvalid.old.fine.exact
  refine (Red.reports_eq_nil_iff hexact).trans (not_congr ?_)
  exact ⟨Green.flagged_of_shapes (by simpa using hshape), Green.flagged_of_shapes (by simpa using hshape.symm)⟩

end SyntaxTree

/-! ## Parses whose course is known -/

namespace Parse

variable {v : LanguageVersion} {w : List Leaf} {ss : List Shape} {l : Leaf}

/-- Nothing is skipped where the text has ended. -/
theorem Reads.skipToRecovery_of_eof {o : List Shape} (hl : l.tokenKind = .eof) :
    Reads v skipToRecovery [l] o false [l] o := by
  have hpoint : Reads v atRecoveryPoint [l] o true [l] o := by
    refine .peek_bind ?_
    rw [frontKind_cons, hl]
    exact .pure
  exact .bind hpoint (.ite_pos rfl .pure)

/-- A fragment whose first token can begin it. -/
theorem Reads.fragment {starts : TokenKind → Bool} {m : Parse TokenList Unit} (hl : l.tokenKind = .eof)
    (hstarts : starts (frontKind (w ++ [l])) = true) (h : Reads v m (w ++ [l]) [] () [l] ss) :
    Reads v (do ifStarts starts m; let _ ← Parse.skipToRecovery) (w ++ [l]) [] () [l] ss :=
  .bind (.peek_bind (.ite_pos hstarts h)) (.bind (.skipToRecovery_of_eof hl) .pure)

/-- A fragment without tokens. -/
theorem Reads.fragment_of_eof {starts : TokenKind → Bool} {m : Parse TokenList Unit} (hl : l.tokenKind = .eof)
    (hstarts : starts .eof = false) :
    Reads v (do ifStarts starts m; let _ ← Parse.skipToRecovery) [l] [] () [l] [] := by
  refine .bind (.peek_bind (.ite_neg ?_ .pure)) (.bind (.skipToRecovery_of_eof hl) .pure)
  rw [frontKind_cons, hl, hstarts]
  decide

/-- The parse of a list of tokens whose course is known. -/
theorem Reads.parse_eq {entry : EntryPoint} {ts : TokenList} (hts : ts.WellFormed) {L : List Leaf}
    (hup : ts.upcoming = L) (h : Reads v (rootInner entry) L [] () [l] ss) :
    (parse v entry ts).root.shape = branch (rootKind entry) (ss ++ [leaf l]) ∧
      (parse v entry ts).status = .complete := by
  obtain ⟨s, out, hm, -, hrest, hout⟩ := h (.start v ts) ⟨hts, rfl⟩ hup rfl
  have hend : Parser.atEnd v entry ts = { Parser.start v ts with source := s, out := out } := congrArg Prod.snd hm
  have hlast := upcoming_atEnd (S := .ofTokenList v) hts entry
  rw [hend] at hlast
  obtain rfl : l = (TokenSource.next s).1.leaf := by
    have hlast : s.upcoming = [(TokenSource.next s).1.leaf] := hlast
    exact List.singleton_inj.1 (hrest.symm.trans hlast)
  rw [IncrementalSyntax.parse_eq, hend]
  exact ⟨by simp [Green.ofChildren, Green.shape, Shape.branch, hout], rfl⟩

/-- A course through all tokens adds no diagnostic to theirs. -/
theorem Reads.not_flagged {entry : EntryPoint} {ts : TokenList} (hts : ts.WellFormed) (hup : ts.upcoming = w ++ [l])
    (hclean : ∀ l ∈ ts.upcoming, l.diagnostics = []) (hleaves : Shape.leavesAll ss = w)
    (h : Reads v (rootInner entry) (w ++ [l]) [] () [l] ss) : ¬ Flagged [(parse v entry ts).root] := by
  rintro ⟨a, ha, hd⟩
  have hroot : (parse v entry ts).root.leaves = ts.upcoming := by
    rw [← Green.leaves_shape, (h.parse_eq hts hup).1, Shape.leaves_branch, Shape.leavesAll_append, hleaves, hup]
    simp
  exact hd (hclean a (hroot ▸ by simpa using ha))

/-- What a parse reads without a diagnostic are all tokens of the text. -/
theorem Takes.parse {entry : EntryPoint} {D : List Leaf → Prop} {ts : TokenList} (hts : ts.WellFormed)
    (h : Takes v ts.upcoming.length anything (rootInner entry) fun _ _ => D)
    (hflag : ¬ Flagged [(IncrementalSyntax.parse v entry ts).root]) : D (ts.tokens.map Token.leaf) := by
  have hlast := upcoming_atEnd (S := .ofTokenList v) hts entry
  rcases h.takes (.start v ts) (ready_start hts) trivial le_rfl with hf | ⟨taken, htaken, hd⟩
  · rw [IncrementalSyntax.parse_eq, flagged_ofChildren, flagged_append] at hflag
    exact absurd (.inl hf) hflag
  · have hsplit : ts.tokens.map Token.leaf ++ [ts.last.leaf] = taken ++ [_] :=
      htaken.trans (congrArg (taken ++ ·) hlast)
    rwa [(List.append_inj' hsplit rfl).1]

end Parse

/-! ## Sentences -/

/-- The kinds of the tokens of a text, without the one that ends it. -/
def sentence (symbols : List Text) (text : Text) : List TokenKind :=
  ((tokenize symbols text).map Leaf.tokenKind).filter (· ≠ .eof)

theorem sentence_eq {symbols : List Text} {text : Text} {ts : TokenList} (hts : ts.WellFormed)
    (hup : ts.upcoming = tokenize symbols text) :
    sentence symbols text = (ts.tokens.map Token.leaf).map Leaf.tokenKind := by
  have hkinds : ∀ k ∈ (ts.tokens.map Token.leaf).map Leaf.tokenKind, decide (k ≠ .eof) = true := by
    simpa using hts.tokens
  rw [sentence, ← hup, TokenList.upcoming, List.map_append, List.filter_append, List.filter_eq_self.2 hkinds]
  simp [hts.last]

namespace SyntaxTree

/-- A fragment has no diagnostics just if it is empty or a sentence of its phrase, where its production takes
only what the grammar derives, and all of that. -/
theorem reports_fragment_iff (w : Workspace) {text : Text} {options : Options} {entry : EntryPoint}
    {starts : TokenKind → Bool} {m : Parse TokenList Unit} {phrase : Phrase}
    (hclean : ∀ l ∈ tokenize options.symbols text, l.diagnostics = [])
    (hentry : Parse.rootInner entry = do Parse.ifStarts starts m; let _ ← Parse.skipToRecovery)
    (hnil : starts .eof = false) (hsound : ∀ n, Parse.Spells n Parse.anything m fun _ => Derives phrase)
    (hcomplete : ∀ (u : List Leaf) (l : Leaf), Derives phrase (u.map Leaf.tokenKind) → l.tokenKind = .eof →
      starts (frontKind (u ++ [l])) = true ∧
        ∃ ss, Shape.leavesAll ss = u ∧ Parse.Reads options.version m (u ++ [l]) [] () [l] ss) :
    (ofText w text options entry).1.reports = [] ↔
      sentence options.symbols text = [] ∨ Derives phrase (sentence options.symbols text) := by
  obtain ⟨ts, hts, hup⟩ := exists_tokenList options.symbols text
  rw [reports_ofText w entry hts hup, sentence_eq hts hup]
  have hclean : ∀ l ∈ ts.upcoming, l.diagnostics = [] := hup ▸ hclean
  constructor
  · refine Parse.Takes.parse (D := fun ls => ls.map Leaf.tokenKind = [] ∨ Derives phrase (ls.map Leaf.tokenKind)) hts ?_
    rw [hentry]
    exact Parse.Spells.fragment hsound _
  · rintro (hempty | hderives)
    · have htokens : ts.tokens.map Token.leaf = [] := List.map_eq_nil_iff.1 hempty
      have hreads : Parse.Reads options.version (Parse.rootInner entry) [ts.last.leaf] [] () [ts.last.leaf] [] := by
        rw [hentry]
        exact .fragment_of_eof hts.last hnil
      exact hreads.not_flagged (w := []) hts (by simp [TokenList.upcoming, htokens]) hclean (by simp)
    · obtain ⟨hstarts, ss, hleaves, hreads⟩ := hcomplete _ ts.last.leaf hderives hts.last
      refine Parse.Reads.not_flagged hts rfl hclean hleaves ?_
      rw [hentry]
      exact .fragment hts.last hstarts hreads

/-- **Exact acceptance.** Where no token of a text carries a diagnostic, its parse as a statement has none just
if the text is empty or its tokens are derived for a statement, and likewise for an expression. -/
theorem reports_eq_nil_iff_derives (w : Workspace) (text : Text) (options : Options)
    (hclean : ∀ l ∈ tokenize options.symbols text, l.diagnostics = []) :
    ((ofText w text options .statement).1.reports = [] ↔
      sentence options.symbols text = [] ∨ Derives .statement (sentence options.symbols text)) ∧
    ((ofText w text options .expression).1.reports = [] ↔
      sentence options.symbols text = [] ∨ Derives .expression (sentence options.symbols text)) := by
  constructor
  · refine reports_fragment_iff w hclean rfl rfl (fun _ => .statement) fun u l hderives hl => ?_
    obtain ⟨b, ss, hyields⟩ := hderives.hasTrees rfl
    have hbuilds : Parse.BuildsStatement options.version b u ss := hyields.builds options.version
    refine ⟨?_, ss, hyields.leavesAll_eq, hbuilds.statement (o := []) (by simp [hl])⟩
    rw [frontKind_append (hyields.ne_nil (by simp))]
    exact hyields.starts (by simp)
  · refine reports_fragment_iff w hclean rfl rfl (fun _ => .expression) fun u l hderives hl => ?_
    obtain ⟨ss, hyields⟩ := hderives.hasTrees rfl
    have hbuilds : Parse.BuildsExpression options.version u ss := hyields.builds options.version
    refine ⟨?_, ss, hyields.leavesAll_eq, hbuilds.expression (o := []) (by rw [frontKind_cons, hl]; rfl)⟩
    rw [frontKind_append (hyields.ne_nil (by simp))]
    exact hyields.starts (by simp)

/-- An assignment with a semicolon behind it is a statement and no expression. -/
theorem reports_eq_nil_iff_derives_assignment :
    (∀ l ∈ tokenize [] ['a', '=', 'b', ';'], l.diagnostics = []) ∧
      (ofText {} ['a', '=', 'b', ';'] {} .statement).1.reports = [] ∧
      ¬ Derives .expression (sentence [] ['a', '=', 'b', ';']) := by
  have hclean : ∀ l ∈ tokenize [] ['a', '=', 'b', ';'], l.diagnostics = [] := by decide +kernel
  have hkinds : sentence [] ['a', '=', 'b', ';'] = [.ident] ++ .punct .eq :: [.ident] ++ [.punct .semicolon] := by
    decide +kernel
  have hname : Derives (.binary 0) [.ident] :=
    .binary_of_prefixed (Nat.zero_le _) (.unary (.operand (.reference .ident)))
  obtain ⟨hstatement, hexpression⟩ := reports_eq_nil_iff_derives {} _ {} hclean
  refine ⟨hclean, hstatement.2 (.inr ?_), fun hderives => ?_⟩
  · rw [hkinds]
    exact .expressionStatement (.assignment hname (by decide) (.value hname))
  · have hreports : (ofText {} ['a', '=', 'b', ';'] {} .expression).1.reports ≠ [] := by decide +kernel
    exact hreports (hexpression.2 (.inr hderives))

end SyntaxTree

end IncrementalSyntax

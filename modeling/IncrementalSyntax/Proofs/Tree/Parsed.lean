import IncrementalSyntax.Proofs.Red.Annotated
import IncrementalSyntax.Proofs.Stream.Buffer
import IncrementalSyntax.Tree.Basic

/-!
# The tree of a parse

Whatever a cursor uses again of an old tree, the parse gives a tree with the tokens and the directives of
its text. It is the tree that a parse without an old tree gives, up to identities, just if no `else` got
lost.

## Main definitions

* `SyntaxTree.Valid`: what holds of every tree
* `SyntaxTree.Agrees`: two trees that differ in identities and counts only

## Main results

* `SyntaxTree.valid_ofCursor`: a parse gives a valid tree
* `SyntaxTree.agrees_ofCursor_iff`: it gives what a fresh parse gives, just if no `else` got lost
-/

namespace IncrementalSyntax

/-! ## Reports -/

/-- The reports of tokens in a row depend on their leaves only. -/
theorem Red.reports_congr {ts us : List Token} (h : ts.map Token.leaf = us.map Token.leaf) (start : Nat) :
    (Green.placeTokens start ts).flatMap (fun p => tokenReports p.1 p.2) =
      (Green.placeTokens start us).flatMap fun p => tokenReports p.1 p.2 := by
  induction ts generalizing us start with
  | nil =>
    obtain rfl : us = [] := by simpa using h.symm
    rfl
  | cons t ts ih =>
    cases us with
    | nil => cases h
    | cons u us =>
      obtain ⟨hleaf, hrest⟩ := List.cons.inj h
      have hhead : tokenReports start t = tokenReports start u := by rw [tokenReports, tokenReports, hleaf]
      rw [Green.placeTokens, Green.placeTokens, List.flatMap_cons, List.flatMap_cons, hhead, hleaf, ih hrest]

/-- Where the flags are right, a tree reports what its leaves carry. -/
theorem Red.reports_ofRoot {g : Green} (h : g.Exact) :
    (ofRoot g).reports = (g.tokensFrom 0).flatMap fun p => tokenReports p.1 p.2 := by
  show (if g.flags.diagnostics = true then _ else _) = _
  split
  · rfl
  · next hd =>
    have hflag : ¬ Green.Flagged [g] := fun hf => hd (h.flagged_iff.1 hf)
    have hnil : ∀ (ts : List Token) (start : Nat), (∀ t ∈ ts, t.leaf.diagnostics = []) →
        (Green.placeTokens start ts).flatMap (fun p => tokenReports p.1 p.2) = [] := by
      intro ts
      induction ts with
      | nil => exact fun _ _ => rfl
      | cons t ts ih =>
        intro start hts
        rw [Green.placeTokens, List.flatMap_cons, ih _ fun u hu => hts u (List.mem_cons_of_mem _ hu), tokenReports,
          hts t List.mem_cons_self]
        rfl
    refine (hnil g.tokens 0 fun t ht => ?_).symm
    by_contra hne
    exact hflag ⟨t.leaf, by simpa [Green.leaves] using ⟨t, ht, rfl⟩, hne⟩

namespace SyntaxTree

/-- **Valid.** The tree has the tokens and the directives of its text, and its statements and members are
good where they carry no annotation. -/
structure Valid (t : SyntaxTree) : Prop where
  old : t.asOld.Valid t.options.symbols
  sound : t.root.SoundWherePlain t.options.version

/-- **Agrees.** The trees differ in identities and in what was used again only. -/
structure Agrees (a b : SyntaxTree) : Prop where
  shape : a.root.shape = b.root.shape
  directives : a.directives = b.directives
  reports : a.reports = b.reports
  status : a.status = b.status

section OfCursor

variable (snapshot : Snapshot) {options : Options} (entry : EntryPoint) {set : ChangeSet} {reuse : Option Reuse}
variable {cursor : Cursor}

/-- What holds of the tree of a parse. -/
theorem valid_ofCursor (hat : cursor.At options.symbols snapshot.text set reuse [])
    (hsound : ∀ r, reuse = some r → r.old.root.SoundWherePlain options.version) :
    (ofCursor snapshot options entry cursor).1.Valid := by
  let S := Supply.ofCursor options.version options.symbols snapshot.text set reuse hsound
  have hok : S.Ok cursor := ⟨[], hat⟩
  have hupcoming : tokenize options.symbols snapshot.text = S.upcoming cursor :=
    hat.scanned.tokenizeRest_eq nofun
  -- the cursor in front of the token that ends the text, and the one behind it
  obtain ⟨ls, hend⟩ : S.Ok (Parser.atEnd options.version entry cursor).source := (kept_atEnd hok entry).ready.ok
  have hlast := upcoming_atEnd hok entry
  set c := (Parser.atEnd options.version entry cursor).source with hc
  obtain ⟨hleaf, es, hs, -, htable, -⟩ := hend.next
  have htokens : tokenize options.symbols snapshot.text = ls ++ [(scan c.context c.rest).leaf] := by
    have h := hend.scanned.tokenizeRest_eq hend.kinds
    have hlast' : tokenizeRest c.context c.rest = [c.next.1.leaf] := hlast
    rw [tokenize_eq, h, hlast', hleaf]
  have hdirectives : (ofCursor snapshot options entry cursor).1.directives = c.next.2.2.table := by
    show (parse options.version entry cursor).source.table = _
    rw [parse_eq]
    rfl
  refine ⟨⟨parse_fine hok entry, ?_, ?_, ?_, ?_⟩, (parse_sound hok entry).soundWherePlain⟩
  · have hroot : (parse options.version entry cursor).root = _ := congrArg Parsed.root (parse_eq options.version entry cursor)
    exact ⟨_, _, _, hroot, S.present (kept_atEnd hok entry).ready.ok⟩
  · show Green.scannedAll [(parse options.version entry cursor).root] = tokenize options.symbols snapshot.text
    rw [parse_scanned hok entry, ← hupcoming, htokens]
    refine (List.map_congr_left fun l hl => ?_).trans (List.map_id _)
    rcases List.mem_append.1 hl with hl | hl
    · exact hend.scanned.bare_eq l hl
    · rw [List.mem_singleton.1 hl]
      exact bare_scan _ _
  · show (ofCursor snapshot options entry cursor).1.directives.initial = _
    rw [hdirectives, htable]
    exact hend.initial
  · show ∃ ctx t, Scanned _ snapshot.text (tokenize options.symbols snapshot.text) ctx t
      (ofCursor snapshot options entry cursor).1.directives.entries
    rw [hdirectives, htable, htokens, DirectiveTable.append, hend.offset]
    exact ⟨_, _, hend.scanned.append hs⟩

/-- The tokens of a text as a list that the parser can read. -/
theorem exists_tokenList (symbols : List Text) (text : Text) :
    ∃ ts : TokenList, ts.WellFormed ∧ ts.upcoming = tokenize symbols text := by
  obtain ⟨ls, c, t, es, hs, hkind, heof⟩ := Scanned.exists_eof (.initial symbols) text
  have htokens : tokenize symbols text = ls ++ [(scan c t).leaf] := by
    rw [tokenize_eq, hs.tokenizeRest_eq hkind, tokenizeRest_of_eq heof]
  rw [htokens]
  refine TokenList.exists_upcoming_eq heof hkind fun l hl => ?_
  rcases List.mem_append.1 hl with hl | hl
  · exact hs.missing_eq l hl
  · rw [List.mem_singleton.1 hl]
    exact missing_scan _ _

theorem directives_eq {a b : SyntaxTree} (ha : a.Valid) (hb : b.Valid) (htext : a.text = b.text)
    (hoptions : a.options = b.options) : a.directives = b.directives := by
  obtain ⟨c, t, hs⟩ := ha.old.entries
  obtain ⟨c', t', hs'⟩ := hb.old.entries
  have hs' : Scanned (.initial a.options.symbols) a.text (tokenize a.options.symbols a.text) c' t'
      b.directives.entries := by
    rw [htext, hoptions]
    exact hs'
  exact DirectiveTable.eq_of (ha.old.initial.trans (hoptions ▸ hb.old.initial.symm)) (Scanned.functional hs hs').2.2

/-- Where no `else` got lost the parse gives what a fresh parse gives, and only there. -/
theorem agrees_ofCursor_iff (snapshot' : Snapshot) {cursor' : Cursor} {set' : ChangeSet}
    (hat : cursor.At options.symbols snapshot.text set reuse [])
    (hsound : ∀ r, reuse = some r → r.old.root.SoundWherePlain options.version)
    (hat' : cursor'.At options.symbols snapshot.text set' none []) (htext : snapshot'.text = snapshot.text) :
    Agrees (ofCursor snapshot options entry cursor).1 (ofCursor snapshot' options entry cursor').1 ↔
      (ofCursor snapshot options entry cursor).1.root.missesElse .eof = false := by
  obtain ⟨ts, hts, hup⟩ := exists_tokenList options.symbols snapshot.text
  let S := Supply.ofCursor options.version options.symbols snapshot.text set reuse hsound
  let S' := Supply.ofCursor options.version options.symbols snapshot.text set' none nofun
  have hok : S.Ok cursor := ⟨[], hat⟩
  have hok' : S'.Ok cursor' := ⟨[], hat'⟩
  have hsame : S.upcoming cursor = ts.upcoming := hup ▸ (hat.scanned.tokenizeRest_eq nofun).symm
  have hsame' : S'.upcoming cursor' = ts.upcoming := hup ▸ (hat'.scanned.tokenizeRest_eq nofun).symm
  have hmiss' : (parse options.version entry cursor').root.missesElse .eof = false :=
    parse_missesElse_of_careful hok' nofun entry
  have hfresh := (parse_shape_iff hok' hts hsame' entry).2 hmiss'
  constructor
  · intro h
    exact (Green.missesElse_eq_of_shape h.shape .eof).trans hmiss'
  · intro hmiss
    obtain ⟨hshape, hstatus⟩ := (parse_shape_iff hok hts hsame entry).2 hmiss
    have hshape' : (parse options.version entry cursor).root.shape =
        (parse options.version entry cursor').root.shape := hshape.trans hfresh.1.symm
    refine ⟨hshape', ?_, ?_, hstatus.trans hfresh.2.symm⟩
    · rw [← htext] at hat'
      exact directives_eq (valid_ofCursor snapshot entry hat hsound) (valid_ofCursor snapshot' entry hat' nofun)
        htext.symm rfl
    · show (Red.ofRoot (parse options.version entry cursor).root).reports =
        (Red.ofRoot (parse options.version entry cursor').root).reports
      rw [Red.reports_ofRoot (parse_fine hok entry).exact, Red.reports_ofRoot (parse_fine hok' entry).exact]
      exact Red.reports_congr (Green.leaves_eq_of_shape hshape') 0

/-- No `else` gets lost where none was lost in the old tree, and no text was added at the end of a line. -/
theorem missesElse_ofCursor (hat : cursor.At options.symbols snapshot.text set reuse [])
    (hsound : ∀ r, reuse = some r → r.old.root.SoundWherePlain options.version)
    (hcareful : ∀ r, reuse = some r → ¬ Reuse.AddsBehindLine r.old.text set ∧ r.old.root.missesElse .eof = false) :
    (ofCursor snapshot options entry cursor).1.root.missesElse .eof = false :=
  parse_missesElse_of_careful
    (S := Supply.ofCursor options.version options.symbols snapshot.text set reuse hsound) ⟨[], hat⟩ hcareful entry

end OfCursor

end SyntaxTree

end IncrementalSyntax

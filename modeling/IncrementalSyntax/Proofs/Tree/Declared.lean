import IncrementalSyntax.Proofs.Grammar.Declarations
import IncrementalSyntax.Proofs.Tree.Accepted

/-!
# Declared members

A file whose tree has no diagnostics consists of declarations, and each of its members is a declaration of
the kind that its node says. The modifiers in front of a using directive or a namespace are the one thing
that the parser takes beyond the grammar.

## Main definitions

* `words`: the tokens of a text

## Main results

* `declares_of_sub`: a member in a tree without diagnostics is a declaration of its kind
* `SyntaxTree.members_declared`: files without diagnostics consist of declarations
* `SyntaxTree.accepts_modified_using`: the modifiers that the grammar does not know
-/

namespace IncrementalSyntax

open Green (Flagged Sub leavesAll flagged_append flagged_ofChildren)

/-! ## Members in a tree -/

/-- A member that is built again out of its own tokens is declared, since whatever is built is. -/
theorem Replays.declares {version : LanguageVersion} {g : Green} {kind : NodeKind}
    (h : Replays version Parse.memberUpTo g) (hflag : ¬ Flagged [g])
    (hleaves : ∀ l ∈ g.leaves, l.tokenKind ≠ .eof ∧ l.missing = false) (hkind : g.nodeKind? = some kind) :
    Declares version true (.member kind) g.leaves := by
  have hpresent : ∀ l ∈ g.leaves ++ [{ kind := .token .eof, text := [] }], l.missing = false := by
    intro l hl
    rcases List.mem_append.1 hl with hl | hl
    · exact (hleaves l hl).2
    · rw [List.mem_singleton.1 hl]
  obtain ⟨ts, hts, hup⟩ := TokenList.exists_upcoming_eq rfl (fun l hl => (hleaves l hl).1) hpresent
  obtain ⟨g', s', hrun, hshape, -, hrest⟩ := h (g.leaves.length + 1) (.start version ts) _ hts rfl hup (Nat.le_succ _)
    (fun _ => by simp [frontKind, Leaf.tokenKind])
  have hlength : ts.upcoming.length ≤ g.leaves.length + 1 := by simp [hup]
  rcases (Parse.Takes.memberUpTo (v := version) le_rfl).takes (.start version ts) (ready_start hts) trivial hlength with
    hf | ⟨taken, htaken, o, g₁, kind₁, hout, hkind₁, hdeclares⟩
  · rw [hrun] at hf
    exact absurd (Green.flagged_of_shapes (by simp [Parser.start, hshape]) hf) hflag
  rw [hrun] at hout htaken
  obtain ⟨-, hg⟩ := List.append_inj' (show [] ++ [g'] = o ++ [g₁] from hout) rfl
  obtain rfl := List.singleton_inj.1 hg
  obtain rfl : kind = kind₁ :=
    Option.some.inj (hkind.symm.trans ((Green.nodeKind?_eq_of_shape hshape).symm.trans hkind₁))
  have htaken : ts.upcoming = taken ++ s'.upcoming := htaken
  rw [hup, hrest] at htaken
  rwa [List.append_cancel_right htaken]

section Supplies

variable {version : LanguageVersion} {σ : Type} [TokenSource σ] {S : Supply version σ} {s : σ}
variable {entry : EntryPoint}

/-- Without a diagnostic the leaves below the root are all that the source feeds. -/
theorem upcoming_eq_of_not_flagged (h : S.Ok s) (hflag : ¬ Flagged [(parse version entry s).root]) :
    S.upcoming s = leavesAll (Parser.atEnd version entry s).out ++
      [(TokenSource.next (Parser.atEnd version entry s).source).1.leaf] := by
  obtain ⟨taken, htaken, -, hplain⟩ := (kept_atEnd h entry).taken
  rw [parse_eq, flagged_ofChildren, flagged_append] at hflag
  have hleaves : leavesAll (Parser.atEnd version entry s).out = taken := by
    simpa [Parser.start] using hplain fun hf => hflag (.inl hf)
  rw [hleaves, ← upcoming_atEnd h entry]
  exact htaken

theorem leaves_parse (h : S.Ok s) (hflag : ¬ Flagged [(parse version entry s).root]) :
    (parse version entry s).root.leaves = S.upcoming s := by
  rw [upcoming_eq_of_not_flagged h hflag, parse_eq]
  simp

/-- No node below the root reaches to the end of the text. -/
theorem tokenKind_ne_eof_of_sub (h : S.Ok s) (hflag : ¬ Flagged [(parse version entry s).root]) {g : Green}
    (hg : Sub g (parse version entry s).root) {kind : NodeKind} (hkind : g.nodeKind? = some kind)
    (hroot : kind ≠ Parse.rootKind entry) : ∀ l ∈ g.leaves, l.tokenKind ≠ .eof := by
  intro l hl
  refine S.tokenKind_ne_eof h (upcoming_eq_of_not_flagged h hflag) l ?_
  rw [parse_eq] at hg
  cases hg with
  | self => exact absurd (Option.some.inj hkind).symm hroot
  | child hc hg =>
    rcases List.mem_append.1 hc with hc | hc
    · exact Green.mem_leavesAll.2 ⟨_, hc, hg.leaves_subset l hl⟩
    · obtain rfl := List.mem_singleton.1 hc
      cases hg
      cases hkind

/-- A member in a tree without diagnostics is a declaration of its kind. -/
theorem declares_of_sub (h : S.Ok s) (hcareful : S.Careful) (hflag : ¬ Flagged [(parse version entry s).root])
    {g : Green} (hg : Sub g (parse version entry s).root) {kind : NodeKind} (hkind : g.nodeKind? = some kind)
    (hmember : kind.isMember = true) : Declares version true (.member kind) g.leaves := by
  have hplain : ¬ Flagged [g] := by
    rintro ⟨l, hl, hd⟩
    exact hflag ⟨l, by simpa using hg.leaves_subset l (by simpa using hl), hd⟩
  have hmisses : g.missesElse .eof = false := by
    by_contra hm
    have hroot := hg.missesElse_of_eof (Bool.eq_true_of_not_eq_false hm)
    rw [parse_missesElse_of_careful h hcareful] at hroot
    cases hroot
  have hgood : Green.Good version g := parse_sound h entry g hg (by simp [Green.isUnit, hkind, hmember])
  refine (hgood.member hplain hmisses (by simp [hkind, hmember])).declares hplain (fun l hl => ⟨?_, ?_⟩) hkind
  · refine tokenKind_ne_eof_of_sub h hflag hg hkind ?_ l hl
    rintro rfl
    cases entry <;> cases hmember
  · exact S.missing_eq_false h l (leaves_parse h hflag ▸ hg.leaves_subset l hl)

end Supplies

/-! ## Files -/

/-- The tokens of a text, without the one that ends it. -/
def words (symbols : List Text) (text : Text) : List Leaf :=
  (tokenize symbols text).filter fun l => l.tokenKind ≠ .eof

theorem words_eq {symbols : List Text} {text : Text} {ts : TokenList} (hts : ts.WellFormed)
    (hup : ts.upcoming = tokenize symbols text) : words symbols text = ts.tokens.map Token.leaf := by
  have hkinds : ∀ l ∈ ts.tokens.map Token.leaf, decide (l.tokenKind ≠ .eof) = true := by simpa using hts.tokens
  rw [words, ← hup, TokenList.upcoming, List.filter_append, List.filter_eq_self.2 hkinds]
  simp [hts.last]

namespace SyntaxTree

variable {text : Text} {options : Options}

/-- **Sound declarations.** A file without diagnostics consists of declarations, and each member of its tree
is a declaration of its kind. The grammar is the lenient one. It is the strict one where no modifier stands in
front of `using` or `namespace`. -/
theorem members_declared (w : Workspace) (h : (ofText w text options .compilationUnit).1.reports = [])
    {lenient : Bool} (hlenient : lenient = true ∨ Unmodified (words options.symbols text)) :
    Declares options.version lenient .members (words options.symbols text) ∧
      ∀ (g : Green) (kind : NodeKind), Sub g (ofText w text options .compilationUnit).1.root →
        g.nodeKind? = some kind → kind.isMember = true → Declares options.version lenient (.member kind) g.leaves := by
  obtain ⟨ts, hts, hup⟩ := exists_tokenList options.symbols text
  have hwords := words_eq hts hup
  have hat := Cursor.at_atStart options.symbols text .empty w.pool
  let S := Supply.ofCursor options.version options.symbols text .empty none nofun
  have hok : S.Ok (.atStart text (initialContext options) w.pool) := ⟨[], hat⟩
  have hvalid : (ofText w text options .compilationUnit).1.Valid :=
    valid_ofCursor (w.history.begin text).1 .compilationUnit hat nofun
  have hflag : ¬ Flagged [(ofText w text options .compilationUnit).1.root] :=
    (Red.reports_eq_nil_iff hvalid.old.fine.exact).1 h
  have hmembers : Declares options.version true .members (words options.symbols text) := by
    rw [hwords]
    exact Parse.Takes.parse hts Parse.Takes.members ((reports_ofText w .compilationUnit hts hup).1 h)
  have hmember : ∀ (g : Green) (kind : NodeKind), Sub g (ofText w text options .compilationUnit).1.root →
      g.nodeKind? = some kind → kind.isMember = true → Declares options.version true (.member kind) g.leaves :=
    fun g kind hg hkind hk => declares_of_sub hok nofun hflag hg hkind hk
  rcases hlenient with rfl | hunmodified
  · exact ⟨hmembers, hmember⟩
  cases lenient with
  | true => exact ⟨hmembers, hmember⟩
  | false =>
    refine ⟨hmembers.strict hunmodified, fun g kind hg hkind hk => (hmember g kind hg hkind hk).strict ?_⟩
    have hroot : (ofText w text options .compilationUnit).1.root.leaves = words options.symbols text ++ [ts.last.leaf] := by
      rw [hwords]
      exact (leaves_parse hok hflag).trans ((hat.scanned.tokenizeRest_eq nofun).symm.trans hup.symm)
    exact (hunmodified.concat hts.last).of_part (hroot ▸ hg.leaves_isInfix)

/-- A using directive in a file, a record in a namespace, and in it a field and a method. -/
theorem members_declared_record :
    let text := "using A;namespace N{record R:B{int x=1;void M(int a){}}}".toList
    (ofText {} text {} .compilationUnit).1.reports = [] ∧ Unmodified (words [] text) ∧
      Declares .latest false .members (words [] text) := by
  intro text
  have hreports : (ofText {} text {} .compilationUnit).1.reports = [] := by decide +kernel
  have hunmodified : Unmodified (words [] text) := by
    unfold Unmodified
    decide +kernel
  exact ⟨hreports, hunmodified, (members_declared {} hreports (.inr hunmodified)).1⟩

/-- A modifier in front of a using directive is accepted, although no member can be written so. -/
theorem accepts_modified_using :
    (ofText {} "public using A;".toList {} .compilationUnit).1.reports = [] ∧
      ¬ Declares .latest false .members (words [] "public using A;".toList) := by
  have hreports : (ofText {} "public using A;".toList {} .compilationUnit).1.reports = [] := by decide +kernel
  have hkinds : (words [] "public using A;".toList).map Leaf.tokenKind =
      [.modifier .publicMod, .keyword .usingKw, .ident, .punct .semicolon] := by decide +kernel
  obtain ⟨m, ls, hwords, hm, hls⟩ := List.map_eq_cons_iff.1 hkinds
  obtain ⟨u, ls, rfl, hu, -⟩ := List.map_eq_cons_iff.1 hls
  refine ⟨hreports, ?_⟩
  rw [hwords]
  exact Declares.not_modified_using (by rw [hm]; rfl) hu

end SyntaxTree

end IncrementalSyntax

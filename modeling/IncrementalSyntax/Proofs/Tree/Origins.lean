import IncrementalSyntax.Proofs.Token.Complaints
import IncrementalSyntax.Proofs.Tree.Formed

/-!
# Where the leaves of a tree come from

The parser makes a leaf up where a token is missing, and it adds a diagnostic to the first of the tokens that it skips.
All other leaves are as they were scanned. So what is reported in a tree and not in the tokens of its text has a code of
the parser, and what is reported in the tokens has one of the scanner, unless it says that a directive has no symbol to
define or to undefine.

## Main definitions

* `Leaf.Origin`: the ways in which a leaf gets into a tree
* `Supply.Scans`: a source of scanned leaves
* `Leaf.LacksSymbol`: a directive that has no symbol to define or to undefine

## Main results

* `Parse.Steps.origins`: what the parser emits
* `Session.origins`: the leaves of the trees of a session
* `Session.codes_spec`: which codes are reported by the scanner, and which ones the parser adds
-/

namespace IncrementalSyntax

open Green (leavesAll leavesAll_append scannedAll)

/-- **Origin.** A leaf is made up by the parser, it is as it was scanned, or it is the first of the tokens that were
skipped. -/
inductive Leaf.Origin (l : Leaf) : Prop
  | absent {kind : Kind} {code : Code} {args : List String} (h : l = .absent kind (.ofCode code 0 0 args))
      (hcode : code.isLexical = false)
  | scanned {c : Context} {t : Text} (h : l = (scan c t).leaf)
  | skipped {c : Context} {t : Text} (h : l = Parse.unexpected (scan c t).leaf)

/-- The parser adds no annotations. -/
theorem Leaf.Origin.unannotated {l : Leaf} (h : l.Origin) : l.unannotated = l := by
  cases h with
  | absent h => rw [h]; rfl
  | scanned h => rw [h]; exact unannotated_of_bare (bare_scan _ _)
  | skipped h => rw [h]; exact congrArg Parse.unexpected (unannotated_of_bare (bare_scan _ _))

variable {version : LanguageVersion} {σ : Type} [TokenSource σ] {S : Supply version σ}

/-- **Scans.** The leaves to come have been scanned. -/
def Supply.Scans (S : Supply version σ) : Prop :=
  ∀ {s}, S.Ok s → ∀ l ∈ S.upcoming s, ∃ (c : Context) (t : Text), l = (scan c t).leaf

theorem Supply.Scans.origin (hS : S.Scans) {s : σ} (h : S.Ok s) {l : Leaf} (hl : l ∈ S.upcoming s) : l.Origin := by
  obtain ⟨c, t, heq⟩ := hS h l hl
  exact .scanned heq

theorem Supply.scans_ofCursor {symbols : List Text} {text : Text} {set : ChangeSet} {reuse : Option Reuse}
    (hsound : ∀ r, reuse = some r → r.old.root.SoundWherePlain version) :
    (Supply.ofCursor version symbols text set reuse hsound).Scans :=
  fun _ _ hl => exists_scan_of_mem_tokenizeRest hl

namespace Parse

variable {p p' : Parser σ} {lists lists' : List ListContext}

/-- What is emitted behind leaves that have an origin. -/
theorem forall_origin_append {gs gs' : List Green} (h : ∀ l ∈ leavesAll gs, l.Origin)
    (h' : ∀ l ∈ leavesAll gs', l.Origin) : ∀ l ∈ leavesAll (gs ++ gs'), l.Origin := by
  rw [leavesAll_append]
  exact List.forall_mem_append.2 ⟨h, h'⟩

/-- **Steps emit only leaves with an origin.** -/
theorem Steps.origins (hS : S.Scans) (h : Steps S lists p lists' p') (hp : Ready S p)
    (hout : ∀ l ∈ leavesAll p.out, l.Origin) : ∀ l ∈ leavesAll p'.out, l.Origin := by
  induction h with
  | refl => exact hout
  | trans h h' ih ih' => exact ih' (h.kept hp).ready (ih hp hout)
  | @bump _ p h =>
    obtain ⟨rest, hup⟩ := S.upcoming_eq_cons hp.ok
    have hnext : (TokenSource.next p.source).1.leaf ∈ S.upcoming p.source := hup ▸ List.mem_cons_self ..
    refine forall_origin_append hout ?_
    simpa using hS.origin hp.ok hnext
  | missing kind hcode =>
    rw [missing_apply]
    refine forall_origin_append hout ?_
    simpa using Leaf.Origin.absent rfl hcode
  | @reuse _ p kinds g s hkinds h =>
    obtain ⟨-, hup, -⟩ := S.reuse hp.ok h
    refine forall_origin_append hout fun l hl => hS.origin hp.ok ?_
    rw [hup]
    exact List.mem_append_left _ (by simpa using hl)
  | @skip p =>
    rcases skipToRecovery_spec hp with ⟨-, heq⟩ | ⟨id, id', l, rest, s, heq, hup, -, -⟩
    · rwa [heq]
    · rw [heq]
      refine forall_origin_append hout ?_
      -- only the first of the skipped tokens is changed
      have hmem : ∀ k ∈ l :: rest.map Token.leaf, k ∈ S.upcoming p.source := fun k hk =>
        hup ▸ List.mem_append_left _ hk
      obtain ⟨c, t, hl⟩ := hS hp.ok l (hmem l List.mem_cons_self)
      have hall : ∀ k ∈ unexpected l :: rest.map Token.leaf, k.Origin :=
        List.forall_mem_cons.2 ⟨.skipped (congrArg unexpected hl), fun k hk =>
          hS.origin hp.ok (hmem k (List.mem_cons_of_mem _ hk))⟩
      simpa using hall
  -- a node has the leaves of its children
  | @enclose _ p kind hskipped hif hgrouped =>
    show ∀ l ∈ leavesAll [.ofChildren _ _ p.out], l.Origin
    simpa using hout
  | scope _ ih => exact forall_origin_append hout (ih ⟨hp.ok, hp.version⟩ nofun)
  | within _ ih => exact ih ⟨hp.ok, hp.version⟩ hout

end Parse

/-- The leaves of a parse have an origin. -/
theorem parse_origins (hS : S.Scans) {s : σ} (h : S.Ok s) (entry : EntryPoint) :
    ∀ l ∈ (parse version entry s).root.leaves, l.Origin := by
  have hout := (Parse.steps_atEnd h entry).origins hS (ready_start h) nofun
  have hok := (kept_atEnd h entry).ready.ok
  obtain ⟨rest, hup⟩ := S.upcoming_eq_cons hok
  have hlast := hS.origin hok (hup ▸ List.mem_cons_self ..)
  rw [parse_eq]
  refine Parse.forall_origin_append hout ?_
  simpa using hlast

/-! ## Trees -/

namespace Session

variable {allowed : Text → ChangeSet → Prop} {w : Workspace} {trees : List SyntaxTree} {made : List Snapshot}
variable {t : SyntaxTree}

/-- **Origins.** Apart from annotations, the leaves of a tree are what the parser has emitted. -/
theorem origins (h : Session allowed w trees made) (ht : t ∈ trees) : ∀ l ∈ t.root.leaves, l.unannotated.Origin := by
  -- a tree of a session is a parse, or it is a copy of one with other annotations
  refine h.forall_trees (P := fun t => ∀ l ∈ t.root.leaves, l.unannotated.Origin) ?_ ?_ t ht
  · intro snapshot options entry set reuse cursor hat hsound _ l hl
    have horigin := parse_origins (Supply.scans_ofCursor hsound) ⟨[], hat⟩ entry l hl
    exact horigin.unannotated.symm ▸ horigin
  · intro t g _ ht hcopy l hl
    have hmem : l.unannotated ∈ t.root.leaves.map Leaf.unannotated := hcopy.leaves_eq ▸ List.mem_map_of_mem hl
    obtain ⟨k, hk, hsame⟩ := List.mem_map.1 hmem
    exact hsame ▸ ht k hk

end Session

/-! ## Codes -/

/-- **Lacks a symbol.** A diagnostic covers the line of a directive in front of a leaf which has no symbol where it
should define or undefine one. -/
def Leaf.LacksSymbol (l : Leaf) (d : Diagnostic) : Prop :=
  ∃ before p after, l.leading = before ++ p :: after ∧
    (p.kind = .trivia (.directive .define) ∨ p.kind = .trivia (.directive .undef)) ∧
    DirectiveLine.isSymbol (DirectiveLine.symbolOf p.text.line) = false ∧
    d.offset = Trivia.widthAll before ∧ d.length = Text.width p.text.line

theorem Code.isLexical_of_mem {code : Code} (h : code ∈ RawToken.codes) : code.isLexical = true := by
  revert h
  cases code <;> decide

/-- What is reported in a scanned leaf has a code of the scanner, unless a directive has no symbol. -/
theorem Leaf.Reports.isLexical {s : DirectiveState} {l : Leaf} {own : List Diagnostic} (h : l.Reports s own)
    {d : Diagnostic} (hd : d ∈ l.diagnostics) :
    d.code.isLexical = true ∨ d.code = .identifierExpected ∧ l.LacksSymbol d := by
  rcases h.cases hd with ⟨before, ⟨kind, text⟩, after, hsplit, hdirective, hd⟩ | hopen | hcode | ⟨-, closer, rfl⟩
  · obtain ⟨k, rfl⟩ := Trivia.exists_kind_of_isDirective hdirective
    obtain ⟨d₀, hd₀, rfl⟩ := List.mem_map.1 hd
    refine ((DirectiveLine.complains_process _ _).of_mem hd₀).2.imp_right ?_
    rintro ⟨hcode, hoffset, hlength, hkind, hsymbol⟩
    rw [h.directive before text after k hsplit] at hkind
    refine ⟨hcode, before, _, after, hsplit, ?_, hsymbol, ?_, hlength⟩
    · rcases hkind with rfl | rfl
      · exact .inl rfl
      · exact .inr rfl
    · rw [Diagnostic.shift, hoffset, Nat.zero_add]
  · exact .inl (hopen ▸ rfl)
  · exact .inl (Code.isLexical_of_mem hcode)
  · exact .inl rfl

/-- A leaf of a tree carries what was scanned, and perhaps one more diagnostic with a code of the parser. -/
theorem Leaf.Origin.diagnostics_eq {l : Leaf} (h : l.unannotated.Origin) (hpresent : l.missing = false) :
    l.diagnostics = l.bare.diagnostics ∨
      ∃ d : Diagnostic, d.code.isLexical = false ∧ l.diagnostics = l.bare.diagnostics ++ [d] := by
  have hbare : l.bare = l.unannotated.bare := rfl
  have hdiagnostics : l.unannotated.diagnostics = l.diagnostics := rfl
  rw [hbare, ← hdiagnostics]
  have hmissing : l.unannotated.missing = false := hpresent
  cases h with
  | absent h =>
    rw [h] at hmissing
    cases hmissing
  | scanned h =>
    rw [h, bare_scan]
    exact .inl rfl
  | skipped h =>
    rw [h, Parse.bare_unexpected, bare_scan]
    exact .inr ⟨_, rfl, rfl⟩

namespace Session

/-- **The codes of the scanner and of the parser.** In the tokens of a text all that is reported has a code of the
scanner, unless a directive has no symbol to define or to undefine. In a tree of a session each token of the text comes
with what is reported in it there, and perhaps with one more diagnostic; this one and those of missing tokens have codes
of the parser. -/
theorem codes_spec (symbols : List Text) (text : Text) :
    (∀ l ∈ tokenize symbols text, ∀ d ∈ l.diagnostics,
      d.code.isLexical = true ∨ d.code = .identifierExpected ∧ l.LacksSymbol d) ∧
    ∀ {allowed : Text → ChangeSet → Prop} {w : Workspace} {trees : List SyntaxTree} {made : List Snapshot}
      {t : SyntaxTree}, Session allowed w trees made → t ∈ trees →
      List.Forall₂ (fun l k => l.bare = k ∧ (l.diagnostics = k.diagnostics ∨
          ∃ d : Diagnostic, d.code.isLexical = false ∧ l.diagnostics = k.diagnostics ++ [d]))
        (t.root.leaves.filter fun l => !l.missing) (tokenize t.options.symbols t.text) ∧
      ∀ l ∈ t.root.leaves, l.missing = true → ∀ d ∈ l.diagnostics, d.code.isLexical = false := by
  refine ⟨fun l hl d hd => ?_, fun {_ _ _ _ t} h ht => ⟨?_, fun l hl hm d hd => ?_⟩⟩
  · rw [tokenize_eq] at hl
    obtain ⟨c, u, rfl⟩ := exists_scan_of_mem_tokenizeRest hl
    obtain ⟨own, hreports⟩ := reports_scan c u
    exact hreports.isLexical hd
  · have hscanned : (t.root.leaves.filter fun l => !l.missing).map Leaf.bare = tokenize t.options.symbols t.text := by
      have hvalid := (h.valid.2 t ht).1.old.scanned
      rwa [scannedAll, Green.leavesAll_cons, Green.leavesAll_nil, List.append_nil] at hvalid
    rw [← hscanned, List.forall₂_map_right_iff, List.forall₂_same]
    intro l hl
    obtain ⟨hl, hpresent⟩ := List.mem_filter.1 hl
    exact ⟨rfl, (h.origins ht l hl).diagnostics_eq (by simpa using hpresent)⟩
  · have horigin := h.origins ht l hl
    have hd : d ∈ l.unannotated.diagnostics := hd
    have hm : l.unannotated.missing = true := hm
    cases horigin with
    | absent h hcode =>
      rw [h] at hd
      rw [List.mem_singleton.1 hd]
      exact hcode
    | scanned h =>
      rw [h, missing_scan] at hm
      cases hm
    | skipped h =>
      have hmissing : (scan _ _).leaf.missing = true := (congrArg Leaf.missing h).symm.trans hm
      rw [missing_scan] at hmissing
      cases hmissing

/-- A closing parenthesis that is skipped, in front of a class without a name. -/
theorem codes_spec_skipped : ∃ (w : Workspace) (trees : List SyntaxTree) (made : List Snapshot) (t : SyntaxTree),
    Session (fun _ _ => True) w trees made ∧ t ∈ trees ∧ t.text = ") class { }".toList ∧
      t.root.leaves.map (fun l => l.diagnostics.map Diagnostic.code) =
        [[.unexpectedToken], [], [.identifierExpected], [], [], []] ∧
      (∀ l ∈ tokenize t.options.symbols t.text, ∀ d ∈ l.diagnostics,
        d.code.isLexical = true ∨ d.code = .identifierExpected ∧ l.LacksSymbol d) ∧
      ∀ l ∈ t.root.leaves, l.missing = true → ∀ d ∈ l.diagnostics, d.code.isLexical = false := by
  let t : SyntaxTree := (SyntaxTree.ofText {} ") class { }".toList {} .compilationUnit).1
  have h : Session (fun _ _ => True) _ [t] [t.snapshot] := .parse ") class { }".toList {} .compilationUnit .start
  have ht : t ∈ [t] := List.mem_singleton_self t
  exact ⟨_, _, _, t, h, ht, rfl, by decide +kernel, (codes_spec _ _).1, ((codes_spec [] []).2 h ht).2⟩

/-- The scanner reports that an identifier is expected, which is a code of the parser. -/
theorem exists_scanned_not_isLexical : ∃ l ∈ tokenize [] "#define 1".toList, ∃ d ∈ l.diagnostics,
    d.code = .identifierExpected ∧ d.code.isLexical = false := by
  decide +kernel

end Session

end IncrementalSyntax

import IncrementalSyntax.Proofs.Ast.Members
import IncrementalSyntax.Proofs.Tree.Accepted

/-!
# Abstract trees are read back

A compilation unit, a statement or an expression is written with a space between each two of its words, and
the text is parsed. The tree has no diagnostics, and through its views it reads as what was written.

## Main definitions

* `SyntaxTree.toMembers?`, `SyntaxTree.toStmt?`, `SyntaxTree.toExpr?`: what a tree reads as

## Main results

* `SyntaxTree.ofText_of_reads`: the tree of a text whose course is known
* `SyntaxTree.reads_back_written`: what is written is read back
-/

namespace IncrementalSyntax

open Ast (Expr Stmt Member AllWhole Spelled)
open Shape (leaf branch Shows)

namespace SyntaxTree

/-- The members of a file. -/
def toMembers? (t : SyntaxTree) : Option (List Member) :=
  (View.ofRed? .compilationUnit t.red).bind fun v => v.members.mapM View.toMember?

/-- The statement of a fragment. -/
def toStmt? (t : SyntaxTree) : Option Stmt := (View.partOf? .statement t.red).bind View.toStmt?

/-- The expression of a fragment. -/
def toExpr? (t : SyntaxTree) : Option Expr := (View.partOf? .expression t.red).bind View.toExpr?

section Course

variable {text : Text} {options : Options} {entry : EntryPoint} {ls : List Leaf} {e : Leaf} {ss : List Shape}

/-- The tree of a text whose course is known. -/
theorem ofText_of_reads (w : Workspace) (htokens : tokenize options.symbols text = ls ++ [e])
    (hclean : ∀ l ∈ ls ++ [e], l.diagnostics = []) (hleaves : Shape.leavesAll ss = ls)
    (h : Parse.Reads options.version (Parse.rootInner entry) (ls ++ [e]) [] () [e] ss) :
    (ofText w text options entry).1.reports = [] ∧ (ofText w text options entry).1.status = .complete ∧
      (ofText w text options entry).1.root.shape = branch (Parse.rootKind entry) (ss ++ [leaf e]) := by
  obtain ⟨ts, hts, hup⟩ := exists_tokenList options.symbols text
  have hup' : ts.upcoming = ls ++ [e] := hup.trans htokens
  obtain ⟨hshape, hstatus⟩ := shape_ofText w entry hts hup
  obtain ⟨hroot, hcomplete⟩ := h.parse_eq hts hup'
  refine ⟨(reports_ofText w entry hts hup).2 ?_, hstatus.trans hcomplete, hshape.trans hroot⟩
  exact h.not_flagged hts hup' (hup' ▸ hclean) hleaves

/-- The part of a fragment reads as the abstract tree that its shape shows. -/
theorem part?_of_shape {t : SyntaxTree} {c : Category} {α : Type} {read : Nat → View c → Option α} {s : Shape}
    {a : α} (h : Shows read s a) (hroot : t.root.shape = branch .fragment [s, leaf e]) :
    (View.partOf? c t.red).bind (fun u => read u.red.green.depth u) = some a := by
  have hbelow : t.red.Below (branch .fragment [s, leaf e]) (t.root.depth + 2) := ⟨hroot, Nat.lt_add_of_pos_right two_pos⟩
  exact (Shows.part?_eq hbelow (by simp [h.fits]) h).2

/-- The members of a file read as the abstract trees that their shapes show. -/
theorem toMembers?_of_shape {t : SyntaxTree} {ms : List Member}
    (h : List.Forall₂ (Shows View.toMemberUpTo) ss ms)
    (hroot : t.root.shape = branch .compilationUnit (ss ++ [leaf e])) : t.toMembers? = some ms := by
  obtain ⟨v, hv, hred⟩ := View.ofRed?_of_shape (c := .compilationUnit) (r := t.red) hroot rfl
  have hbelow : v.red.Below (branch .compilationUnit (ss ++ [leaf e])) (t.root.depth + 2) := by
    rw [hred]
    exact ⟨hroot, Nat.lt_add_of_pos_right two_pos⟩
  have hmembers : v.members.mapM View.toMember? = some ms :=
    (Shows.mapM_parts hbelow (by simpa [Shows.filter_eq h] using h)).2
  rw [toMembers?, hv]
  exact hmembers

end Course

/-- **What is written is read back.** -/
theorem reads_back_written (w : Workspace) (options : Options) :
    (∀ ms : List Member, (∀ m ∈ ms, m.Valid options.version) →
      let t := (ofText w (Ast.write (Member.wordsAll ms)) options .compilationUnit).1
      t.reports = [] ∧ t.status = .complete ∧ t.toMembers? = some ms) ∧
    (∀ s : Stmt, s.Valid →
      let t := (ofText w (Ast.write s.words) options .statement).1
      t.reports = [] ∧ t.status = .complete ∧ t.toStmt? = some s) ∧
    (∀ e : Expr, e.Fits .expression →
      let t := (ofText w (Ast.write e.words) options .expression).1
      t.reports = [] ∧ t.status = .complete ∧ t.toExpr? = some e) := by
  refine ⟨fun ms hvalid => ?_, fun s hvalid => ?_, fun e hfits => ?_⟩
  · have hwhole : AllWhole (Member.wordsAll ms) := by
      rw [Member.wordsAll_eq_flatMap]
      exact .flatMap fun m hm => (hvalid m hm).allWhole
    obtain ⟨ls, l, htokens, hls, hl, hclean⟩ := Ast.tokenize_write options.symbols hwhole
    obtain ⟨ss, hbuilds, hleaves, hall⟩ := Member.exists_members (fun m hm L => (hvalid m hm).exists_tree) hls
    have hreads : Parse.Reads options.version (Parse.rootInner .compilationUnit) (ls ++ [l]) [] () [l] ss :=
      Parse.BuildsMembers.members hbuilds (o := []) (by rw [frontKind_cons, hl])
    obtain ⟨hreports, hstatus, hroot⟩ := ofText_of_reads w htokens hclean hleaves hreads
    exact ⟨hreports, hstatus, toMembers?_of_shape hall hroot⟩
  · obtain ⟨ls, l, htokens, hls, hl, hclean⟩ := Ast.tokenize_write options.symbols hvalid.allWhole
    obtain ⟨t, hyields, hshows⟩ := hvalid.exists_tree hls
    have hbuilds : Parse.BuildsStatement options.version s.openEnded ls [t] := hyields.builds options.version
    have hstarts : (frontKind (ls ++ [l])).startsStatement = true := by
      rw [frontKind_append (hyields.ne_nil (by simp))]
      exact hyields.starts (by simp)
    have hreads : Parse.Reads options.version (Parse.rootInner .statement) (ls ++ [l]) [] () [l] [t] :=
      .fragment hl hstarts (Parse.BuildsStatement.statement hbuilds (o := []) (by simp [hl]))
    obtain ⟨hreports, hstatus, hroot⟩ := ofText_of_reads w htokens hclean hyields.leavesAll_eq hreads
    exact ⟨hreports, hstatus, part?_of_shape hshows hroot⟩
  · obtain ⟨ls, l, htokens, hls, hl, hclean⟩ := Ast.tokenize_write options.symbols hfits.allWhole
    obtain ⟨t, hyields, hshows⟩ := hfits.exists_tree hls
    have hyields : Yields .expression ls [t] := hyields
    have hbuilds : Parse.BuildsExpression options.version ls [t] := hyields.builds options.version
    have hstarts : (frontKind (ls ++ [l])).startsExpression = true := by
      rw [frontKind_append (hyields.ne_nil (by simp))]
      exact hyields.starts (by simp)
    have hends : (frontKind [l]).endsExpression = true := by
      rw [frontKind_cons, hl]
      rfl
    have hreads : Parse.Reads options.version (Parse.rootInner .expression) (ls ++ [l]) [] () [l] [t] :=
      .fragment hl hstarts (Parse.BuildsExpression.expression hbuilds (o := []) hends)
    obtain ⟨hreports, hstatus, hroot⟩ := ofText_of_reads w htokens hclean hyields.leavesAll_eq hreads
    exact ⟨hreports, hstatus, part?_of_shape hshows hroot⟩

/-- An operand of a tighter level is one of a looser level. -/
theorem fits_of_le {e : Expr} {least level : Nat} (hle : least ≤ level) (h : e.Fits (.binary level)) :
    e.Fits (.binary least) := by
  induction hle with
  | refl => exact h
  | step _ ih => exact ih (.tighter h)

/-- A record with a field that has a value, a conditional with an `else`, and an assignment to an element. -/
theorem reads_back_written_record :
    let value : Expr := .binary (.literal .int ['1']) .plus (.name ['y'])
    let record : Member := .typeDecl .record [.publicMod] ['R'] [.named ⟨['B'], [['C']]⟩]
      [.field [] (.array (.predefined .int)) ⟨['x'], some value⟩ []]
    let choice : Stmt := .ifElse .this (.block []) (.ret (some value))
    let change : Expr := .assign (.index (.name ['a']) value) .eq (.call (.name ['f']) [value])
    record.Valid .latest ∧ choice.Valid ∧ change.Fits .expression ∧
      (ofText {} (Ast.write (Member.wordsAll [record])) {} .compilationUnit).1.toMembers? = some [record] ∧
      (ofText {} (Ast.write choice.words) {} .statement).1.toStmt? = some choice ∧
      (ofText {} (Ast.write change.words) {} .expression).1.toExpr? = some change := by
  intro value record choice change
  have htight : ∀ {e : Expr} {level : Nat}, level ≤ 6 → e.Fits .postfixed → e.Fits (.binary level) :=
    fun hle h => fits_of_le hle (.tightest (.unary h))
  have hvalue : value.Fits .expression :=
    .value (fits_of_le (Nat.zero_le 4) (.binary (htight (by decide) (.operand (.literal (by decide))))
      (by decide) (htight (by decide) (.operand (.name (by decide))))))
  have hrecord : record.Valid .latest := by
    refine .typeDecl (fun _ => rfl) (by decide) (by simp [Ast.Ty.Valid, Ast.Name.Valid]; decide) ?_
    have hfield : ∀ d ∈ [(⟨['x'], some value⟩ : Ast.Declarator)], d.Valid := by
      simpa [Ast.Declarator.Valid, hvalue] using (by decide : Ast.isIdentifier ['x'] = true)
    have hmember : (Member.field [] (.array (.predefined .int)) ⟨['x'], some value⟩ []).Valid .latest :=
      .field trivial hfield
    simpa using hmember
  have hchoice : choice.Valid :=
    .ifElse (.value (htight (by decide) (.operand .this))) (.block (by simp)) rfl (.ret (by simpa using hvalue))
  have hchange : change.Fits .expression :=
    .assign (htight (by decide) (.index (.operand (.name (by decide))) hvalue)) (by decide)
      (.value (htight (by decide) (.call (.operand (.name (by decide))) (by simpa using hvalue))))
  obtain ⟨hmembers, hstatement, hexpression⟩ := reads_back_written {} {}
  exact ⟨hrecord, hchoice, hchange, (hmembers [record] (by simpa using hrecord)).2.2, (hstatement choice hchoice).2.2,
    (hexpression change hchange).2.2⟩

end SyntaxTree

end IncrementalSyntax

import IncrementalSyntax.Proofs.Ast.Expressions

/-!
# Trees of written statements

The words of a variable or a statement have a tree, and the abstract tree is read back from it. The tree is
open-ended just if the abstract one is.

## Main results

* `Ast.Declarator.exists_tree`: the tree of a written variable
* `Ast.Stmt.Valid.exists_tree`: the tree of a written statement
-/

namespace IncrementalSyntax

open Ast (Name Ty Expr Declarator Stmt Word IsWord Spelled)
open Shape (leaf branch Shows)

namespace Ast

/-- The leaf of a word that is no bad token is the leaf of a token. -/
theorem IsWord.kind_ne_node {l : Leaf} {w : Word} (h : IsWord l w) (hw : w.kind ≠ .bad) (k : NodeKind) :
    l.kind ≠ .node k := by
  intro hkind
  have hbad : l.tokenKind = .bad := by rw [Leaf.tokenKind, hkind]
  exact hw (h.kind.symm.trans hbad)

end Ast

namespace View

variable {c : Category} {β : Type} {read : View c → Option β} {part : Option (View c)} {b : β}

theorem optional_of_bind (h : part.bind read = some b) : optional read part = some (some b) := by
  obtain ⟨u, rfl, hu⟩ := Option.bind_eq_some_iff.1 h
  simp [optional, hu]

end View

/-! ## Variables -/

namespace Shape.Shows

variable {s : Shape} {l d : Leaf} {id : Text} {e : Expr}

theorem uninitialized (hl : IsWord l (.ident id)) :
    Shows (fun _ => View.toDeclarator?) (branch .variableDeclarator [leaf l]) ⟨id, none⟩ := by
  refine ⟨⟨_, _, rfl, rfl⟩, fun v levels hv => ?_⟩
  have hword : l.tokenKind = .ident := hl.kind
  have htext : l.text = id := hl.text
  have hident : v.identifier? = some l := by
    rw [View.identifier?, View.leaf?, View.leaves, View.leavesOf_of_shape hv.shape]
    simp [Shape.tokens_leaf hl.present, hword]
  have hinit : v.initializer? = none := View.partOf?_eq_none_of_shape hv.shape rfl
  simp [View.toDeclarator?, View.optional, hident, hinit, htext]

theorem initialized (hl : IsWord l (.ident id)) (h : Shows View.toExprUpTo s e) :
    Shows (fun _ => View.toDeclarator?) (branch .variableDeclarator [leaf l, leaf d, s]) ⟨id, some e⟩ := by
  refine ⟨⟨_, _, rfl, rfl⟩, fun v levels hv => ?_⟩
  obtain ⟨n, rfl⟩ := exists_succ hv
  have hword : l.tokenKind = .ident := hl.kind
  have htext : l.text = id := hl.text
  have hident : v.identifier? = some l := by
    rw [View.identifier?, View.leaf?, View.leaves, View.leavesOf_of_shape hv.shape]
    simp [Shape.tokens_leaf hl.present, hword]
  have hinit : v.initializer?.bind View.toExpr? = some e := (part?_eq hv (by simp [h.fits]) h).2
  simp [View.toDeclarator?, hident, View.optional_of_bind hinit, htext]

end Shape.Shows

namespace Ast

variable {L : List Leaf}

/-- The words of a variable have one tree, from which the variable is read back. -/
theorem Declarator.exists_tree {d : Declarator} (hd : d.Valid) (h : Spelled L d.words) :
    ∃ s, Yields .declarator L [s] ∧ Shows (fun _ => View.toDeclarator?) s d := by
  obtain ⟨id, init⟩ := d
  cases init with
  | none =>
    obtain ⟨l, rfl, hl⟩ := spelled_singleton h
    exact ⟨_, .uninitialized hl.kind, .uninitialized hl⟩
  | some e =>
    obtain ⟨l, T, rfl, hl, h⟩ := spelled_cons h
    obtain ⟨d, T, rfl, hd', h⟩ := spelled_cons h
    obtain ⟨s, hyields, hshows⟩ := (hd.2 e rfl).exists_tree h
    exact ⟨_, .initialized hl.kind hd'.kind hyields, .initialized hl hshows⟩

/-- The variables of a declaration. -/
theorem exists_declarators {d : Declarator} {ds : List Declarator} (h : ∀ e ∈ d :: ds, e.Valid)
    (hL : Spelled L (declaratorWords d ds)) :
    ∃ L' r ss, L = L' ++ [r] ∧ IsWord r (.punct .semicolon) ∧ Yields .declarators L' ss ∧
      List.Forall₂ (Shows fun _ => View.toDeclarator?) (ss.filter (Shape.fits .variableDeclarator)) (d :: ds) := by
  obtain ⟨L', r, rfl, hL, hr⟩ := spelled_concat hL
  obtain ⟨ss, hyields, hall⟩ := exists_commas (Yields .declarator) (Yields .declarators) .declared
    .nextDeclared (fun e he L => Declarator.exists_tree (h e he)) hL
  exact ⟨L', r, ss, rfl, hr, hyields, hall⟩

end Ast

/-! ## Views of statements -/

namespace Shape.Shows

variable {c s t : Shape} {ss : List Shape} {stmt stmt' : Stmt} {body : List Stmt} {e : Expr}
variable {i l r : Leaf}

theorem block (h : List.Forall₂ (Shows View.toStmtUpTo) (ss.filter (Shape.fits .statement)) body) :
    Shows View.toStmtUpTo (branch .block (leaf l :: (ss ++ [leaf r]))) (.block body) := by
  refine ⟨⟨_, _, rfl, rfl⟩, fun v levels hv => ?_⟩
  obtain ⟨n, rfl⟩ := exists_succ hv
  obtain ⟨u, hu, hred⟩ := View.ofRed?_of_shape (c := .block) hv.shape rfl
  have hbody : u.statements.mapM (View.toStmtUpTo n) = some body :=
    (mapM_parts (hred ▸ hv) (by simpa using h)).1
  simp [Red.nodeKind?_of_shape hv.shape, hu, hbody]

theorem empty : Shows View.toStmtUpTo (branch .emptyStmt [leaf l]) .empty := by
  refine ⟨⟨_, _, rfl, rfl⟩, fun v levels hv => ?_⟩
  obtain ⟨n, rfl⟩ := exists_succ hv
  simp [Red.nodeKind?_of_shape hv.shape]

theorem declare {ty : Ty} {d : Declarator} {ds : List Declarator} (h : Shows View.toTypeUpTo s ty)
    (hds : List.Forall₂ (Shows fun _ => View.toDeclarator?) (ss.filter (Shape.fits .variableDeclarator)) (d :: ds)) :
    Shows View.toStmtUpTo (branch .localDeclStmt (s :: (ss ++ [leaf r]))) (.declare ty d ds) := by
  refine ⟨⟨_, _, rfl, rfl⟩, fun v levels hv => ?_⟩
  obtain ⟨n, rfl⟩ := exists_succ hv
  have hskip : s.fits .variableDeclarator = false := h.not_fits (by decide)
  have htype : v.type?.bind View.toType? = some ty := (part?_eq hv (by simp [h.fits]) h).2
  have hall : List.Forall₂ (Shows fun _ => View.toDeclarator?)
      ((s :: (ss ++ [leaf r])).filter (Shape.fits .variableDeclarator)) (d :: ds) := by simpa [hskip] using hds
  have hvariables : v.declarators.mapM View.toDeclarator? = some (d :: ds) := (mapM_parts hv hall).1
  simp [Red.nodeKind?_of_shape hv.shape, htype, hvariables]

theorem eval (h : Shows View.toExprUpTo s e) :
    Shows View.toStmtUpTo (branch .exprStmt [s, leaf r]) (.eval e) := by
  refine ⟨⟨_, _, rfl, rfl⟩, fun v levels hv => ?_⟩
  obtain ⟨n, rfl⟩ := exists_succ hv
  have hvalue : v.expression?.bind View.toExpr? = some e := (part?_eq hv (by simp [h.fits]) h).2
  simp [Red.nodeKind?_of_shape hv.shape, hvalue]

/-- The condition of a conditional or a loop, and the statement behind it. -/
theorem condition_and_body {k : NodeKind} {v : View .statement} {n : Nat}
    (hv : v.red.Below (branch k (leaf i :: leaf l :: c :: leaf r :: s :: ss)) (n + 2))
    (h : Shows View.toExprUpTo c e) (h' : Shows View.toStmtUpTo s stmt) :
    v.condition?.bind View.toExpr? = some e ∧
      (View.partOf? .statement v.red).bind (View.toStmtUpTo n) = some stmt := by
  have hskip : c.fits .statement = false := h.not_fits (by decide)
  exact ⟨(part?_eq hv (by simp [h.fits]) h).2, (part?_eq hv (by simp [hskip, h'.fits]) h').1⟩

theorem ifThen (hi : IsWord i (.keyword .ifKw)) (hl : IsWord l (.punct .lParen)) (h : Shows View.toExprUpTo c e)
    (hr : IsWord r (.punct .rParen)) (h' : Shows View.toStmtUpTo s stmt) :
    Shows View.toStmtUpTo (branch .ifStmt [leaf i, leaf l, c, leaf r, s]) (.ifThen e stmt) := by
  refine ⟨⟨_, _, rfl, rfl⟩, fun v levels hv => ?_⟩
  obtain ⟨n, rfl⟩ := exists_succ hv
  obtain ⟨hcondition, hbody⟩ := condition_and_body hv h h'
  obtain ⟨u, hu, hred⟩ := View.ofRed?_of_shape (c := .ifStmt) hv.shape rfl
  have hthen : v.thenBranch?.bind (View.toStmtUpTo n) = some stmt := hbody
  have helse : u.elseBranch? = none := by
    have hfind := Red.find?_children hv.shape (.node .elseClause)
    simp only [List.find?_cons, Shape.kind_leaf, hi.kind_ne_node nofun, hl.kind_ne_node nofun, hr.kind_ne_node nofun,
      h.kind_ne_elseClause, h'.kind_ne_elseClause, decide_false, List.find?_nil] at hfind
    rw [View.elseBranch?, hred]
    cases hclause : v.red.children.find? (·.kind = .node .elseClause) with
    | none => rfl
    | some d =>
      rw [hclause] at hfind
      cases hfind
  simp [Red.nodeKind?_of_shape hv.shape, hcondition, hthen, hu, helse, View.optional]

theorem ifElse {x : Leaf} (hi : IsWord i (.keyword .ifKw)) (hl : IsWord l (.punct .lParen))
    (h : Shows View.toExprUpTo c e) (hr : IsWord r (.punct .rParen)) (h' : Shows View.toStmtUpTo s stmt)
    (h'' : Shows View.toStmtUpTo t stmt') :
    Shows View.toStmtUpTo (branch .ifStmt [leaf i, leaf l, c, leaf r, s, branch .elseClause [leaf x, t]])
      (.ifElse e stmt stmt') := by
  refine ⟨⟨_, _, rfl, rfl⟩, fun v levels hv => ?_⟩
  obtain ⟨n, rfl⟩ := exists_succ hv
  obtain ⟨hcondition, hbody⟩ := condition_and_body hv h h'
  obtain ⟨u, hu, hred⟩ := View.ofRed?_of_shape (c := .ifStmt) hv.shape rfl
  have hthen : v.thenBranch?.bind (View.toStmtUpTo n) = some stmt := hbody
  have helse : u.elseBranch?.bind (View.toStmtUpTo n) = some stmt' := by
    have hfind := Red.find?_children hv.shape (.node .elseClause)
    simp only [List.find?_cons, Shape.kind_leaf, Shape.kind_branch, hi.kind_ne_node nofun, hl.kind_ne_node nofun,
      hr.kind_ne_node nofun, h.kind_ne_elseClause, h'.kind_ne_elseClause, decide_false, decide_true] at hfind
    rw [View.elseBranch?, hred]
    cases hclause : v.red.children.find? (·.kind = .node .elseClause) with
    | none =>
      rw [hclause] at hfind
      cases hfind
    | some d =>
      rw [hclause] at hfind
      obtain ⟨hshape, hdepth⟩ : d.Below _ _ := by
        cases hfind with
        | some hd => exact hd
      exact (part?_eq ⟨hshape, hdepth.trans hv.depth⟩ (by simp [h''.fits]) h'').1
  simp [Red.nodeKind?_of_shape hv.shape, hcondition, hthen, hu, View.optional_of_bind helse]

theorem whileDo (h : Shows View.toExprUpTo c e) (h' : Shows View.toStmtUpTo s stmt) :
    Shows View.toStmtUpTo (branch .whileStmt [leaf i, leaf l, c, leaf r, s]) (.whileDo e stmt) := by
  refine ⟨⟨_, _, rfl, rfl⟩, fun v levels hv => ?_⟩
  obtain ⟨n, rfl⟩ := exists_succ hv
  obtain ⟨hcondition, hbody⟩ := condition_and_body hv h h'
  obtain ⟨u, hu, hred⟩ := View.ofRed?_of_shape (c := .whileStmt) hv.shape rfl
  have hloop : u.loopBody?.bind (View.toStmtUpTo n) = some stmt := by
    rw [View.loopBody?, View.part?, hred]
    exact hbody
  simp [Red.nodeKind?_of_shape hv.shape, hcondition, hu, hloop]

theorem returnNone : Shows View.toStmtUpTo (branch .returnStmt [leaf i, leaf r]) (.ret none) := by
  refine ⟨⟨_, _, rfl, rfl⟩, fun v levels hv => ?_⟩
  obtain ⟨n, rfl⟩ := exists_succ hv
  have hvalue : v.expression? = none := View.partOf?_eq_none_of_shape hv.shape rfl
  simp [Red.nodeKind?_of_shape hv.shape, hvalue, View.optional]

theorem returnValue (h : Shows View.toExprUpTo s e) :
    Shows View.toStmtUpTo (branch .returnStmt [leaf i, s, leaf r]) (.ret (some e)) := by
  refine ⟨⟨_, _, rfl, rfl⟩, fun v levels hv => ?_⟩
  obtain ⟨n, rfl⟩ := exists_succ hv
  have hvalue : v.expression?.bind View.toExpr? = some e := (part?_eq hv (by simp [h.fits]) h).2
  simp [Red.nodeKind?_of_shape hv.shape, View.optional_of_bind hvalue]

theorem breakLoop : Shows View.toStmtUpTo (branch .breakStmt [leaf i, leaf r]) .breakLoop := by
  refine ⟨⟨_, _, rfl, rfl⟩, fun v levels hv => ?_⟩
  obtain ⟨n, rfl⟩ := exists_succ hv
  simp [Red.nodeKind?_of_shape hv.shape]

theorem continueLoop : Shows View.toStmtUpTo (branch .continueStmt [leaf i, leaf r]) .continueLoop := by
  refine ⟨⟨_, _, rfl, rfl⟩, fun v levels hv => ?_⟩
  obtain ⟨n, rfl⟩ := exists_succ hv
  simp [Red.nodeKind?_of_shape hv.shape]

end Shape.Shows

/-! ## Trees of statements -/

namespace Ast.Stmt

variable {L : List Leaf}

theorem exists_statements {body : List Stmt}
    (h : ∀ s ∈ body, ∀ L, Spelled L s.words → ∃ t, Yields (.statement s.openEnded) L [t] ∧ Shows View.toStmtUpTo t s)
    (hL : Spelled L (wordsAll body)) :
    ∃ ss, Yields .statements L ss ∧
      List.Forall₂ (Shows View.toStmtUpTo) (ss.filter (Shape.fits .statement)) body := by
  induction body generalizing L with
  | nil =>
    rw [wordsAll] at hL
    obtain rfl := spelled_nil hL
    exact ⟨[], .noStatements, .nil⟩
  | cons s body ih =>
    rw [wordsAll] at hL
    obtain ⟨L₁, L₂, rfl, hfirst, hL⟩ := spelled_append hL
    obtain ⟨t, hyields, hshows⟩ := h s List.mem_cons_self L₁ hfirst
    obtain ⟨ss, hyields', hall⟩ := ih (fun u hu => h u (List.mem_cons_of_mem _ hu)) hL
    refine ⟨_, .nextStatement hyields hyields', ?_⟩
    simpa [hshows.fits] using ⟨hshows, hall⟩

/-- The condition of a conditional or a loop behind its keyword. -/
theorem exists_condition {k : Word} {c : Expr} {ws : List Word} (hc : c.Fits .expression)
    (hL : Spelled L (k :: (parens c.words ++ ws))) :
    ∃ i l r L₁ L₂ s, L = i :: l :: (L₁ ++ r :: L₂) ∧ IsWord i k ∧ IsWord l (.punct .lParen) ∧
      IsWord r (.punct .rParen) ∧ Spelled L₂ ws ∧ Yields .expression L₁ [s] ∧ Shows View.toExprUpTo s c := by
  obtain ⟨i, T, rfl, hi, hL⟩ := spelled_cons hL
  obtain ⟨T, L₂, rfl, hcondition, hrest⟩ := spelled_append hL
  obtain ⟨l, L₁, r, rfl, hl, hcondition, hr⟩ := spelled_between hcondition
  obtain ⟨s, hyields, hshows⟩ := hc.exists_tree hcondition
  exact ⟨i, l, r, L₁, L₂, s, by simp, hi, hl, hr, hrest, hyields, hshows⟩

/-- The words of a statement have one tree, from which the statement is read back. By induction on why the
statement is valid. -/
theorem Valid.exists_tree {stmt : Stmt} (h : stmt.Valid) (hL : Spelled L stmt.words) :
    ∃ s, Yields (.statement stmt.openEnded) L [s] ∧ Shows View.toStmtUpTo s stmt := by
  induction h generalizing L with
  | block _ ih =>
    rw [words] at hL
    obtain ⟨l, L', r, rfl, hl, hL, hr⟩ := spelled_between hL
    obtain ⟨ss, hyields, hall⟩ := exists_statements (fun s hs L => ih s hs) hL
    exact ⟨_, .block hl.kind hyields hr.kind, .block hall⟩
  | empty =>
    rw [words] at hL
    obtain ⟨l, rfl, hl⟩ := spelled_singleton hL
    exact ⟨_, .emptyStatement hl.kind, .empty⟩
  | declare _ hds =>
    rw [words] at hL
    obtain ⟨L₁, T, rfl, htype, hL⟩ := spelled_append hL
    obtain ⟨s, hyields, hshows⟩ := Ty.exists_tree htype
    obtain ⟨L₂, r, ss, rfl, hr, hyields', hall⟩ := exists_declarators hds hL
    exact ⟨_, .declaration hyields hyields' hr.kind, .declare hshows hall⟩
  | eval he =>
    rw [words] at hL
    obtain ⟨L', r, rfl, hL, hr⟩ := spelled_concat hL
    obtain ⟨s, hyields, hshows⟩ := he.exists_tree hL
    exact ⟨_, .expressionStatement hyields hr.kind, .eval hshows⟩
  | ifThen hc _ ih =>
    rw [words] at hL
    obtain ⟨i, l, r, L₁, L₂, s, rfl, hi, hl, hr, hL, hyields, hshows⟩ := exists_condition hc hL
    obtain ⟨t, hyields', hshows'⟩ := ih hL
    exact ⟨_, .ifThen hi.kind hl.kind hyields hr.kind hyields', .ifThen hi hl hshows hr hshows'⟩
  | ifElse hc _ hclosed _ ih ih' =>
    rw [words] at hL
    obtain ⟨i, l, r, L₁, T, s, rfl, hi, hl, hr, hL, hyields, hshows⟩ := exists_condition hc hL
    obtain ⟨L₂, T, rfl, hbody, hL⟩ := spelled_append hL
    obtain ⟨e, L₃, rfl, he, hL⟩ := spelled_cons hL
    obtain ⟨t, hyields', hshows'⟩ := ih hbody
    obtain ⟨u, hyields'', hshows''⟩ := ih' hL
    rw [hclosed] at hyields'
    exact ⟨_, .ifElse hi.kind hl.kind hyields hr.kind hyields' he.kind hyields'',
      .ifElse hi hl hshows hr hshows' hshows''⟩
  | whileDo hc _ ih =>
    rw [words] at hL
    obtain ⟨i, l, r, L₁, L₂, s, rfl, hi, hl, hr, hL, hyields, hshows⟩ := exists_condition hc hL
    obtain ⟨t, hyields', hshows'⟩ := ih hL
    exact ⟨_, .whileDo hi.kind hl.kind hyields hr.kind hyields', .whileDo hshows hshows'⟩
  | @ret value he =>
    cases value with
    | none =>
      rw [words] at hL
      obtain ⟨i, r, rfl, hi, hr⟩ := spelled_pair hL
      exact ⟨_, .returnNone hi.kind hr.kind, .returnNone⟩
    | some e =>
      rw [words] at hL
      obtain ⟨i, L', r, rfl, hi, hL, hr⟩ := spelled_between hL
      obtain ⟨s, hyields, hshows⟩ := (he e rfl).exists_tree hL
      exact ⟨_, .returnValue hi.kind hyields hr.kind, .returnValue hshows⟩
  | breakLoop =>
    rw [words] at hL
    obtain ⟨i, r, rfl, hi, hr⟩ := spelled_pair hL
    exact ⟨_, .breakLoop hi.kind hr.kind, .breakLoop⟩
  | continueLoop =>
    rw [words] at hL
    obtain ⟨i, r, rfl, hi, hr⟩ := spelled_pair hL
    exact ⟨_, .continueLoop hi.kind hr.kind, .continueLoop⟩

end Ast.Stmt

end IncrementalSyntax

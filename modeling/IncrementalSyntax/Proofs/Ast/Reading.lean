import IncrementalSyntax.Proofs.Ast.Basic
import IncrementalSyntax.Proofs.Grammar.Yield

/-!
# Reading abstract trees back

An abstract tree is read off a syntax tree through its views, construct by construct, down to a number of
levels. What is read depends on the shape of the syntax tree only: on the kinds of its nodes and on its
leaves, and not on identities or places.

## Main definitions

* `View.toType?`, `View.toExpr?`, `View.toStmt?`, `View.toMember?`: reading through views
* `Shape.fits`, `Shape.tokens`: what views see of shapes in a row
* `Shape.Shows`: every view of a shape reads as an abstract tree

## Main results

* `View.partsOf_of_shape`, `View.leavesOf_of_shape`: the parts of a view by the shape of its node
-/

namespace IncrementalSyntax

open Ast (Name Ty Expr Declarator Stmt Param Member)
open Shape (leaf branch)

/-! ## Reading -/

namespace View

def toName? (v : View .name) : Option Name :=
  match v.segments with
  | [] => none
  | t :: ts => some ⟨t, ts⟩

/-- A type, down to a number of levels. -/
@[simp] def toTypeUpTo : Nat → View .type → Option Ty
  | 0, _ => none
  | levels + 1, v =>
    if v.isArray then (v.elementType?.bind (toTypeUpTo levels)).map .array
    else
      match v.predefined? with
      | some (.builtin b) => some (.predefined b)
      | some _ => none
      | none => (v.asName?.bind toName?).map .named

def toType? (v : View .type) : Option Ty := toTypeUpTo v.red.green.depth v

/-- The operator of an expression, if it is one. -/
def toOperator? (v : View .expression) : Option Punct :=
  match v.operator? with
  | some (.punct p) => some p
  | _ => none

/-- The constant that a literal expression stands for. -/
def toConstant? (l : Leaf) : Option Expr :=
  match l.tokenKind with
  | .literal kind => some (.literal kind l.text)
  | .keyword k => some (.constant k)
  | _ => none

/-- An expression, down to a number of levels. -/
@[simp] def toExprUpTo : Nat → View .expression → Option Expr
  | 0, _ => none
  | levels + 1, v =>
    let inner := toExprUpTo levels
    match v.red.green.nodeKind? with
    | some .literalExpr => v.literal?.bind toConstant?
    | some .nameExpr => v.memberName?.map fun l => .name l.text
    | some .thisExpr => some .this
    | some .parenExpr => (v.left?.bind inner).map .paren
    | some .prefixExpr => do return .prefixed (← v.toOperator?) (← v.left?.bind inner)
    | some .postfixExpr => do return .postfixed (← v.left?.bind inner) (← v.toOperator?)
    | some .binaryExpr => do
      return .binary (← v.left?.bind inner) (← v.toOperator?) (← v.right?.bind inner)
    | some .assignExpr => do
      return .assign (← v.left?.bind inner) (← v.toOperator?) (← v.right?.bind inner)
    | some .callExpr => do return .call (← v.left?.bind inner) (← v.arguments.mapM inner)
    | some .memberAccessExpr => do return .member (← v.left?.bind inner) (← v.memberName?).text
    | some .indexExpr => do return .index (← v.left?.bind inner) (← v.operands[1]?.bind inner)
    | some .objectCreationExpr => do
      return .create (← v.createdType?.bind toType?) (← v.arguments.mapM inner)
    | _ => none

def toExpr? (v : View .expression) : Option Expr := toExprUpTo v.red.green.depth v

/-- A part that may be absent, but has to be readable. -/
def optional {c : Category} {β : Type} (read : View c → Option β) : Option (View c) → Option (Option β)
  | none => some none
  | some v => (read v).map some

def toDeclarator? (v : View .variableDeclarator) : Option Declarator := do
  return ⟨(← v.identifier?).text, ← optional toExpr? v.initializer?⟩

/-- A statement, down to a number of levels. -/
@[simp] def toStmtUpTo : Nat → View .statement → Option Stmt
  | 0, _ => none
  | levels + 1, v =>
    let inner := toStmtUpTo levels
    match v.red.green.nodeKind? with
    | some .block => do return .block (← (← ofRed? .block v.red).statements.mapM inner)
    | some .emptyStmt => some .empty
    | some .localDeclStmt => do
      match ← v.declarators.mapM toDeclarator? with
      | [] => none
      | d :: ds => return .declare (← v.type?.bind toType?) d ds
    | some .exprStmt => do return .eval (← v.expression?.bind toExpr?)
    | some .ifStmt => do
      let condition ← v.condition?.bind toExpr?
      let body ← v.thenBranch?.bind inner
      match ← optional inner ((← ofRed? .ifStmt v.red).elseBranch?) with
      | none => return .ifThen condition body
      | some alternative => return .ifElse condition body alternative
    | some .whileStmt => do
      return .whileDo (← v.condition?.bind toExpr?) (← (← ofRed? .whileStmt v.red).loopBody?.bind inner)
    | some .returnStmt => do return .ret (← optional toExpr? v.expression?)
    | some .breakStmt => some .breakLoop
    | some .continueStmt => some .continueLoop
    | _ => none

def toStmt? (v : View .statement) : Option Stmt := toStmtUpTo v.red.green.depth v

/-- The modifiers in front of a member. -/
def toModifiers {c : Category} (v : View c) : List Modifier :=
  v.modifiers.filterMap fun
    | .modifier m => some m
    | _ => none

def toParam? (v : View .param) : Option Param := do
  return ⟨← v.type?.bind toType?, (← v.identifier?).text⟩

def toBody? (v : View .block) : Option (List Stmt) := v.statements.mapM toStmt?

/-- A member, down to a number of levels. -/
@[simp] def toMemberUpTo : Nat → View .member → Option Member
  | 0, _ => none
  | levels + 1, v =>
    let inner := toMemberUpTo levels
    match v.red.green.nodeKind? with
    | some .usingDirective => do return .usingDirective (← v.name?.bind toName?)
    | some .namespaceDecl => do return .namespaceDecl (← v.name?.bind toName?) (← v.members.mapM inner)
    | some .methodDecl => do
      let m ← ofRed? .methodDecl v.red
      return .method m.toModifiers (← m.type?.bind toType?) (← m.identifier?).text
        (← (← m.parameterList?).parameters.mapM toParam?) (← optional toBody? m.body?)
    | some .fieldDecl => do
      match ← v.declarators.mapM toDeclarator? with
      | [] => none
      | d :: ds => return .field v.toModifiers (← v.type?.bind toType?) d ds
    | _ => do
      let d ← ofRed? .typeDecl v.red
      let bases := (d.baseList?.map types).getD []
      return .typeDecl d.declarationKind d.toModifiers (← d.declaredName?).text (← bases.mapM toType?)
        (← d.members.mapM inner)

def toMember? (v : View .member) : Option Member := toMemberUpTo v.red.green.depth v

end View

/-! ## Views of shapes -/

namespace Shape

/-- Whether a shape belongs to a category. -/
def fits (d : Category) : Shape → Bool
  | node (.node k) _ _ => d.holds k
  | _ => false

/-- The kind of the element that the shape is of. -/
def kind : Shape → Kind
  | leaf l => l.kind
  | node k _ _ => k

/-- The leaves of the tokens among some shapes that are not missing. -/
def tokens (ss : List Shape) : List Leaf :=
  ss.filterMap fun
    | leaf l => if l.missing then none else some l
    | node .. => none

@[simp] theorem fits_leaf (d : Category) (l : Leaf) : (leaf l).fits d = false := rfl

@[simp] theorem fits_branch (d : Category) (k : NodeKind) (ss : List Shape) : (branch k ss).fits d = d.holds k :=
  rfl

@[simp] theorem tokens_nil : tokens [] = [] := rfl

@[simp] theorem tokens_append (ss ts : List Shape) : tokens (ss ++ ts) = tokens ss ++ tokens ts :=
  List.filterMap_append

@[simp] theorem tokens_branch (k : NodeKind) (cs ss : List Shape) : tokens (branch k cs :: ss) = tokens ss := rfl

theorem tokens_leaf {l : Leaf} (h : l.missing = false) (ss : List Shape) :
    tokens (leaf l :: ss) = l :: tokens ss := by
  simp [tokens, h]

end Shape

/-- A place whose element has a shape, at fewer than a number of levels. -/
structure Red.Below (r : Red) (s : Shape) (levels : Nat) : Prop where
  shape : r.green.shape = s
  depth : r.green.depth < levels

theorem Green.depth_lt_of_mem {c : Green} {cs : List Green} (h : c ∈ cs) : c.depth < depthAll cs + 1 := by
  induction cs with
  | nil => cases h
  | cons d cs ih =>
    rw [depthAll]
    rcases List.mem_cons.1 h with rfl | h
    · exact Nat.lt_succ_of_le (Nat.le_max_left _ _)
    · exact (ih h).trans_le (Nat.succ_le_succ (Nat.le_max_right _ _))

theorem Red.forall₂_place {parent : Red} {levels : Nat} {cs : List Green} (h : ∀ c ∈ cs, c.depth < levels)
    (index : Nat) : List.Forall₂ (fun r s => Below r s levels) (parent.place index cs) (cs.map Green.shape) := by
  induction cs generalizing index with
  | nil => exact .nil
  | cons c cs ih =>
    exact .cons ⟨rfl, h c List.mem_cons_self⟩ (ih (fun d hd => h d (List.mem_cons_of_mem _ hd)) _)

/-- The children of a place by the shape of its element. -/
theorem Red.children_of_shape {r : Red} {k : NodeKind} {ss : List Shape} (h : r.green.shape = branch k ss) :
    List.Forall₂ (fun d s => Below d s r.green.depth) r.children ss := by
  obtain ⟨g, offset, above⟩ := r
  cases g with
  | token t => cases h
  | node hd cs =>
    obtain ⟨-, -, hs⟩ := Shape.node.inj h
    rw [Green.shapes_eq_map] at hs
    rw [← hs]
    exact forall₂_place (fun c hc => by rw [Green.depth]; exact Green.depth_lt_of_mem hc) 0

theorem Red.nodeKind?_of_shape {r : Red} {k : NodeKind} {ss : List Shape} (h : r.green.shape = branch k ss) :
    r.green.nodeKind? = some k := by
  obtain ⟨g, offset, above⟩ := r
  cases g with
  | token t => cases h
  | node hd cs =>
    obtain ⟨hk, -, -⟩ := Shape.node.inj h
    cases hd
    cases hk
    rfl

theorem Red.kind_of_shape {r : Red} {k : NodeKind} {ss : List Shape} (h : r.green.shape = branch k ss) :
    r.kind = .node k := by
  obtain ⟨g, offset, above⟩ := r
  cases g with
  | token t => cases h
  | node hd cs => exact (Shape.node.inj h).1

theorem Green.fits_shape (g : Green) (d : Category) : g.shape.fits d = g.nodeKind?.any d.holds := by
  cases g with
  | token t => rfl
  | node hd cs =>
    obtain ⟨id, kind⟩ := hd
    cases kind <;> rfl

@[simp] theorem Shape.kind_leaf (l : Leaf) : (leaf l).kind = l.kind := rfl

@[simp] theorem Shape.kind_branch (k : NodeKind) (ss : List Shape) : (branch k ss).kind = .node k := rfl

theorem Green.kind_shape (g : Green) : g.shape.kind = g.kind := by
  cases g <;> rfl

/-- The first child of some kind. -/
theorem Red.find?_children {r : Red} {k : NodeKind} {ss : List Shape} (h : r.green.shape = branch k ss)
    (kind : Kind) :
    Option.Rel (fun d s => Below d s r.green.depth) (r.children.find? (·.kind = kind)) (ss.find? (·.kind = kind)) := by
  have hchildren := children_of_shape h
  generalize r.children = rs at hchildren
  clear h
  induction hchildren with
  | nil => exact .none
  | @cons d s rs ss hd _ ih =>
    have hkind : d.kind = s.kind := (Green.kind_shape d.green).symm.trans (congrArg Shape.kind hd.shape)
    by_cases hs : s.kind = kind
    · rw [List.find?_cons_of_pos (by simpa [hkind] using hs), List.find?_cons_of_pos (by simpa using hs)]
      exact .some hd
    · rwa [List.find?_cons_of_neg (by simpa [hkind] using hs), List.find?_cons_of_neg (by simpa using hs)]

namespace View

theorem filterMap_ofRed? {d : Category} {rs : List Red} {ss : List Shape} {levels : Nat}
    (h : List.Forall₂ (fun r s => Red.Below r s levels) rs ss) :
    List.Forall₂ (fun (u : View d) s => Red.Below u.red s levels) (rs.filterMap (ofRed? d))
      (ss.filter (Shape.fits d)) := by
  induction h with
  | nil => exact .nil
  | @cons r s rs ss hr h ih =>
    have hfits : s.fits d = r.green.nodeKind?.any d.holds := hr.shape ▸ Green.fits_shape r.green d
    by_cases hd : r.green.nodeKind?.any d.holds = true
    · rw [List.filterMap_cons_some (dif_pos hd), List.filter_cons_of_pos (hfits.trans hd)]
      exact .cons hr ih
    · rw [List.filterMap_cons_none (dif_neg hd), List.filter_cons_of_neg (hfits ▸ hd)]
      exact ih

variable {c d : Category} {k : NodeKind} {ss : List Shape}

/-- The parts of a place by the shapes of its children. -/
theorem partsOf_of_shape {r : Red} (h : r.green.shape = branch k ss) (d : Category) :
    List.Forall₂ (fun (u : View d) s => Red.Below u.red s r.green.depth) (partsOf d r)
      (ss.filter (Shape.fits d)) :=
  filterMap_ofRed? (Red.children_of_shape h)

/-- The first part of a place. -/
theorem partOf?_of_shape {r : Red} (h : r.green.shape = branch k ss) {s : Shape}
    (hs : (ss.filter (Shape.fits d)).head? = some s) :
    ∃ u, partOf? d r = some u ∧ Red.Below u.red s r.green.depth := by
  have hparts := partsOf_of_shape h d
  obtain ⟨ts, hs⟩ := List.head?_eq_some_iff.1 hs
  rw [hs] at hparts
  obtain ⟨u, us, hu, -, heq⟩ := List.forall₂_cons_right_iff.1 hparts
  refine ⟨u, ?_, hu⟩
  rw [partOf?, ← List.head?_filterMap, show r.children.filterMap (ofRed? d) = u :: us from heq]
  rfl

theorem partOf?_eq_none_of_shape {r : Red} (h : r.green.shape = branch k ss)
    (hs : ss.filter (Shape.fits d) = []) : partOf? d r = none := by
  have hparts := partsOf_of_shape h d
  rw [hs, List.forall₂_nil_right_iff] at hparts
  rw [partOf?, ← List.head?_filterMap, show r.children.filterMap (ofRed? d) = [] from hparts]
  rfl

theorem leavesOf_of_shape {r : Red} (h : r.green.shape = branch k ss) : leavesOf r = Shape.tokens ss := by
  obtain ⟨g, offset, above⟩ := r
  cases g with
  | token t => cases h
  | node hd cs =>
    obtain ⟨-, -, hs⟩ := Shape.node.inj h
    rw [Green.shapes_eq_map] at hs
    rw [← hs, Shape.tokens, List.filterMap_map]
    refine List.filterMap_congr fun g _ => ?_
    cases g <;> rfl

end View

/-! ## Categories that exclude each other -/

/-- The widest category that a category lies in. -/
def Category.widest : Category → Category
  | .name => .type
  | .block | .emptyStmt | .breakStmt | .continueStmt | .localDeclStmt | .exprStmt | .ifStmt | .whileStmt
  | .returnStmt => .statement
  | .usingDirective | .namespaceDecl | .typeDecl | .methodDecl | .fieldDecl | .incompleteMember => .member
  | d => d

/-- A kind of nodes belongs to one of the widest categories only. -/
theorem Category.widest_eq {c d : Category} {k : NodeKind} (hc : c.holds k = true) (hd : d.holds k = true) :
    c.widest = d.widest := by
  have hall : ∀ k ∈ NodeKind.all, ∀ c ∈ Category.all, c.holds k = true → ∀ d ∈ Category.all, d.holds k = true →
      c.widest = d.widest := by decide +kernel
  have hcategory : ∀ c, c ∈ Category.all := fun c => by cases c <;> decide
  exact hall k (by cases k <;> decide) c (hcategory c) hc d (hcategory d) hd

/-- **Shows.** The shape is a node of a category, and every view of it reads as an abstract tree, if it is
read down to enough levels. -/
structure Shape.Shows {c : Category} {α : Type} (read : Nat → View c → Option α) (s : Shape) (a : α) : Prop where
  node : ∃ k ss, s = branch k ss ∧ c.holds k = true
  reads : ∀ (v : View c) (levels : Nat), v.red.Below s (levels + 1) → read levels v = some a

namespace Shape.Shows

variable {c d : Category} {α : Type} {read : Nat → View c → Option α} {s : Shape} {a : α}

theorem fits (h : Shows read s a) : s.fits c = true := by
  obtain ⟨k, ss, rfl, hk⟩ := h.node
  exact hk

theorem not_fits (h : Shows read s a) (hd : c.widest ≠ d.widest) : s.fits d = false := by
  obtain ⟨k, ss, rfl, hk⟩ := h.node
  exact Bool.eq_false_iff.2 fun hfits => hd (Category.widest_eq hk hfits)

/-- A node of a category is no `else` clause. -/
theorem kind_ne_elseClause (h : Shows read s a) : s.kind ≠ .node .elseClause := by
  obtain ⟨k, ss, rfl, hk⟩ := h.node
  rintro hkind
  obtain rfl : k = .elseClause := Kind.node.inj hkind
  cases c <;> cases hk

theorem tokens (h : Shows read s a) (ss : List Shape) : Shape.tokens (s :: ss) = Shape.tokens ss := by
  obtain ⟨k, cs, rfl, -⟩ := h.node
  rfl

/-- An element has at least one level. -/
theorem exists_succ {r : Red} {levels : Nat} (h : r.Below s (levels + 1)) : ∃ n, levels = n + 1 := by
  cases levels with
  | zero =>
    have hpos : 0 < r.green.depth := by
      cases r.green <;> simp [Green.depth]
    exact absurd h.depth (by omega)
  | succ n => exact ⟨n, rfl⟩

variable {r : Red} {k : NodeKind} {ss : List Shape} {as : List α} {levels : Nat}

/-- The parts of a place read as the abstract trees that their shapes show, also each down to all of its own
levels. -/
theorem forall₂_parts (hr : r.Below (branch k ss) (levels + 2))
    (hss : List.Forall₂ (Shows read) (ss.filter (Shape.fits c)) as) :
    List.Forall₂ (fun u a => read levels u = some a ∧ read u.red.green.depth u = some a) (View.partsOf c r) as := by
  have hparts := View.partsOf_of_shape hr.shape c
  have hdepth := hr.depth
  generalize ss.filter (Shape.fits c) = ts at hss hparts
  generalize View.partsOf c r = us at hparts ⊢
  generalize r.green.depth = depth at hparts hdepth
  clear hr
  induction hparts generalizing as with
  | nil =>
    cases hss
    exact .nil
  | cons hu _ ih =>
    cases hss with
    | cons hs hss =>
      refine .cons ⟨hs.reads _ _ ⟨hu.shape, ?_⟩, hs.reads _ _ ⟨hu.shape, Nat.lt_succ_self _⟩⟩ (ih hss)
      exact hu.depth.trans_le (Nat.lt_succ_iff.1 hdepth)

/-- All parts of a place are read one by one. -/
theorem mapM_parts (hr : r.Below (branch k ss) (levels + 2))
    (hss : List.Forall₂ (Shows read) (ss.filter (Shape.fits c)) as) :
    (View.partsOf c r).mapM (read levels) = some as ∧
      (View.partsOf c r).mapM (fun u => read u.red.green.depth u) = some as := by
  have hparts := forall₂_parts hr hss
  generalize View.partsOf c r = us at hparts
  clear hss
  induction hparts with
  | nil => exact ⟨rfl, rfl⟩
  | cons hu _ ih => simp [List.mapM_cons, hu, ih]

/-- A part of a place by its position. -/
theorem getElem?_parts (hr : r.Below (branch k ss) (levels + 2))
    (hss : List.Forall₂ (Shows read) (ss.filter (Shape.fits c)) as) (i : Nat) (ha : as[i]? = some a) :
    (View.partsOf c r)[i]?.bind (read levels) = some a := by
  obtain ⟨hi, rfl⟩ := List.getElem?_eq_some_iff.1 ha
  have hparts := forall₂_parts hr hss
  have hi' : i < (View.partsOf c r).length := hparts.length_eq ▸ hi
  rw [List.getElem?_eq_getElem hi', Option.bind_some]
  exact (hparts.get hi' hi).1

/-- The first part of a place. -/
theorem part?_eq (hr : r.Below (branch k ss) (levels + 2)) (hss : (ss.filter (Shape.fits c)).head? = some s)
    (h : Shows read s a) :
    (View.partOf? c r).bind (read levels) = some a ∧
      (View.partOf? c r).bind (fun u => read u.red.green.depth u) = some a := by
  obtain ⟨u, hu, hbelow⟩ := View.partOf?_of_shape hr.shape hss
  rw [hu]
  refine ⟨h.reads _ _ ⟨hbelow.shape, ?_⟩, h.reads _ _ ⟨hbelow.shape, Nat.lt_succ_self _⟩⟩
  exact hbelow.depth.trans_le (Nat.lt_succ_iff.1 hr.depth)

end Shape.Shows

end IncrementalSyntax

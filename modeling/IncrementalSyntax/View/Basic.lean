import IncrementalSyntax.Kind.Classes
import IncrementalSyntax.Red.Basic

/-!
# Typed views

A view is a node seen as a member of a category of the grammar, so that its parts can be asked for by
name. A part that is absent, or missing in the text, is not found.

## Main definitions

* `Category`, `Category.holds`: the categories and the kinds of nodes in them
* `Category.covering`: the categories that a kind belongs to
* `View`, `View.ofRed?`: nodes seen as members of a category
* `View.part?`, `View.parts`: the children of a category
* `View.leaves`, `View.leaf?`: the child tokens that are not missing
-/

namespace IncrementalSyntax

/-- **Category.** What a node can be seen as. -/
inductive Category where
  | compilationUnit | member | usingDirective | namespaceDecl | typeDecl | baseList | methodDecl
  | fieldDecl | incompleteMember | paramList | param | variableDeclarator | name | type | block
  | statement | emptyStmt | breakStmt | continueStmt | localDeclStmt | exprStmt | ifStmt | whileStmt
  | returnStmt | expression | argList
  deriving DecidableEq, Repr

namespace NodeKind

/-- The declarations of types. -/
def isTypeDeclaration : NodeKind → Bool
  | classDecl | structDecl | interfaceDecl | recordDecl => true
  | _ => false

/-- The nodes that are types. -/
def isType : NodeKind → Bool
  | name | predefinedType | arrayType => true
  | _ => false

/-- The nodes that are expressions. -/
def isExpression : NodeKind → Bool
  | literalExpr | nameExpr | thisExpr | parenExpr | prefixExpr | postfixExpr | binaryExpr
  | assignExpr | callExpr | memberAccessExpr | indexExpr | objectCreationExpr => true
  | _ => false

end NodeKind

namespace Category

/-- The categories in order. -/
def all : List Category :=
  [compilationUnit, member, usingDirective, namespaceDecl, typeDecl, baseList, methodDecl, fieldDecl,
    incompleteMember, paramList, param, variableDeclarator, name, type, block, statement, emptyStmt,
    breakStmt, continueStmt, localDeclStmt, exprStmt, ifStmt, whileStmt, returnStmt, expression,
    argList]

/-- The label of a category. -/
def label : Category → String
  | compilationUnit => "CompilationUnit"
  | member => "Member"
  | usingDirective => "UsingDirective"
  | namespaceDecl => "NamespaceDecl"
  | typeDecl => "TypeDecl"
  | baseList => "BaseList"
  | methodDecl => "MethodDecl"
  | fieldDecl => "FieldDecl"
  | incompleteMember => "IncompleteMember"
  | paramList => "ParamList"
  | param => "Param"
  | variableDeclarator => "VariableDeclarator"
  | name => "Name"
  | type => "Type"
  | block => "Block"
  | statement => "Stmt"
  | emptyStmt => "EmptyStmt"
  | breakStmt => "BreakStmt"
  | continueStmt => "ContinueStmt"
  | localDeclStmt => "LocalDeclStmt"
  | exprStmt => "ExprStmt"
  | ifStmt => "IfStmt"
  | whileStmt => "WhileStmt"
  | returnStmt => "ReturnStmt"
  | expression => "Expr"
  | argList => "ArgList"

/-- Whether nodes of a kind belong to the category. -/
def holds : Category → NodeKind → Bool
  | compilationUnit, k => k = .compilationUnit
  | member, k => k.isMember || k = .incompleteMember
  | usingDirective, k => k = .usingDirective
  | namespaceDecl, k => k = .namespaceDecl
  | typeDecl, k => k.isTypeDeclaration
  | baseList, k => k = .baseList
  | methodDecl, k => k = .methodDecl
  | fieldDecl, k => k = .fieldDecl
  | incompleteMember, k => k = .incompleteMember
  | paramList, k => k = .paramList
  | param, k => k = .param
  | variableDeclarator, k => k = .variableDeclarator
  | name, k => k = .name
  | type, k => k.isType
  | block, k => k = .block
  | statement, k => k.isStatement
  | emptyStmt, k => k = .emptyStmt
  | breakStmt, k => k = .breakStmt
  | continueStmt, k => k = .continueStmt
  | localDeclStmt, k => k = .localDeclStmt
  | exprStmt, k => k = .exprStmt
  | ifStmt, k => k = .ifStmt
  | whileStmt, k => k = .whileStmt
  | returnStmt, k => k = .returnStmt
  | expression, k => k.isExpression
  | argList, k => k = .argList

/-- The categories that a kind belongs to; only kinds of nodes belong to any. -/
def covering (k : Kind) : List Category := all.filter fun c => k.isNodeThat c.holds

end Category

/-- **View.** A node of a category. -/
structure View (c : Category) where
  red : Red
  fits : red.green.nodeKind?.any c.holds = true

namespace View

/-- A place seen as a member of a category, if it holds a node that belongs there. -/
def ofRed? (c : Category) (r : Red) : Option (View c) :=
  if h : r.green.nodeKind?.any c.holds = true then some ⟨r, h⟩ else none

/-- The children of a category in order. -/
def partsOf (c : Category) (r : Red) : List (View c) := r.children.filterMap (ofRed? c)

/-- The first child of a category. -/
def partOf? (c : Category) (r : Red) : Option (View c) := r.children.findSome? (ofRed? c)

/-- The leaves of the child tokens that are not missing. -/
def leavesOf (r : Red) : List Leaf :=
  r.green.children.filterMap fun
    | .token t => if t.leaf.missing then none else some t.leaf
    | .node .. => none

variable {c : Category}

/-- The kind of the node. -/
def kind (v : View c) : Kind := v.red.kind

/-- The range of the node without the trivia at its ends. -/
def range (v : View c) : Range := v.red.range

/-- The children of a category in order. -/
def parts (v : View c) (d : Category) : List (View d) := partsOf d v.red

/-- The first child of a category. -/
def part? (v : View c) (d : Category) : Option (View d) := partOf? d v.red

/-- The child tokens that are not missing. -/
def leaves (v : View c) : List Leaf := leavesOf v.red

/-- The first child token of a kind that is not missing. -/
def leaf? (v : View c) (kind : TokenKind) : Option Leaf := v.leaves.find? (·.tokenKind = kind)

end View

end IncrementalSyntax

import IncrementalSyntax.View.Basic

/-!
# Parts of members, statements and expressions

The parts of each construct by name, found as the first child, or all children, of a category.

## Main definitions

* `View.members`, `View.modifiers`, `View.declaredName?`, …: the parts of members
* `View.condition?`, `View.thenBranch?`, `View.elseBranch?`, …: the parts of statements
* `View.operator?`, `View.operands`, `View.arguments`, …: the parts of expressions
* `DeclarationKind`: which word declares a type
-/

namespace IncrementalSyntax

/-- **Declaration kind.** The word that declares a type. -/
inductive DeclarationKind where
  | class' | struct | interface | record
  deriving DecidableEq, Repr

/-- The label of a declaration kind. -/
def DeclarationKind.label : DeclarationKind → String
  | class' => "Class"
  | struct => "Struct"
  | interface => "Interface"
  | record => "Record"

namespace View

variable {c : Category}

/-! ## Members -/

/-- The members of a compilation unit, a namespace or a type. -/
def members (v : View c) : List (View .member) := v.parts .member

/-- The modifiers in front of a member. -/
def modifiers (v : View c) : List TokenKind := (v.leaves.map Leaf.tokenKind).filter TokenKind.isModifier

/-- The name of a using directive or a namespace. -/
def name? (v : View c) : Option (View .name) := v.part? .name

/-- The identifier that a method, a parameter or a variable declares. -/
def identifier? (v : View c) : Option Leaf := v.leaf? .ident

/-- Which word declares a type. -/
def declarationKind (v : View .typeDecl) : DeclarationKind :=
  if v.kind = .node .structDecl then .struct
  else if v.kind = .node .interfaceDecl then .interface
  else if v.kind = .node .recordDecl then .record
  else .class'

/-- The identifier that a type declaration declares. The word `record` is an identifier too, and comes
before it. -/
def declaredName? (v : View .typeDecl) : Option Leaf :=
  (v.leaves.filter (·.tokenKind = .ident))[if v.declarationKind = .record then 1 else 0]?

/-- The types behind the colon of a type declaration. -/
def baseList? (v : View .typeDecl) : Option (View .baseList) := v.part? .baseList

def types (v : View .baseList) : List (View .type) := v.parts .type

/-- The type of a method's result, of a field, of a parameter or of variables. -/
def type? (v : View c) : Option (View .type) := v.part? .type

def parameterList? (v : View .methodDecl) : Option (View .paramList) := v.part? .paramList

def parameters (v : View .paramList) : List (View .param) := v.parts .param

/-- The block of a method. -/
def body? (v : View .methodDecl) : Option (View .block) := v.part? .block

/-- The variables of a field or a declaration. -/
def declarators (v : View c) : List (View .variableDeclarator) := v.parts .variableDeclarator

def initializer? (v : View .variableDeclarator) : Option (View .expression) := v.part? .expression

/-! ## Names and types -/

/-- The identifiers of a name. -/
def segments (v : View .name) : List Text := (v.leaves.filter (·.tokenKind = .ident)).map Leaf.text

/-- The identifiers of a name with points between them. -/
def qualified (v : View .name) : Text := (v.segments.intersperse ['.']).flatten

def isArray (v : View .type) : Bool := v.kind = .node .arrayType

/-- The type of an array's elements. -/
def elementType? (v : View .type) : Option (View .type) :=
  if v.isArray then v.part? .type else none

/-- The type as a name, if it is one. -/
def asName? (v : View .type) : Option (View .name) := ofRed? .name v.red

/-- The keyword of a predefined type. -/
def predefined? (v : View .type) : Option TokenKind :=
  if v.kind = .node .predefinedType then v.leaves.head?.map Leaf.tokenKind else none

/-! ## Statements -/

def statements (v : View .block) : List (View .statement) := v.parts .statement

/-- The expression of an expression statement or a return. -/
def expression? (v : View c) : Option (View .expression) := v.part? .expression

/-- The condition of a conditional or a loop. -/
def condition? (v : View c) : Option (View .expression) := v.part? .expression

/-- The statement that a condition decides on. -/
def thenBranch? (v : View c) : Option (View .statement) := v.part? .statement

/-- The statement behind the `else`. -/
def elseBranch? (v : View .ifStmt) : Option (View .statement) :=
  match v.red.children.find? (·.kind = .node .elseClause) with
  | some clause => partOf? .statement clause
  | none => none

/-- The statement that a loop repeats. -/
def loopBody? (v : View .whileStmt) : Option (View .statement) := v.part? .statement

/-! ## Expressions -/

/-- The expressions right inside an expression. -/
def operands (v : View .expression) : List (View .expression) := v.parts .expression

/-- The operator of a prefix, postfix, binary or assignment expression. -/
def operator? (v : View .expression) : Option TokenKind :=
  if [.node .prefixExpr, .node .postfixExpr, .node .binaryExpr, .node .assignExpr].contains v.kind then
    (v.leaves.map Leaf.tokenKind).find? TokenKind.isPunct
  else none

/-- The first operand. -/
def left? (v : View .expression) : Option (View .expression) := v.operands.head?

/-- The second operand of a binary or assignment expression. -/
def right? (v : View .expression) : Option (View .expression) :=
  if v.kind = .node .binaryExpr ∨ v.kind = .node .assignExpr then v.operands[1]? else none

/-- The identifier of a name, or that of the member of a member access. -/
def memberName? (v : View .expression) : Option Leaf :=
  if v.kind = .node .nameExpr ∨ v.kind = .node .memberAccessExpr then v.leaf? .ident else none

/-- The token of a literal. -/
def literal? (v : View .expression) : Option Leaf :=
  if v.kind = .node .literalExpr then v.leaves.head? else none

/-- The arguments of a call or an object creation. -/
def arguments (v : View .expression) : List (View .expression) :=
  match v.part? .argList with
  | some list => list.parts .expression
  | none => []

/-- The type of a created object. -/
def createdType? (v : View .expression) : Option (View .type) :=
  if v.kind = .node .objectCreationExpr then v.part? .type else none

end View

end IncrementalSyntax

import IncrementalSyntax.View.Parts

/-!
# Summaries

A summary shows a construct on one line as its views see it: the parts by name and in order, a `-` for
each part that is not found. Members, statements and expressions carry their range. Tokens that no view
asks for are left out.

A construct inside another one lies at least one level further down, so the depth of the tree bounds the
recursion.

## Main definitions

* `View.nameSummary`, `View.typeSummary`: names and types
* `View.expressionSummary`, `View.statementSummary`, `View.memberSummary`: the constructs
* `Red.unitSummary?`, `Red.fragmentSummary`: what stands below a root
-/

namespace IncrementalSyntax

namespace View

/-- The range of a view behind its summary. -/
def located {c : Category} (v : View c) (s : String) : String :=
  s ++ "@" ++ toString v.range.start ++ "-" ++ toString v.range.stop

/-- Parts in parentheses. -/
def parens (parts : List String) : String := "(" ++ String.intercalate " " parts ++ ")"

/-- A part that may be absent. -/
def orDash {α : Type} (summary : α → String) : Option α → String
  | some a => summary a
  | none => "-"

/-- The text of a token. -/
def leafSummary (l : Leaf) : String := String.ofList l.text

/-! ## Names and types -/

/-- A name with the number of its segments. -/
def nameSummary (v : View .name) : String :=
  v.located (String.ofList v.qualified ++ "/" ++ toString v.segments.length)

/-- A type, down to a number of levels. -/
def typeUpTo : Nat → View .type → String
  | 0, _ => ""
  | levels + 1, v =>
    if v.isArray then orDash (typeUpTo levels) v.elementType? ++ "[]"
    else
      match v.predefined? with
      | some k => k.label
      | none => orDash nameSummary v.asName?

/-- A type with a pair of brackets for each array. -/
def typeSummary (v : View .type) : String := typeUpTo v.red.green.depth v

/-! ## Expressions -/

/-- A part with a tag in front, if it is there. -/
def tagged (tag : String) (part : Option String) : List String := (part.map (tag ++ ·)).toList

/-- What an expression is, apart from its operands. -/
def expressionHead (v : View .expression) : List String :=
  v.located v.kind.label ::
    (tagged "op:" (v.operator?.map TokenKind.label) ++ tagged "name:" (v.memberName?.map leafSummary) ++
      tagged "lit:" (v.literal?.map fun l => l.kind.label ++ ":" ++ leafSummary l) ++
      tagged "type:" (v.createdType?.map typeSummary))

/-- An expression, down to a number of levels. Binary expressions and assignments show both places of an
operand. -/
def expressionUpTo : Nat → View .expression → String
  | 0, _ => ""
  | levels + 1, v =>
    let inner := expressionUpTo levels
    let operands :=
      if v.kind = .node .binaryExpr ∨ v.kind = .node .assignExpr then
        [orDash inner v.left?, orDash inner v.right?]
      else v.operands.map inner
    let arguments :=
      if v.kind = .node .callExpr ∨ v.kind = .node .objectCreationExpr then
        ["args[" ++ String.intercalate " " (v.arguments.map inner) ++ "]"]
      else []
    parens (v.expressionHead ++ operands ++ arguments)

/-- An expression with all expressions inside. -/
def expressionSummary (v : View .expression) : String := expressionUpTo v.red.green.depth v

/-! ## Statements -/

/-- A variable with its initial value. -/
def declaratorSummary (v : View .variableDeclarator) : String :=
  parens [v.located "decl", orDash leafSummary v.identifier?, orDash expressionSummary v.initializer?]

/-- The parts of a statement whose inner statements are shown by `inner`. -/
def statementParts (inner : View .statement → String) (v : View .statement) : List String :=
  match v.red.green.nodeKind? with
  | some .block => "block" :: (v.parts .statement).map inner
  | some .emptyStmt => ["empty"]
  | some .localDeclStmt => "local" :: orDash typeSummary v.type? :: v.declarators.map declaratorSummary
  | some .exprStmt => ["expr", orDash expressionSummary v.expression?]
  | some .ifStmt =>
    ["if", orDash expressionSummary v.condition?, orDash inner v.thenBranch?,
      orDash inner ((ofRed? .ifStmt v.red).bind elseBranch?)]
  | some .whileStmt =>
    ["while", orDash expressionSummary v.condition?,
      orDash inner ((ofRed? .whileStmt v.red).bind loopBody?)]
  | some .returnStmt => ["return", orDash expressionSummary v.expression?]
  | some .breakStmt => ["break"]
  | some .continueStmt => ["continue"]
  | _ => []

/-- A statement, down to a number of levels. -/
def statementUpTo : Nat → View .statement → String
  | 0, _ => ""
  | levels + 1, v => v.located (parens (v.statementParts (statementUpTo levels)))

/-- A statement with all statements inside. -/
def statementSummary (v : View .statement) : String := statementUpTo v.red.green.depth v

/-! ## Members -/

/-- The modifiers of a member in brackets. -/
def modifiersSummary {c : Category} (v : View c) : String :=
  "[" ++ String.intercalate " " (v.modifiers.map TokenKind.label) ++ "]"

/-- A parameter as its type and its name. -/
def parameterSummary (v : View .param) : String :=
  orDash typeSummary v.type? ++ ":" ++ orDash leafSummary v.identifier?

def parameterListSummary (v : View .paramList) : String :=
  parens ("params" :: v.parameters.map parameterSummary)

def baseListSummary (v : View .baseList) : String := parens ("bases" :: v.types.map typeSummary)

/-- The block of a method, which shows no range. -/
def bodySummary (v : View .block) : String := parens ("block" :: v.statements.map statementSummary)

/-- The parts of a type declaration whose members are shown by `inner`. -/
def typeDeclParts (inner : View .member → String) (v : View .typeDecl) : List String :=
  [v.declarationKind.label, v.modifiersSummary, orDash leafSummary v.declaredName?,
    orDash baseListSummary v.baseList?] ++ v.members.map inner

def methodParts (v : View .methodDecl) : List String :=
  ["method", v.modifiersSummary, orDash typeSummary v.type?, orDash leafSummary v.identifier?,
    orDash parameterListSummary v.parameterList?, orDash bodySummary v.body?]

/-- The parts of a member whose inner members are shown by `inner`. -/
def memberParts (inner : View .member → String) (v : View .member) : List String :=
  match ofRed? .typeDecl v.red, ofRed? .methodDecl v.red with
  | some d, _ => d.typeDeclParts inner
  | none, some m => m.methodParts
  | none, none =>
    match v.red.green.nodeKind? with
    | some .usingDirective => ["using", orDash nameSummary v.name?]
    | some .namespaceDecl => "namespace" :: orDash nameSummary v.name? :: v.members.map inner
    | some .fieldDecl =>
      "field" :: v.modifiersSummary :: orDash typeSummary v.type? :: v.declarators.map declaratorSummary
    | _ => ["incomplete", v.modifiersSummary]

/-- A member, down to a number of levels. -/
def memberUpTo : Nat → View .member → String
  | 0, _ => ""
  | levels + 1, v => v.located (parens (v.memberParts (memberUpTo levels)))

/-- A member with all members inside. -/
def memberSummary (v : View .member) : String := memberUpTo v.red.green.depth v

end View

namespace Red

/-- The members of a compilation unit; `none` for any other root. -/
def unitSummary? (r : Red) : Option (List String) :=
  (View.ofRed? .compilationUnit r).map fun v => v.members.map View.memberSummary

/-- A node as a member, a statement or an expression, whichever it can be seen as first, or its kind. -/
def summary (r : Red) : String :=
  match View.ofRed? .member r, View.ofRed? .statement r, View.ofRed? .expression r with
  | some v, _, _ => v.memberSummary
  | none, some v, _ => v.statementSummary
  | none, none, some v => v.expressionSummary
  | none, none, none => r.kind.label

/-- The nodes right below a root. -/
def fragmentSummary (r : Red) : List String := (r.children.filter (·.green.isNode)).map summary

end Red

end IncrementalSyntax

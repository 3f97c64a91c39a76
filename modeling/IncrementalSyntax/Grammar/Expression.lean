import IncrementalSyntax.Grammar.Parser

/-!
# Names, types and expressions

From loosest to tightest an expression is an assignment, which groups to the right, a chain of binary
operators by precedence, each level grouped to the left, a prefix operator before its operand, a
primary expression with calls, members, indices and postfix operators behind it, or a primary
expression.

## Main definitions

* `Parse.name`, `Parse.type`: names and types
* `Parse.skipType`: a type passed over while looking ahead
* `Parse.expression`: expressions
* `Parse.argumentListOf`: arguments in parentheses
-/

namespace IncrementalSyntax

namespace Parse

variable {σ : Type} [TokenSource σ]

/-! ## Names and types -/

/-- Whether a point and an identifier come. -/
def atSegment : Parse σ Bool := do
  return (← peek) = .punct .dot && (← peekSecond) = .ident

/-- Whether a pair of brackets with nothing between them comes. -/
def atBrackets : Parse σ Bool := do
  return (← peek) = .punct .lBracket && (← peekSecond) = .punct .rBracket

/-- A name: identifiers with points between them. -/
def name : Parse σ Unit := node .name do
  expect .ident
  loop do
    unless ← atSegment do return false
    bump
    bump
    return true

/-- A type: a predefined type or a name, with any number of bracket pairs. -/
def type : Parse σ Unit := scope do
  let kind ← peek
  if kind.startsType then
    if kind.isBuiltin then node .predefinedType bump else name
    loop do
      unless ← atBrackets do return false
      bump
      bump
      enclose .arrayType
      return true
  else node .name (missing .ident .typeExpected)

/-- Passes over a type; says whether there was one. -/
def skipType : Parse σ Bool := do
  let kind ← peek
  unless kind.startsType do return false
  skip
  unless kind.isBuiltin do
    loop do
      unless ← atSegment do return false
      skip
      skip
      return true
  loop do
    unless ← atBrackets do return false
    skip
    skip
    return true
  return true

/-! ## Expressions

The productions of this section take `inner`, which reads an expression further inside. -/

/-- Arguments in parentheses with commas between them. -/
def argumentListOf (inner : Parse σ Unit) : Parse σ Unit := node .argList do
  expect (.punct .lParen)
  let kind ← peek
  unless kind = .punct .rParen || kind = .eof do
    loop do
      inner
      eat (.punct .comma)
  expect (.punct .rParen)

/-- A primary expression: a constant, a name, `this`, an expression in parentheses or an object creation.
Where none begins a name is missing. -/
def primary (inner : Parse σ Unit) : Parse σ Unit := do
  let kind ← peek
  if kind.isLiteral || kind.isConstant then node .literalExpr bump
  else if kind = .ident then node .nameExpr bump
  else if kind = .keyword .thisKw then node .thisExpr bump
  else if kind = .punct .lParen then
    node .parenExpr do
      bump
      inner
      expect (.punct .rParen)
  else if kind = .keyword .newKw then
    node .objectCreationExpr do
      bump
      type
      argumentListOf inner
  else node .nameExpr (missing .ident .expressionExpected)

/-- One more call, member, index or postfix operator around what stands in the scope; says whether there
was one. -/
def postfixRound (inner : Parse σ Unit) : Parse σ Bool := do
  match ← peek with
  | .punct .lParen =>
    argumentListOf inner
    enclose .callExpr
    return true
  | .punct .dot =>
    bump
    expect .ident
    enclose .memberAccessExpr
    return true
  | .punct .lBracket =>
    bump
    inner
    expect (.punct .rBracket)
    enclose .indexExpr
    return true
  | .punct .plusPlus | .punct .minusMinus =>
    bump
    enclose .postfixExpr
    return true
  | _ => return false

/-- A primary expression with all that stands behind it. -/
def postfixed (inner : Parse σ Unit) : Parse σ Unit := scope do
  primary inner
  loop (postfixRound inner)

/-- Any number of prefix operators before their operand. -/
def prefixed (inner : Parse σ Unit) : Parse σ Unit := fix fun again => do
  if (← peek).isPrefix then
    node .prefixExpr do
      bump
      again
  else postfixed inner

/-- Operands with binary operators of precedence `least` or higher between them. The right operand binds
tighter than its operator, so `levels` need not exceed the number of precedences from `least` on. -/
def binary (inner : Parse σ Unit) : (levels least : Nat) → Parse σ Unit
  | 0, _ => prefixed inner
  | levels + 1, least => scope do
    prefixed inner
    loop do
      match (← peek).precedence? with
      | none => return false
      | some precedence =>
        if precedence < least then return false
        bump
        binary inner levels (precedence + 1)
        enclose .binaryExpr
        return true

/-- The number of precedences of binary operators. -/
def precedences : Nat := 6

/-- An assignment, or an expression of a tighter level. -/
def assignment (inner : Parse σ Unit) : Parse σ Unit := scope do
  binary inner precedences 1
  if (← peek).isAssignment then
    bump
    inner
    enclose .assignExpr

/-- An expression. -/
def expression : Parse σ Unit := fix assignment

end Parse

end IncrementalSyntax

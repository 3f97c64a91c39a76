import IncrementalSyntax.Grammar.Expression

/-!
# Statements

A statement that an edit has left whole is taken over as it is. Otherwise its first token tells what it
is, and for a name whether a type and an identifier come.

## Main definitions

* `Parse.declarators`: variables with their initial values
* `Parse.atLocalDeclaration`: whether a statement declares variables
* `Parse.statement`, `Parse.block`: statements and blocks
-/

namespace IncrementalSyntax

namespace Parse

variable {σ : Type} [TokenSource σ]

/-- A variable, perhaps with an initial value. -/
def declarator : Parse σ Unit := node .variableDeclarator do
  expect .ident
  if ← eat (.punct .eq) then expression

/-- Variables with commas between them. -/
def declarators : Parse σ Unit := loop do
  declarator
  eat (.punct .comma)

/-- Whether a type and an identifier come. -/
def atLocalDeclaration : Parse σ Bool := speculate do
  if ← skipType then isAt .ident else return false

/-- A declaration of variables. -/
def localDeclaration : Parse σ Unit := node .localDeclStmt do
  type
  declarators
  expect (.punct .semicolon)

/-- An expression as a statement. -/
def expressionStatement : Parse σ Unit := node .exprStmt do
  expression
  expect (.punct .semicolon)

/-- A condition in parentheses. -/
def condition : Parse σ Unit := do
  expect (.punct .lParen)
  expression
  expect (.punct .rParen)

/-- A statement made of a keyword alone. -/
def jump (kind : NodeKind) : Parse σ Unit := node kind do
  bump
  expect (.punct .semicolon)

/-- A return, with or without a value. -/
def returnStatement : Parse σ Unit := node .returnStmt do
  bump
  if (← peek).startsExpression then expression
  expect (.punct .semicolon)

/-! The productions below take `inner`, which reads a statement further inside. -/

/-- A statement that belongs to another one. Where none begins, an expression statement is missing. -/
def embedded (inner : Parse σ Unit) : Parse σ Unit := do
  if (← peek).startsStatement then inner else expressionStatement

/-- A conditional, with or without an `else`. -/
def ifStatement (inner : Parse σ Unit) : Parse σ Unit := node .ifStmt do
  bump
  condition
  embedded inner
  if ← isAt (.keyword .elseKw) then
    node .elseClause do
      bump
      embedded inner

def whileStatement (inner : Parse σ Unit) : Parse σ Unit := node .whileStmt do
  bump
  condition
  embedded inner

/-- One round of the statements of a block; says whether there may be more. -/
def blockRound (inner : Parse σ Unit) : Parse σ Bool := do
  let kind ← peek
  if kind = .punct .rBrace || kind = .eof then return false
  else if kind.startsStatement then
    inner
    return true
  else skipToRecovery

/-- A block: statements between braces. -/
def blockOf (inner : Parse σ Unit) : Parse σ Unit := node .block do
  expect (.punct .lBrace)
  within .block (loop (blockRound inner))
  expect (.punct .rBrace)

/-- A statement by its first token. -/
def statementBody (inner : Parse σ Unit) : Parse σ Unit := do
  match ← peek with
  | .punct .lBrace => blockOf inner
  | .punct .semicolon => node .emptyStmt bump
  | .keyword .ifKw => ifStatement inner
  | .keyword .whileKw => whileStatement inner
  | .keyword .returnKw => returnStatement
  | .keyword .breakKw => jump .breakStmt
  | .keyword .continueKw => jump .continueStmt
  | .builtin _ => localDeclaration
  | .ident => if ← atLocalDeclaration then localDeclaration else expressionStatement
  | _ => expressionStatement

/-- A statement. -/
def statement : Parse σ Unit := fix fun inner =>
  reuseOr NodeKind.isStatement (statementBody inner)

/-- A block where nothing else can stand. -/
def block : Parse σ Unit := reuseOr (· = .block) (blockOf statement)

end Parse

end IncrementalSyntax

import IncrementalSyntax.Grammar.Statement

/-!
# Members

Using directives, namespaces, types, methods and fields. Modifiers may stand in front of any of them. A
method is told from a field by the parenthesis behind its name.

## Main definitions

* `Parse.member`, `Parse.members`: members
* `Parse.atRecord`: whether a record declaration comes
-/

namespace IncrementalSyntax

namespace Parse

variable {σ : Type} [TokenSource σ]

/-- Whether the word `record` stands for a declaration: records must be part of the language, and an
identifier has to follow. -/
def atRecord : Parse σ Bool := do
  return (← get).version.supportsRecords && (← peekText) = "record".toList &&
    (← peekSecond) = .ident

/-- A parameter: a type and an identifier. -/
def parameter : Parse σ Unit := node .param do
  type
  expect .ident

/-- Parameters in parentheses with commas between them. -/
def parameterList : Parse σ Unit := node .paramList do
  expect (.punct .lParen)
  if (← peek).startsType then
    loop do
      parameter
      eat (.punct .comma)
  expect (.punct .rParen)

/-- The types that a type declaration names behind a colon. -/
def baseList : Parse σ Unit := node .baseList do
  bump
  loop do
    type
    eat (.punct .comma)

/-- A method without its modifiers and its type, or a field. -/
def methodOrField : Parse σ Unit := do
  if (← peek) = .ident && (← peekSecond) = .punct .lParen then
    bump
    parameterList
    if ← isAt (.punct .lBrace) then block else expect (.punct .semicolon)
    enclose .methodDecl
  else
    declarators
    expect (.punct .semicolon)
    enclose .fieldDecl

/-- A using directive without its modifiers. -/
def usingDirective : Parse σ Unit := do
  bump
  name
  expect (.punct .semicolon)
  enclose .usingDirective

/-! The productions below take `inner`, which reads a member further inside. -/

/-- One round of the members of a list up to a closing token; says whether there may be more. -/
def memberRound (inner : Parse σ Unit) (closer : Option TokenKind) : Parse σ Bool := do
  let kind ← peek
  if kind = .eof || some kind = closer then return false
  else if kind.startsMember then
    inner
    return true
  else skipToRecovery

/-- Members between braces. -/
def memberBody (inner : Parse σ Unit) (context : ListContext) : Parse σ Unit := do
  expect (.punct .lBrace)
  within context (loop (memberRound inner (some (.punct .rBrace))))
  expect (.punct .rBrace)

/-- A type declaration without its modifiers. -/
def typeDeclaration (inner : Parse σ Unit) (kind : NodeKind) : Parse σ Unit := do
  bump
  expect .ident
  if ← isAt (.punct .colon) then baseList
  memberBody inner .typeBody
  enclose kind

/-- A namespace without its modifiers. -/
def namespaceDeclaration (inner : Parse σ Unit) : Parse σ Unit := do
  bump
  name
  memberBody inner .namespaceBody
  enclose .namespaceDecl

/-- A member behind its modifiers. Modifiers with no member behind them are an incomplete one. -/
def memberTail (inner : Parse σ Unit) : Parse σ Unit := do
  match ← peek with
  | .keyword .usingKw => usingDirective
  | .keyword .namespaceKw => namespaceDeclaration inner
  | .keyword .classKw => typeDeclaration inner .classDecl
  | .keyword .structKw => typeDeclaration inner .structDecl
  | .keyword .interfaceKw => typeDeclaration inner .interfaceDecl
  | .builtin _ =>
    type
    methodOrField
  | .ident =>
    if ← atRecord then typeDeclaration inner .recordDecl
    else
      type
      methodOrField
  | _ =>
    missing .ident .typeExpected
    enclose .incompleteMember

/-- A member with its modifiers. -/
def memberOf (inner : Parse σ Unit) : Parse σ Unit := scope do
  loop do
    unless (← peek).isModifier do return false
    bump
    return true
  memberTail inner

/-- A member. -/
def member : Parse σ Unit := fix fun inner => reuseOr NodeKind.isMember (memberOf inner)

/-- The members of a file. -/
def members : Parse σ Unit := within .compilationUnit (loop (memberRound member none))

end Parse

end IncrementalSyntax

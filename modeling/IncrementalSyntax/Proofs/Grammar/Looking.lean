import IncrementalSyntax.Grammar.Root

/-!
# Productions that look ahead in a given way

At an identifier a statement has to find out whether it declares variables. The productions of this module are those of
the grammar, with an action in place of the one that finds it out. What is proved of them for any such action holds of
the grammar itself.

## Main definitions

* `Parse.statementWith`, `Parse.memberWith`: statements and members, if `look` tells declarations

## Main results

* `Parse.statementWith_eq`, `Parse.memberWith_eq`: with the action of the grammar they are those of the grammar
-/

namespace IncrementalSyntax

namespace Parse

variable {σ : Type} [TokenSource σ]

section Looking

variable (look : Parse σ Bool)

/-- A statement by its first token; at an identifier `look` says whether it declares variables. -/
def statementBodyWith (inner : Parse σ Unit) : Parse σ Unit := do
  if (← peek) = .ident then
    if ← look then localDeclaration else expressionStatement
  else statementBody inner

def statementWith : Parse σ Unit := fix fun inner => reuseOr NodeKind.isStatement (statementBodyWith look inner)

def blockWith : Parse σ Unit := reuseOr (· = .block) (blockOf (statementWith look))

/-- A method without its modifiers and its type, or a field. -/
def methodOrFieldWith : Parse σ Unit := do
  if (← peek) = .ident && (← peekSecond) = .punct .lParen then
    bump
    parameterList
    if ← isAt (.punct .lBrace) then blockWith look else expect (.punct .semicolon)
    enclose .methodDecl
  else
    declarators
    expect (.punct .semicolon)
    enclose .fieldDecl

/-- A member behind its modifiers. -/
def memberTailWith (inner : Parse σ Unit) : Parse σ Unit := do
  match ← peek with
  | .keyword .usingKw => usingDirective
  | .keyword .namespaceKw => namespaceDeclaration inner
  | .keyword .classKw => typeDeclaration inner .classDecl
  | .keyword .structKw => typeDeclaration inner .structDecl
  | .keyword .interfaceKw => typeDeclaration inner .interfaceDecl
  | .builtin _ =>
    type
    methodOrFieldWith look
  | .ident =>
    if ← atRecord then typeDeclaration inner .recordDecl
    else
      type
      methodOrFieldWith look
  | _ =>
    missing .ident .typeExpected
    enclose .incompleteMember

/-- A member with its modifiers. -/
def memberOfWith (inner : Parse σ Unit) : Parse σ Unit := scope do
  loop do
    unless (← peek).isModifier do return false
    bump
    return true
  memberTailWith look inner

def memberWith : Parse σ Unit := fix fun inner => reuseOr NodeKind.isMember (memberOfWith look inner)

end Looking

theorem statementBodyWith_eq (inner : Parse σ Unit) :
    statementBodyWith atLocalDeclaration inner = statementBody inner := by
  funext p
  show (if (TokenSource.next p.source).1.leaf.tokenKind = .ident then
      (do if ← atLocalDeclaration then localDeclaration else expressionStatement)
    else statementBody inner : Parse σ Unit) p = statementBody inner p
  split
  · next h =>
    have hpeek : (peek : Parse σ TokenKind) p = (.ident, p) := by rw [peek, h]
    simp only [statementBody, bind, StateT.bind, hpeek]
  · rfl

theorem statementWith_eq : (statementWith atLocalDeclaration : Parse σ Unit) = statement := by
  simp only [statementWith, statementBodyWith_eq]
  rfl

theorem blockWith_eq : (blockWith atLocalDeclaration : Parse σ Unit) = block := by
  rw [blockWith, statementWith_eq]
  rfl

theorem methodOrFieldWith_eq : (methodOrFieldWith atLocalDeclaration : Parse σ Unit) = methodOrField := by
  rw [methodOrFieldWith, blockWith_eq]
  rfl

theorem memberTailWith_eq (inner : Parse σ Unit) : memberTailWith atLocalDeclaration inner = memberTail inner := by
  rw [memberTailWith, methodOrFieldWith_eq]
  rfl

theorem memberWith_eq : (memberWith atLocalDeclaration : Parse σ Unit) = member := by
  simp only [memberWith, memberOfWith, memberTailWith_eq]
  rfl

end Parse

end IncrementalSyntax

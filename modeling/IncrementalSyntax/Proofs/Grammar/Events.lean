import IncrementalSyntax.Grammar.Root
import IncrementalSyntax.Green.Builder

/-!
# The grammar as events

The productions once more, this time in the order in which a tree is built from left to right. A node is opened
in front of its first child, or later at a mark set there, and it is closed behind its last child. While the
parser looks ahead nothing is built, and it goes back afterwards.

The machine fails where a builder is used in a wrong way, where a round of a repetition goes on without having
moved, and where a recursion is deeper than tokens are left.

## Main definitions

* `Machine`, `Events`: the state, and actions on it that can fail
* `Events.openNode`, `Events.openAt`, `Events.closeNode`: nodes
* `Events.loop`: repetition in which every round moves on
* `Events.statement`, `Events.member`, `Events.rootNode`: the productions
-/

namespace IncrementalSyntax

/-- Whether a node can be opened at a mark: it lies among the elements, inside the innermost open node. -/
def Builder.admits (b : Builder) (mark : Nat) : Bool :=
  mark ≤ b.mark && b.opened.head?.all fun o => o.2 ≤ mark

/-- **Machine.** The tokens to come and the number of slots passed, the builder, the open lists, the innermost
first, how many times the parser is looking ahead, the status, and the version of the language. -/
structure Machine (σ : Type) where
  source : σ
  position : Nat := 0
  builder : Builder := {}
  contexts : List ListContext := []
  lookahead : Nat := 0
  status : ParseStatus := .complete
  version : LanguageVersion := .latest

/-- **Events.** A step of the machine with a result, unless it fails. -/
abbrev Events (σ : Type) := StateT (Machine σ) Option

namespace Events

variable {σ : Type} [TokenSource σ]

/-! ## Tokens -/

/-- The kind of the token at the front. -/
def peek : Events σ TokenKind := fun m => some ((TokenSource.next m.source).1.leaf.tokenKind, m)

/-- The kind of the token behind the one at the front. -/
def peekSecond : Events σ TokenKind := fun m =>
  some ((TokenSource.next (TokenSource.next m.source).2).1.leaf.tokenKind, m)

/-- The text of the token at the front. -/
def peekText : Events σ Text := fun m => some ((TokenSource.next m.source).1.leaf.text, m)

def isAt (kind : TokenKind) : Events σ Bool := do return (← peek) = kind

/-- Whether two tokens of these kinds come. -/
def atPair (first second : TokenKind) : Events σ Bool := do
  return (← peek) = first && (← peekSecond) = second

/-- Passes the token at the front. -/
def take : Events σ Token := fun m =>
  some ((TokenSource.next m.source).1,
    { m with source := (TokenSource.next m.source).2, position := m.position + 1 })

/-- An identity that has not been used. -/
def fresh : Events σ Id := fun m =>
  some ((TokenSource.fresh m.source).1, { m with source := (TokenSource.fresh m.source).2 })

/-- Adds an element to the tree. -/
def push (g : Green) : Events σ Unit := fun m => some ((), { m with builder := m.builder.push g })

/-- Passes the token at the front, which is added to the tree unless the parser looks ahead. -/
def bump : Events σ Unit := do
  let ahead := (← get).lookahead
  let t ← take
  if ahead = 0 then push (.token t)

theorem bump_eq {m : Machine σ} (h : m.lookahead = 0) :
    bump m = some ((), { m with
      source := (TokenSource.next m.source).2
      position := m.position + 1
      builder := m.builder.push (.token (TokenSource.next m.source).1) }) := by
  show (if m.lookahead = 0 then push (.token (TokenSource.next m.source).1) else pure ())
    { m with source := (TokenSource.next m.source).2, position := m.position + 1 } = _
  rw [if_pos h]
  rfl

def eat (kind : TokenKind) : Events σ Bool := do
  if ← isAt kind then
    bump
    return true
  else return false

/-- Notes that a token is missing at the end of the text. -/
def noteMissing : Events σ Unit := fun m =>
  some ((), if (TokenSource.next m.source).1.leaf.tokenKind = .eof then { m with status := .unexpectedEnd } else m)

/-- Adds a token of a kind that is missing. -/
def missing (kind : TokenKind) (code : Code) : Events σ Unit := do
  if (← get).lookahead = 0 then
    let args := if code = .tokenExpected then [Kind.describe kind] else []
    noteMissing
    push (.token ⟨← fresh, .absent kind (.ofCode code 0 0 args)⟩)

def expect (kind : TokenKind) : Events σ Unit := do
  if ← eat kind then pure ()
  else missing kind (if kind = .ident then .identifierExpected else .tokenExpected)

/-! ## Nodes -/

/-- Opens a node at the next element. -/
def openNode (kind : NodeKind) : Events σ Unit := fun m => some ((), { m with builder := m.builder.open' kind })

/-- The place of the next element, to open a node there later. -/
def mark : Events σ Nat := fun m => some (m.builder.mark, m)

/-- Opens a node at a mark, if there is one to open at. -/
def openAt (mark : Nat) (kind : NodeKind) : Events σ Unit := fun m =>
  if m.builder.admits mark then some ((), { m with builder := m.builder.openAt mark kind }) else none

/-- Closes the innermost open node, if there is one. -/
def closeNode : Events σ Unit := fun m =>
  if m.builder.opened.isEmpty then none
  else
    some ((), { m with
      source := (TokenSource.fresh m.source).2
      builder := { m.builder with nextId := (TokenSource.fresh m.source).1 }.close })

theorem closeNode_eq {m : Machine σ} {kind : Kind} {first : Nat} {rest : List (Kind × Nat)}
    (h : m.builder.opened = (kind, first) :: rest) :
    closeNode m = some ((), { m with
      source := (TokenSource.fresh m.source).2
      builder := ⟨rest, Builder.wrap (TokenSource.fresh m.source).1 kind first m.builder.elements,
        (TokenSource.fresh m.source).1 + 1⟩ }) := by
  rw [closeNode, if_neg (by simp [h])]
  simp only [Builder.close, h]

/-- Adds a finished node of the source if there is an acceptable one; says whether there was. -/
def reuse (kinds : NodeKind → Bool) : Events σ Bool := fun m =>
  if m.lookahead = 0 then
    match TokenSource.reuse? kinds m.source with
    | some (g, s) =>
      some (true, { m with source := s, position := m.position + 1, builder := m.builder.push g })
    | none => some (false, m)
  else some (false, m)

/-- Opens a list. -/
def openList (context : ListContext) : Events σ Unit := fun m =>
  some ((), { m with contexts := context :: m.contexts })

/-- Closes the innermost list. -/
def closeList : Events σ Unit := fun m => some ((), { m with contexts := m.contexts.tail })

/-! ## Recursion -/

/-- Recursion to a depth, which fails beyond it. -/
def fixUpTo (body : Events σ Unit → Events σ Unit) : Nat → Events σ Unit
  | 0 => failure
  | depth + 1 => body (fixUpTo body depth)

def fix (body : Events σ Unit → Events σ Unit) : Events σ Unit := fun m =>
  fixUpTo body (TokenSource.remaining m.source + 1) m

/-- A round of a repetition, which fails if it says that there may be more but has not moved. -/
def moving (round : Events σ Bool) : Events σ Bool := fun m =>
  (round m).bind fun r => if r.1 && r.2.position ≤ m.position then none else some r

theorem moving_eq_some_iff {τ : Type} {round : Events τ Bool} {m m' : Machine τ} {b : Bool} :
    moving round m = some (b, m') ↔ round m = some (b, m') ∧ (b = true → m.position < m'.position) := by
  rw [moving, Option.bind_eq_some_iff]
  constructor
  · rintro ⟨r, hr, hmoved⟩
    split at hmoved
    · cases hmoved
    · next hn =>
      cases hmoved
      refine ⟨hr, fun hb => ?_⟩
      simpa [hb] using hn
  · rintro ⟨hr, hlt⟩
    refine ⟨_, hr, if_neg fun hstuck => ?_⟩
    simp only [Bool.and_eq_true, decide_eq_true_eq] at hstuck
    exact absurd (hlt hstuck.1) (Nat.not_lt.2 hstuck.2)

/-- Repetition until the action says no. -/
def loop (round : Events σ Bool) : Events σ Unit := fix fun again => do
  if ← moving round then again

/-! ## Looking ahead and skipping -/

/-- Begins to look ahead; gives the place to go back to. -/
def beginLookahead : Events σ (σ × Nat) := fun m =>
  some ((m.source, m.position), { m with lookahead := m.lookahead + 1 })

/-- Goes back to where looking ahead began. -/
def endLookahead (place : σ × Nat) : Events σ Unit := fun m =>
  some ((), { m with source := place.1, position := place.2, lookahead := m.lookahead - 1 })

/-- The result of an action that looks ahead. -/
def speculate {α : Type} (body : Events σ α) : Events σ α := do
  let place ← beginLookahead
  let b ← body
  endLookahead place
  return b

/-- Passes the token at the front; the end of the text stays. -/
def skip : Events σ Unit := do
  unless (← peek) = .eof do
    let _ ← take

def atRecoveryPoint : Events σ Bool := do
  let kind ← peek
  return kind = .eof || (← get).contexts.any (·.isRecoveryPoint kind)

/-- A skipped token. The first of them carries a diagnostic that covers its text. -/
def skipped (before : List Green) (t : Token) : Events σ Green := do
  if before.isEmpty then
    let d := Diagnostic.ofCode .unexpectedToken t.leaf.leadingWidth t.leaf.textWidth [t.leaf.kind.describe]
    return .token ⟨← fresh, t.leaf.withDiagnostic d⟩
  else return .token t

/-- The tokens up to one that an open list can use, behind those skipped before. -/
def gather : Nat → List Green → Events σ (List Green)
  | 0, _ => failure
  | count + 1, before => do
    if ← atRecoveryPoint then return before
    else
      let g ← skipped before (← take)
      gather count (before ++ [g])

/-- Skips the tokens that no open list can use; says whether there were any. -/
def skipToRecovery : Events σ Bool := do
  let gs ← gather (TokenSource.remaining (← get).source + 1) []
  if gs.isEmpty then return false
  else
    openNode .skippedTokens
    gs.forM push
    closeNode
    return true

/-! ## Names, types and expressions -/

/-- A node over the token at the front. -/
def single (kind : NodeKind) : Events σ Unit := do
  openNode kind
  bump
  closeNode

def name : Events σ Unit := do
  openNode .name
  expect .ident
  loop do
    if ← atPair (.punct .dot) .ident then
      bump
      bump
      return true
    else return false
  closeNode

/-- Bracket pairs around a type that begins at a mark. -/
def brackets (start : Nat) : Events σ Unit := loop do
  if ← atPair (.punct .lBracket) (.punct .rBracket) then
    openAt start .arrayType
    bump
    bump
    closeNode
    return true
  else return false

def type : Events σ Unit := do
  let start ← mark
  let kind ← peek
  if kind.isBuiltin then
    single .predefinedType
    brackets start
  else if kind = .ident then
    name
    brackets start
  else
    openNode .name
    missing .ident .typeExpected
    closeNode

/-- Passes over pairs of tokens while looking ahead. -/
def skipPairs (first second : TokenKind) : Events σ Unit := loop do
  if ← atPair first second then
    skip
    skip
    return true
  else return false

/-- Passes over a type; says whether there was one. -/
def skipType : Events σ Bool := do
  let kind ← peek
  if kind.isBuiltin then
    skip
    skipPairs (.punct .lBracket) (.punct .rBracket)
    return true
  else if kind = .ident then
    skip
    skipPairs (.punct .dot) .ident
    skipPairs (.punct .lBracket) (.punct .rBracket)
    return true
  else return false

/-- Elements with commas between them. -/
def commas (inner : Events σ Unit) : Events σ Unit := loop do
  inner
  eat (.punct .comma)

def argumentListOf (inner : Events σ Unit) : Events σ Unit := do
  openNode .argList
  expect (.punct .lParen)
  let kind ← peek
  unless kind = .punct .rParen || kind = .eof do
    commas inner
  expect (.punct .rParen)
  closeNode

def primary (inner : Events σ Unit) : Events σ Unit := do
  let kind ← peek
  if kind.isLiteral || kind.isConstant then single .literalExpr
  else if kind = .ident then single .nameExpr
  else if kind = .keyword .thisKw then single .thisExpr
  else if kind = .punct .lParen then
    openNode .parenExpr
    bump
    inner
    expect (.punct .rParen)
    closeNode
  else if kind = .keyword .newKw then
    openNode .objectCreationExpr
    bump
    type
    argumentListOf inner
    closeNode
  else
    openNode .nameExpr
    missing .ident .expressionExpected
    closeNode

/-- One more call, member, index or postfix operator around what begins at a mark. -/
def postfixRound (inner : Events σ Unit) (start : Nat) : Events σ Bool := do
  match ← peek with
  | .punct .lParen =>
    openAt start .callExpr
    argumentListOf inner
    closeNode
    return true
  | .punct .dot =>
    openAt start .memberAccessExpr
    bump
    expect .ident
    closeNode
    return true
  | .punct .lBracket =>
    openAt start .indexExpr
    bump
    inner
    expect (.punct .rBracket)
    closeNode
    return true
  | .punct .plusPlus | .punct .minusMinus =>
    openAt start .postfixExpr
    bump
    closeNode
    return true
  | _ => return false

def postfixed (inner : Events σ Unit) : Events σ Unit := do
  let start ← mark
  primary inner
  loop (postfixRound inner start)

def prefixed (inner : Events σ Unit) : Events σ Unit := fix fun again => do
  if (← peek).isPrefix then
    openNode .prefixExpr
    bump
    again
    closeNode
  else postfixed inner

/-- One more operator of precedence `least` or higher behind what begins at a mark, and the operand behind it. -/
def binaryRound (operand : Nat → Events σ Unit) (least start : Nat) : Events σ Bool := do
  match (← peek).precedence? with
  | none => return false
  | some precedence =>
    if precedence < least then return false
    else
      openAt start .binaryExpr
      bump
      operand (precedence + 1)
      closeNode
      return true

/-- Operands with binary operators of precedence `least` or higher between them, to a depth of `levels`. -/
def binary (inner : Events σ Unit) : (levels least : Nat) → Events σ Unit
  | 0, _ => failure
  | levels + 1, least => do
    let start ← mark
    prefixed inner
    loop (binaryRound (binary inner levels) least start)

/-- No operator is left that binds tighter than the tightest one. -/
def assignment (inner : Events σ Unit) : Events σ Unit := do
  let start ← mark
  binary inner (Parse.precedences + 1) 1
  if (← peek).isAssignment then
    openAt start .assignExpr
    bump
    inner
    closeNode

def expression : Events σ Unit := fix assignment

/-! ## Statements -/

def declarator : Events σ Unit := do
  openNode .variableDeclarator
  expect .ident
  if ← eat (.punct .eq) then expression
  closeNode

def declarators : Events σ Unit := commas declarator

/-- Whether a type and an identifier come, looking ahead. -/
def atLocalDeclaration : Events σ Bool := speculate do
  if ← skipType then isAt .ident else return false

def localDeclaration : Events σ Unit := do
  openNode .localDeclStmt
  type
  declarators
  expect (.punct .semicolon)
  closeNode

def expressionStatement : Events σ Unit := do
  openNode .exprStmt
  expression
  expect (.punct .semicolon)
  closeNode

def condition : Events σ Unit := do
  expect (.punct .lParen)
  expression
  expect (.punct .rParen)

def jump (kind : NodeKind) : Events σ Unit := do
  openNode kind
  bump
  expect (.punct .semicolon)
  closeNode

def returnStatement : Events σ Unit := do
  openNode .returnStmt
  bump
  if (← peek).startsExpression then expression
  expect (.punct .semicolon)
  closeNode

def embedded (inner : Events σ Unit) : Events σ Unit := do
  if (← peek).startsStatement then inner else expressionStatement

def ifStatement (inner : Events σ Unit) : Events σ Unit := do
  openNode .ifStmt
  bump
  condition
  embedded inner
  if ← isAt (.keyword .elseKw) then
    openNode .elseClause
    bump
    embedded inner
    closeNode
  closeNode

def whileStatement (inner : Events σ Unit) : Events σ Unit := do
  openNode .whileStmt
  bump
  condition
  embedded inner
  closeNode

/-- One round of a list: it stops, or an element follows, or tokens are skipped. -/
def listRound (stops starts : TokenKind → Bool) (inner : Events σ Unit) : Events σ Bool := do
  let kind ← peek
  if stops kind then return false
  else if starts kind then
    inner
    return true
  else skipToRecovery

def blockOf (inner : Events σ Unit) : Events σ Unit := do
  openNode .block
  expect (.punct .lBrace)
  openList .block
  loop (listRound (fun k => k = .punct .rBrace || k = .eof) TokenKind.startsStatement inner)
  closeList
  expect (.punct .rBrace)
  closeNode

def statementBody (inner : Events σ Unit) : Events σ Unit := do
  match ← peek with
  | .punct .lBrace => blockOf inner
  | .punct .semicolon => single .emptyStmt
  | .keyword .ifKw => ifStatement inner
  | .keyword .whileKw => whileStatement inner
  | .keyword .returnKw => returnStatement
  | .keyword .breakKw => jump .breakStmt
  | .keyword .continueKw => jump .continueStmt
  | .builtin _ => localDeclaration
  | .ident => if ← atLocalDeclaration then localDeclaration else expressionStatement
  | _ => expressionStatement

/-- A finished node of the source if there is an acceptable one, and otherwise what the action builds. -/
def reuseOr (kinds : NodeKind → Bool) (body : Events σ Unit) : Events σ Unit := do
  if ← reuse kinds then pure () else body

def statement : Events σ Unit := fix fun inner => reuseOr NodeKind.isStatement (statementBody inner)

def block : Events σ Unit := reuseOr (· = .block) (blockOf statement)

/-! ## Members -/

def atRecord : Events σ Bool := do
  return (← get).version.supportsRecords && (← peekText) = "record".toList && (← peekSecond) = .ident

def parameter : Events σ Unit := do
  openNode .param
  type
  expect .ident
  closeNode

def parameterList : Events σ Unit := do
  openNode .paramList
  expect (.punct .lParen)
  if (← peek).startsType then commas parameter
  expect (.punct .rParen)
  closeNode

def baseList : Events σ Unit := do
  openNode .baseList
  bump
  commas type
  closeNode

/-- A method without its modifiers and its type, or a field; the member begins at a mark. -/
def methodOrField (start : Nat) : Events σ Unit := do
  if ← atPair .ident (.punct .lParen) then
    openAt start .methodDecl
    bump
    parameterList
    if ← isAt (.punct .lBrace) then block else expect (.punct .semicolon)
    closeNode
  else
    openAt start .fieldDecl
    declarators
    expect (.punct .semicolon)
    closeNode

def usingDirective (start : Nat) : Events σ Unit := do
  openAt start .usingDirective
  bump
  name
  expect (.punct .semicolon)
  closeNode

/-- The members of a list up to a closing token. -/
def memberList (inner : Events σ Unit) (closer : Option TokenKind) : Events σ Unit :=
  loop (listRound (fun k => k = .eof || some k = closer) TokenKind.startsMember inner)

def memberBody (inner : Events σ Unit) (context : ListContext) : Events σ Unit := do
  expect (.punct .lBrace)
  openList context
  memberList inner (some (.punct .rBrace))
  closeList
  expect (.punct .rBrace)

def typeDeclaration (inner : Events σ Unit) (start : Nat) (kind : NodeKind) : Events σ Unit := do
  openAt start kind
  bump
  expect .ident
  if ← isAt (.punct .colon) then baseList
  memberBody inner .typeBody
  closeNode

def namespaceDeclaration (inner : Events σ Unit) (start : Nat) : Events σ Unit := do
  openAt start .namespaceDecl
  bump
  name
  memberBody inner .namespaceBody
  closeNode

/-- A member behind its modifiers, which begin at a mark. -/
def memberTail (inner : Events σ Unit) (start : Nat) : Events σ Unit := do
  match ← peek with
  | .keyword .usingKw => usingDirective start
  | .keyword .namespaceKw => namespaceDeclaration inner start
  | .keyword .classKw => typeDeclaration inner start .classDecl
  | .keyword .structKw => typeDeclaration inner start .structDecl
  | .keyword .interfaceKw => typeDeclaration inner start .interfaceDecl
  | .builtin _ =>
    type
    methodOrField start
  | .ident =>
    if ← atRecord then typeDeclaration inner start .recordDecl
    else
      type
      methodOrField start
  | _ =>
    openAt start .incompleteMember
    missing .ident .typeExpected
    closeNode

def memberOf (inner : Events σ Unit) : Events σ Unit := do
  let start ← mark
  loop do
    if (← peek).isModifier then
      bump
      return true
    else return false
  memberTail inner start

def member : Events σ Unit := fix fun inner => reuseOr NodeKind.isMember (memberOf inner)

/-! ## Whole texts -/

/-- The members of a file. -/
def members : Events σ Unit := do
  openList .compilationUnit
  memberList member none
  closeList

/-- One production if the token at the front can begin it, and the tokens that it leaves. -/
def fragment (starts : TokenKind → Bool) (body : Events σ Unit) : Events σ Unit := do
  if starts (← peek) then body
  let _ ← skipToRecovery

/-- All that stands below the root in front of the token that ends the text. -/
def rootInner : EntryPoint → Events σ Unit
  | .compilationUnit => members
  | .member => fragment TokenKind.startsMember member
  | .statement => fragment TokenKind.startsStatement statement
  | .expression => fragment TokenKind.startsExpression expression

/-- The root, which ends with the end of the text. -/
def rootNode (entry : EntryPoint) : Events σ Unit := do
  openNode (Parse.rootKind entry)
  rootInner entry
  bump
  closeNode

end Events

end IncrementalSyntax

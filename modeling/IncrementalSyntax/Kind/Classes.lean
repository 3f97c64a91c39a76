import IncrementalSyntax.Kind.Basic

/-!
# Classes of kinds

Which kinds can stand where: the tokens that begin members, statements and expressions, the operators
with their precedence, and the nodes that are members and statements.

## Main definitions

* `TokenKind.startsMember`, `TokenKind.startsStatement`, `TokenKind.startsExpression`
* `TokenKind.precedence?`, `TokenKind.isAssignment`, `TokenKind.isPrefix`: the operators
* `NodeKind.isMember`, `NodeKind.isStatement`: the nodes that an edit can leave whole
* `TriviaKind.isDirective`: the trivia that the preprocessor reads
-/

namespace IncrementalSyntax

namespace TokenKind

def isLiteral : TokenKind → Bool
  | literal _ => true
  | _ => false

def isPunct : TokenKind → Bool
  | punct _ => true
  | _ => false

def isModifier : TokenKind → Bool
  | modifier _ => true
  | _ => false

/-- The keywords that name a type. -/
def isBuiltin : TokenKind → Bool
  | builtin _ => true
  | _ => false

/-- The reserved words, modifiers and predefined types among them. -/
def isKeyword : TokenKind → Bool
  | modifier _ | builtin _ | keyword _ => true
  | _ => false

/-- The tokens that can begin a member. -/
def startsMember : TokenKind → Bool
  | modifier _ | builtin _ | ident => true
  | keyword .usingKw | keyword .namespaceKw | keyword .classKw | keyword .structKw
  | keyword .interfaceKw => true
  | _ => false

/-- The tokens that can begin an expression. -/
def startsExpression : TokenKind → Bool
  | literal _ | ident => true
  | keyword .thisKw | keyword .trueKw | keyword .falseKw | keyword .nullKw | keyword .newKw => true
  | punct .lParen | punct .bang | punct .minus | punct .plus | punct .plusPlus
  | punct .minusMinus => true
  | _ => false

/-- The tokens that can begin a statement. -/
def startsStatement (k : TokenKind) : Bool :=
  match k with
  | punct .lBrace | punct .semicolon => true
  | keyword .ifKw | keyword .whileKw | keyword .returnKw | keyword .breakKw
  | keyword .continueKw => true
  | builtin _ => true
  | _ => k.startsExpression

/-- The tokens that can begin a type. -/
def startsType : TokenKind → Bool
  | ident | builtin _ => true
  | _ => false

/-- The precedence of a binary operator: the higher one binds tighter. -/
def precedence? : TokenKind → Option Nat
  | punct .pipePipe => some 1
  | punct .ampAmp => some 2
  | punct .eqEq | punct .bangEq => some 3
  | punct .lt | punct .gt | punct .ltEq | punct .gtEq => some 4
  | punct .plus | punct .minus => some 5
  | punct .star | punct .slash | punct .percent => some 6
  | _ => none

/-- The assignment operators. -/
def isAssignment : TokenKind → Bool
  | punct .eq | punct .plusEq | punct .minusEq | punct .starEq | punct .slashEq => true
  | _ => false

/-- The operators that stand in front of their operand. -/
def isPrefix : TokenKind → Bool
  | punct .bang | punct .minus | punct .plus | punct .plusPlus | punct .minusMinus => true
  | _ => false

/-- The keywords that stand for a value. -/
def isConstant : TokenKind → Bool
  | keyword .trueKw | keyword .falseKw | keyword .nullKw => true
  | _ => false

end TokenKind

namespace NodeKind

/-- The nodes that are complete members. -/
def isMember : NodeKind → Bool
  | usingDirective | namespaceDecl | classDecl | structDecl | interfaceDecl | recordDecl
  | methodDecl | fieldDecl => true
  | _ => false

/-- The nodes that are statements. -/
def isStatement : NodeKind → Bool
  | block | emptyStmt | localDeclStmt | exprStmt | ifStmt | whileStmt | returnStmt | breakStmt
  | continueStmt => true
  | _ => false

end NodeKind

/-- The lines of a text that the preprocessor reads. -/
def TriviaKind.isDirective : TriviaKind → Bool
  | directive _ => true
  | _ => false

namespace Kind

/-- Whether a kind is that of a token with a property. -/
def isTokenThat (p : TokenKind → Bool) : Kind → Bool
  | token k => p k
  | _ => false

/-- Whether a kind is that of a node with a property. -/
def isNodeThat (p : NodeKind → Bool) : Kind → Bool
  | node k => p k
  | _ => false

/-- Whether a kind is that of trivia with a property. -/
def isTriviaThat (p : TriviaKind → Bool) : Kind → Bool
  | trivia k => p k
  | _ => false

end Kind

end IncrementalSyntax

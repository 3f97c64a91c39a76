import IncrementalSyntax.Kind.Classes

/-!
# Lists that can be open

When the parser meets a token that it cannot use, it skips tokens up to one that some open list can use,
so that a stray token in one place does not take the rest of the text with it.

## Main definitions

* `ListContext`: the lists of the grammar
* `ListContext.canStart`: the tokens that begin an element of a list
* `ListContext.isRecoveryPoint`: the tokens that must not be skipped while a list is open
-/

namespace IncrementalSyntax

/-- **List context.** A list of the grammar. -/
inductive ListContext where
  | compilationUnit | namespaceBody | typeBody | block | parameterList | argumentList
  deriving DecidableEq, Repr

namespace ListContext

/-- The lists in order. -/
def all : List ListContext :=
  [compilationUnit, namespaceBody, typeBody, block, parameterList, argumentList]

/-- The label of a list. -/
def label : ListContext → String
  | compilationUnit => "CompilationUnit"
  | namespaceBody => "NamespaceBody"
  | typeBody => "TypeBody"
  | block => "Block"
  | parameterList => "ParameterList"
  | argumentList => "ArgumentList"

/-- Where an element of the list stands, in words. -/
def description : ListContext → String
  | compilationUnit => "at top level"
  | namespaceBody => "in namespace body"
  | typeBody => "in type body"
  | block => "in block"
  | parameterList => "in parameter list"
  | argumentList => "in argument list"

/-- The token that closes the list. -/
def closer? : ListContext → Option TokenKind
  | compilationUnit => none
  | namespaceBody | typeBody | block => some (.punct .rBrace)
  | parameterList | argumentList => some (.punct .rParen)

/-- Whether a token can begin an element of the list. -/
def canStart : ListContext → TokenKind → Bool
  | compilationUnit, k | namespaceBody, k | typeBody, k => k.startsMember
  | block, k => k.startsStatement
  | parameterList, k => k.startsType
  | argumentList, k => k.startsExpression

/-- Whether a token must not be skipped while the list is open: it ends the text, closes the list or
begins an element. -/
def isRecoveryPoint (c : ListContext) (k : TokenKind) : Bool :=
  k = .eof || c.closer? = some k || c.canStart k

end ListContext

end IncrementalSyntax

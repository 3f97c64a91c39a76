import IncrementalSyntax.Text.Basic

/-!
# Kinds

What the pieces of a syntax tree are. Trivia stand beside tokens and never are elements of the tree,
tokens are its leaves and nodes its inner elements.

## Main definitions

* `DirectiveKind`, `TriviaKind`: the pieces of trivia, each directive a line of its own
* `Literal`, `Punct`, `Modifier`, `Builtin`, `Keyword`, `TokenKind`: the tokens
* `NodeKind`: the nodes
* `Kind`: any of these
-/

namespace IncrementalSyntax

/-- **Directive kind.** The preprocessor directives; `bad` is a line with an unknown name. -/
inductive DirectiveKind where
  | ifDir | elifDir | elseDir | endifDir | region | endregion | define | undef | error | warning
  | bad
  deriving DecidableEq, Repr

/-- **Trivia kind.** What stands between tokens. Disabled text is made of the lines that an inactive
conditional branch leaves out. -/
inductive TriviaKind where
  | whitespace | endOfLine | singleLineComment | multiLineComment | disabledText
  | directive (kind : DirectiveKind)
  deriving DecidableEq, Repr

/-- **Literal.** The constants that a program can spell out. -/
inductive Literal where
  | int | real | string | verbatim | interpolated | char
  deriving DecidableEq, Repr

/-- **Punctuation.** Operators and separators. -/
inductive Punct where
  | lBrace | rBrace | lParen | rParen | lBracket | rBracket | semicolon | comma | dot | colon
  | question | eq | eqEq | bang | bangEq | lt | ltEq | gt | gtEq | plus | plusEq | plusPlus
  | minus | minusEq | minusMinus | star | starEq | slash | slashEq | percent | ampAmp | pipePipe
  deriving DecidableEq, Repr

/-- **Modifier.** The keywords that may stand in front of a member. -/
inductive Modifier where
  | publicMod | privateMod | protectedMod | internalMod | staticMod | abstractMod | sealedMod
  | readonlyMod | constMod
  deriving DecidableEq, Repr

/-- **Predefined type.** The keywords that name a type. -/
inductive Builtin where
  | void | int | bool | string | object | double | char
  deriving DecidableEq, Repr

/-- **Keyword.** The reserved words that are neither modifiers nor types. -/
inductive Keyword where
  | classKw | structKw | interfaceKw | namespaceKw | usingKw | ifKw | elseKw | whileKw | returnKw
  | breakKw | continueKw | newKw | thisKw | trueKw | falseKw | nullKw
  deriving DecidableEq, Repr

/-- **Token kind.** What a token is. Words that are reserved only in some places are identifiers; `bad`
is a character that begins no token, and `eof` the end of the text. -/
inductive TokenKind where
  | ident
  | literal (literal : Literal)
  | punct (punct : Punct)
  | modifier (modifier : Modifier)
  | builtin (builtin : Builtin)
  | keyword (keyword : Keyword)
  | bad
  | eof
  deriving DecidableEq, Repr

/-- **Node kind.** The productions of the grammar, and the tokens that recovery has skipped. A fragment is
the root of a text that is not a whole file. -/
inductive NodeKind where
  | compilationUnit | fragment | usingDirective | namespaceDecl | classDecl | structDecl
  | interfaceDecl | recordDecl | baseList | methodDecl | fieldDecl | incompleteMember | paramList
  | param | variableDeclarator | name | predefinedType | arrayType | block | emptyStmt
  | localDeclStmt | exprStmt | ifStmt | elseClause | whileStmt | returnStmt | breakStmt
  | continueStmt | literalExpr | nameExpr | thisExpr | parenExpr | prefixExpr | postfixExpr
  | binaryExpr | assignExpr | callExpr | argList | memberAccessExpr | indexExpr
  | objectCreationExpr | skippedTokens
  deriving DecidableEq, Repr

/-- **Kind.** The kind of anything that a tree holds. -/
inductive Kind where
  | trivia (kind : TriviaKind)
  | token (kind : TokenKind)
  | node (kind : NodeKind)
  deriving DecidableEq, Repr

instance : Coe TriviaKind Kind := ⟨.trivia⟩

instance : Coe TokenKind Kind := ⟨.token⟩

instance : Coe NodeKind Kind := ⟨.node⟩

namespace TriviaKind

/-- The kinds of trivia in order. -/
def all : List TriviaKind :=
  [.whitespace, .endOfLine, .singleLineComment, .multiLineComment, .disabledText,
    .directive .ifDir, .directive .elifDir, .directive .elseDir, .directive .endifDir,
    .directive .region, .directive .endregion, .directive .define, .directive .undef,
    .directive .error, .directive .warning, .directive .bad]

/-- The label of a kind of trivia. -/
def label : TriviaKind → String
  | whitespace => "WHITESPACE"
  | endOfLine => "END_OF_LINE"
  | singleLineComment => "SINGLE_LINE_COMMENT"
  | multiLineComment => "MULTI_LINE_COMMENT"
  | disabledText => "DISABLED_TEXT"
  | directive .ifDir => "IF_DIRECTIVE"
  | directive .elifDir => "ELIF_DIRECTIVE"
  | directive .elseDir => "ELSE_DIRECTIVE"
  | directive .endifDir => "ENDIF_DIRECTIVE"
  | directive .region => "REGION_DIRECTIVE"
  | directive .endregion => "ENDREGION_DIRECTIVE"
  | directive .define => "DEFINE_DIRECTIVE"
  | directive .undef => "UNDEF_DIRECTIVE"
  | directive .error => "ERROR_DIRECTIVE"
  | directive .warning => "WARNING_DIRECTIVE"
  | directive .bad => "BAD_DIRECTIVE"

end TriviaKind

namespace Punct

def all : List Punct :=
  [.lBrace, .rBrace, .lParen, .rParen, .lBracket, .rBracket, .semicolon, .comma, .dot, .colon,
   .question, .eq, .eqEq, .bang, .bangEq, .lt, .ltEq, .gt, .gtEq, .plus, .plusEq, .plusPlus,
   .minus, .minusEq, .minusMinus, .star, .starEq, .slash, .slashEq, .percent, .ampAmp, .pipePipe]

/-- The one spelling of a punctuation token. -/
def spelling : Punct → String
  | lBrace => "\x7b"
  | rBrace => "\x7d"
  | lParen => "("
  | rParen => ")"
  | lBracket => "["
  | rBracket => "]"
  | semicolon => ";"
  | comma => ","
  | dot => "."
  | colon => ":"
  | question => "?"
  | eq => "="
  | eqEq => "=="
  | bang => "!"
  | bangEq => "!="
  | lt => "<"
  | ltEq => "<="
  | gt => ">"
  | gtEq => ">="
  | plus => "+"
  | plusEq => "+="
  | plusPlus => "++"
  | minus => "-"
  | minusEq => "-="
  | minusMinus => "--"
  | star => "*"
  | starEq => "*="
  | slash => "/"
  | slashEq => "/="
  | percent => "%"
  | ampAmp => "&&"
  | pipePipe => "||"

/-- The label of a punctuation token. -/
def label : Punct → String
  | lBrace => "L_BRACE"
  | rBrace => "R_BRACE"
  | lParen => "L_PAREN"
  | rParen => "R_PAREN"
  | lBracket => "L_BRACKET"
  | rBracket => "R_BRACKET"
  | semicolon => "SEMICOLON"
  | comma => "COMMA"
  | dot => "DOT"
  | colon => "COLON"
  | question => "QUESTION"
  | eq => "EQ"
  | eqEq => "EQ_EQ"
  | bang => "BANG"
  | bangEq => "BANG_EQ"
  | lt => "LT"
  | ltEq => "LT_EQ"
  | gt => "GT"
  | gtEq => "GT_EQ"
  | plus => "PLUS"
  | plusEq => "PLUS_EQ"
  | plusPlus => "PLUS_PLUS"
  | minus => "MINUS"
  | minusEq => "MINUS_EQ"
  | minusMinus => "MINUS_MINUS"
  | star => "STAR"
  | starEq => "STAR_EQ"
  | slash => "SLASH"
  | slashEq => "SLASH_EQ"
  | percent => "PERCENT"
  | ampAmp => "AMP_AMP"
  | pipePipe => "PIPE_PIPE"

end Punct

namespace Modifier

def all : List Modifier :=
  [.publicMod, .privateMod, .protectedMod, .internalMod, .staticMod, .abstractMod, .sealedMod,
   .readonlyMod, .constMod]

/-- The word that stands for a modifier. -/
def spelling : Modifier → String
  | publicMod => "public"
  | privateMod => "private"
  | protectedMod => "protected"
  | internalMod => "internal"
  | staticMod => "static"
  | abstractMod => "abstract"
  | sealedMod => "sealed"
  | readonlyMod => "readonly"
  | constMod => "const"

end Modifier

namespace Builtin

def all : List Builtin := [.void, .int, .bool, .string, .object, .double, .char]

/-- The word that names a predefined type. -/
def spelling : Builtin → String
  | void => "void"
  | int => "int"
  | bool => "bool"
  | string => "string"
  | object => "object"
  | double => "double"
  | char => "char"

end Builtin

namespace Keyword

def all : List Keyword :=
  [.classKw, .structKw, .interfaceKw, .namespaceKw, .usingKw, .ifKw, .elseKw, .whileKw,
   .returnKw, .breakKw, .continueKw, .newKw, .thisKw, .trueKw, .falseKw, .nullKw]

/-- The reserved word itself. -/
def spelling : Keyword → String
  | classKw => "class"
  | structKw => "struct"
  | interfaceKw => "interface"
  | namespaceKw => "namespace"
  | usingKw => "using"
  | ifKw => "if"
  | elseKw => "else"
  | whileKw => "while"
  | returnKw => "return"
  | breakKw => "break"
  | continueKw => "continue"
  | newKw => "new"
  | thisKw => "this"
  | trueKw => "true"
  | falseKw => "false"
  | nullKw => "null"

end Keyword

namespace Literal

def all : List Literal := [.int, .real, .string, .verbatim, .interpolated, .char]

/-- The label of a literal. -/
def label : Literal → String
  | int => "INT_LITERAL"
  | real => "REAL_LITERAL"
  | string => "STRING_LITERAL"
  | verbatim => "VERBATIM_STRING_LITERAL"
  | interpolated => "INTERPOLATED_STRING"
  | char => "CHAR_LITERAL"

end Literal

namespace TokenKind

/-- The reserved words in order. -/
def reserved : List TokenKind :=
  [.keyword .classKw, .keyword .structKw, .keyword .interfaceKw, .keyword .namespaceKw,
    .keyword .usingKw] ++
  Modifier.all.map modifier ++ Builtin.all.map builtin ++
  [.keyword .ifKw, .keyword .elseKw, .keyword .whileKw, .keyword .returnKw, .keyword .breakKw,
    .keyword .continueKw, .keyword .newKw, .keyword .thisKw, .keyword .trueKw, .keyword .falseKw,
    .keyword .nullKw]

/-- The kinds of tokens in order. -/
def all : List TokenKind :=
  ident :: Literal.all.map literal ++ Punct.all.map punct ++ reserved ++ [bad, eof]

/-- The spelling of a token whose text never varies. -/
def fixedText? : TokenKind → Option String
  | punct p => some p.spelling
  | modifier m => some m.spelling
  | builtin t => some t.spelling
  | keyword k => some k.spelling
  | eof => some ""
  | ident | literal _ | bad => none

/-- The reserved word that a text spells, if it spells one. -/
def ofWord? (word : Text) : Option TokenKind :=
  reserved.find? fun k => k.fixedText?.any fun s => s.toList == word

/-- The label of a token. -/
def label : TokenKind → String
  | ident => "IDENT"
  | literal l => l.label
  | punct p => p.label
  | modifier m => m.spelling.toUpper ++ "_KW"
  | builtin t => t.spelling.toUpper ++ "_KW"
  | keyword k => k.spelling.toUpper ++ "_KW"
  | bad => "BAD_TOKEN"
  | eof => "EOF"

end TokenKind

namespace NodeKind

/-- The kinds of nodes in order. -/
def all : List NodeKind :=
  [.compilationUnit, .fragment, .usingDirective, .namespaceDecl, .classDecl, .structDecl,
   .interfaceDecl, .recordDecl, .baseList, .methodDecl, .fieldDecl, .incompleteMember,
   .paramList, .param, .variableDeclarator, .name, .predefinedType, .arrayType, .block,
   .emptyStmt, .localDeclStmt, .exprStmt, .ifStmt, .elseClause, .whileStmt, .returnStmt,
   .breakStmt, .continueStmt, .literalExpr, .nameExpr, .thisExpr, .parenExpr, .prefixExpr,
   .postfixExpr, .binaryExpr, .assignExpr, .callExpr, .argList, .memberAccessExpr, .indexExpr,
   .objectCreationExpr, .skippedTokens]

/-- The label of a node. -/
def label : NodeKind → String
  | compilationUnit => "COMPILATION_UNIT"
  | fragment => "FRAGMENT"
  | usingDirective => "USING_DIRECTIVE"
  | namespaceDecl => "NAMESPACE_DECL"
  | classDecl => "CLASS_DECL"
  | structDecl => "STRUCT_DECL"
  | interfaceDecl => "INTERFACE_DECL"
  | recordDecl => "RECORD_DECL"
  | baseList => "BASE_LIST"
  | methodDecl => "METHOD_DECL"
  | fieldDecl => "FIELD_DECL"
  | incompleteMember => "INCOMPLETE_MEMBER"
  | paramList => "PARAM_LIST"
  | param => "PARAM"
  | variableDeclarator => "VARIABLE_DECLARATOR"
  | name => "NAME"
  | predefinedType => "PREDEFINED_TYPE"
  | arrayType => "ARRAY_TYPE"
  | block => "BLOCK"
  | emptyStmt => "EMPTY_STMT"
  | localDeclStmt => "LOCAL_DECL_STMT"
  | exprStmt => "EXPR_STMT"
  | ifStmt => "IF_STMT"
  | elseClause => "ELSE_CLAUSE"
  | whileStmt => "WHILE_STMT"
  | returnStmt => "RETURN_STMT"
  | breakStmt => "BREAK_STMT"
  | continueStmt => "CONTINUE_STMT"
  | literalExpr => "LITERAL_EXPR"
  | nameExpr => "NAME_EXPR"
  | thisExpr => "THIS_EXPR"
  | parenExpr => "PAREN_EXPR"
  | prefixExpr => "PREFIX_EXPR"
  | postfixExpr => "POSTFIX_EXPR"
  | binaryExpr => "BINARY_EXPR"
  | assignExpr => "ASSIGN_EXPR"
  | callExpr => "CALL_EXPR"
  | argList => "ARG_LIST"
  | memberAccessExpr => "MEMBER_ACCESS_EXPR"
  | indexExpr => "INDEX_EXPR"
  | objectCreationExpr => "OBJECT_CREATION_EXPR"
  | skippedTokens => "SKIPPED_TOKENS"

end NodeKind

namespace Kind

/-- All kinds in order: trivia, tokens, nodes. -/
def all : List Kind :=
  TriviaKind.all.map trivia ++ TokenKind.all.map token ++ NodeKind.all.map node

/-- The label of a kind. -/
def label : Kind → String
  | trivia k => k.label
  | token k => k.label
  | node k => k.label

/-- The kind with a label. -/
def ofLabel? (s : String) : Option Kind := all.find? (·.label == s)

/-- The spelling of a kind whose text never varies. -/
def fixedText? : Kind → Option String
  | token k => k.fixedText?
  | trivia _ | node _ => none

/-- What messages call a kind. -/
def describe : Kind → String
  | token .ident => "identifier"
  | token (.literal .int) | token (.literal .real) => "numeric literal"
  | token (.literal .char) => "character literal"
  | token (.literal _) => "string literal"
  | token .eof => "end of file"
  | token .bad => "invalid token"
  | k =>
    match k.fixedText? with
    | some s => "'" ++ s ++ "'"
    | none => k.label.toLower

end Kind

end IncrementalSyntax

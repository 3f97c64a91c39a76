import IncrementalSyntax.Proofs.Grammar.Phrases
import IncrementalSyntax.Token.Raw
import IncrementalSyntax.View.Parts

/-!
# Abstract trees

The constructs of the grammar without tokens and trivia, and the words that are written for them. Parentheses
are constructs of their own, so a tree can be written as it stands if its operands bind tight enough and if
no `else` is taken by a conditional further inside.

## Main definitions

* `Ast.Word`: the kind and the text of a token
* `Ast.Name`, `Ast.Ty`, `Ast.Expr`, `Ast.Stmt`, `Ast.Member`: abstract trees
* `Ast.Expr.words`, `Ast.Stmt.words`, `Ast.Member.words`: what is written for them
* `Ast.Expr.Fits`, `Ast.Stmt.Valid`, `Ast.Member.Valid`: the trees that can be written as they stand
* `Ast.write`: words with a space between each two of them
-/

namespace IncrementalSyntax

namespace Ast

/-! ## Words -/

/-- **Word.** The kind and the text of a token. -/
structure Word where
  kind : TokenKind
  text : Text
  deriving DecidableEq, Repr

namespace Word

def ident (text : Text) : Word := ⟨.ident, text⟩

def punct (p : Punct) : Word := ⟨.punct p, p.spelling.toList⟩

def keyword (k : Keyword) : Word := ⟨.keyword k, k.spelling.toList⟩

def builtin (b : Builtin) : Word := ⟨.builtin b, b.spelling.toList⟩

def modifier (m : Modifier) : Word := ⟨.modifier m, m.spelling.toList⟩

/-- Whether the text of the word is one token of its kind, with nothing wrong. -/
def isWhole (w : Word) : Bool :=
  match w.text with
  | c :: t => RawToken.read c t = ⟨w.kind, w.text, [], none⟩
  | [] => false

end Word

/-- Whether a text is an identifier: letters and digits after a letter, or after an `@` that makes an
identifier of any word, but no reserved word. The word `record` is left out, since it can begin a
declaration. -/
def isIdentifier (t : Text) : Bool :=
  t ≠ "record".toList && (TokenKind.ofWord? t).isNone &&
    match t with
    | '@' :: c :: r => RawToken.isPlainWordStart c && r.all isIdentifierPart
    | c :: r => isWordStart c && r.all isIdentifierPart
    | [] => false

/-- Phrases with commas between them. -/
def commas : List (List Word) → List Word
  | [] => []
  | [w] => w
  | w :: v :: ws => w ++ .punct .comma :: commas (v :: ws)

/-- Words in parentheses. -/
def parens (ws : List Word) : List Word := .punct .lParen :: (ws ++ [.punct .rParen])

/-- Words in braces. -/
def braces (ws : List Word) : List Word := .punct .lBrace :: (ws ++ [.punct .rBrace])

/-- The text of words, with a space between each two of them. -/
def write : List Word → Text
  | [] => []
  | [w] => w.text
  | w :: v :: ws => w.text ++ ' ' :: write (v :: ws)

/-! ## Names and types -/

/-- **Name.** Identifiers with points between them. -/
structure Name where
  first : Text
  rest : List Text
  deriving DecidableEq, Repr

/-- **Type.** A predefined type, a name, or an array. -/
inductive Ty where
  | predefined (b : Builtin)
  | named (name : Name)
  | array (element : Ty)
  deriving DecidableEq, Repr

def Name.words (n : Name) : List Word := .ident n.first :: n.rest.flatMap fun t => [.punct .dot, .ident t]

def Ty.words : Ty → List Word
  | predefined b => [.builtin b]
  | named n => n.words
  | array t => t.words ++ [.punct .lBracket, .punct .rBracket]

def Name.Valid (n : Name) : Prop := ∀ t ∈ n.first :: n.rest, isIdentifier t = true

def Ty.Valid : Ty → Prop
  | predefined _ => True
  | named n => n.Valid
  | array t => t.Valid

/-! ## Expressions -/

/-- **Expression.** Operators stand for themselves, and parentheses are explicit. -/
inductive Expr where
  | literal (l : Literal) (text : Text)
  | constant (k : Keyword)
  | name (id : Text)
  | this
  | paren (e : Expr)
  | prefixed (op : Punct) (e : Expr)
  | postfixed (e : Expr) (op : Punct)
  | binary (left : Expr) (op : Punct) (right : Expr)
  | assign (target : Expr) (op : Punct) (value : Expr)
  | call (callee : Expr) (args : List Expr)
  | member (object : Expr) (id : Text)
  | index (object : Expr) (place : Expr)
  | create (type : Ty) (args : List Expr)

namespace Expr

mutual

def words : Expr → List Word
  | literal l text => [⟨.literal l, text⟩]
  | constant k => [.keyword k]
  | name id => [.ident id]
  | this => [.keyword .thisKw]
  | paren e => parens e.words
  | prefixed op e => .punct op :: e.words
  | postfixed e op => e.words ++ [.punct op]
  | binary a op b => a.words ++ .punct op :: b.words
  | assign a op b => a.words ++ .punct op :: b.words
  | call f args => f.words ++ parens (commas (wordsEach args))
  | member e id => e.words ++ [.punct .dot, .ident id]
  | index e i => e.words ++ .punct .lBracket :: (i.words ++ [.punct .rBracket])
  | create t args => .keyword .newKw :: (t.words ++ parens (commas (wordsEach args)))

def wordsEach : List Expr → List (List Word)
  | [] => []
  | e :: es => e.words :: wordsEach es

end

/-- **Fits.** The expression can be written for a phrase, since its operators bind tight enough. -/
inductive Fits : Phrase → Expr → Prop
  | literal {l : Literal} {text : Text} (h : Word.isWhole ⟨.literal l, text⟩ = true) :
      Fits .primary (.literal l text)
  | constant {k : Keyword} (h : k ∈ [.trueKw, .falseKw, .nullKw]) : Fits .primary (.constant k)
  | name {id : Text} (h : isIdentifier id = true) : Fits .primary (.name id)
  | this : Fits .primary .this
  | paren {e : Expr} (h : Fits .expression e) : Fits .primary (.paren e)
  | create {t : Ty} {args : List Expr} (ht : t.Valid) (h : ∀ a ∈ args, Fits .expression a) :
      Fits .primary (.create t args)
  | operand {e : Expr} (h : Fits .primary e) : Fits .postfixed e
  | call {f : Expr} {args : List Expr} (hf : Fits .postfixed f) (h : ∀ a ∈ args, Fits .expression a) :
      Fits .postfixed (.call f args)
  | member {e : Expr} {id : Text} (h : Fits .postfixed e) (hid : isIdentifier id = true) :
      Fits .postfixed (.member e id)
  | index {e i : Expr} (h : Fits .postfixed e) (hi : Fits .expression i) : Fits .postfixed (.index e i)
  | postfixed {e : Expr} {op : Punct} (h : Fits .postfixed e) (hop : op ∈ postfixOperators) :
      Fits .postfixed (.postfixed e op)
  | unary {e : Expr} (h : Fits .postfixed e) : Fits .prefixed e
  | prefixed {e : Expr} {op : Punct} (hop : op ∈ prefixOperators) (h : Fits .prefixed e) :
      Fits .prefixed (.prefixed op e)
  | tightest {e : Expr} (h : Fits .prefixed e) : Fits (.binary operatorLevels.length) e
  | tighter {e : Expr} {level : Nat} (h : Fits (.binary (level + 1)) e) : Fits (.binary level) e
  | binary {a b : Expr} {op : Punct} {level : Nat} (ha : Fits (.binary level) a) (hop : op ∈ operatorsAt level)
      (hb : Fits (.binary (level + 1)) b) : Fits (.binary level) (.binary a op b)
  | value {e : Expr} (h : Fits (.binary 0) e) : Fits .expression e
  | assign {a b : Expr} {op : Punct} (ha : Fits (.binary 0) a) (hop : op ∈ assignmentOperators)
      (hb : Fits .expression b) : Fits .expression (.assign a op b)

end Expr

/-! ## Statements -/

/-- **Declarator.** A variable, perhaps with an initial value. -/
structure Declarator where
  id : Text
  init : Option Expr

/-- **Statement.** A declaration has at least one variable. -/
inductive Stmt where
  | block (body : List Stmt)
  | empty
  | declare (type : Ty) (first : Declarator) (rest : List Declarator)
  | eval (e : Expr)
  | ifThen (condition : Expr) (body : Stmt)
  | ifElse (condition : Expr) (body alternative : Stmt)
  | whileDo (condition : Expr) (body : Stmt)
  | ret (value : Option Expr)
  | breakLoop
  | continueLoop

def Declarator.words (d : Declarator) : List Word :=
  .ident d.id ::
    match d.init with
    | some e => .punct .eq :: e.words
    | none => []

/-- The variables of a declaration and the semicolon. -/
def declaratorWords (first : Declarator) (rest : List Declarator) : List Word :=
  commas ((first :: rest).map Declarator.words) ++ [.punct .semicolon]

def Declarator.Valid (d : Declarator) : Prop :=
  isIdentifier d.id = true ∧ ∀ e ∈ d.init, e.Fits .expression

namespace Stmt

mutual

def words : Stmt → List Word
  | block body => braces (wordsAll body)
  | empty => [.punct .semicolon]
  | declare t d ds => t.words ++ declaratorWords d ds
  | eval e => e.words ++ [.punct .semicolon]
  | ifThen c s => .keyword .ifKw :: (parens c.words ++ s.words)
  | ifElse c s t => .keyword .ifKw :: (parens c.words ++ (s.words ++ .keyword .elseKw :: t.words))
  | whileDo c s => .keyword .whileKw :: (parens c.words ++ s.words)
  | ret none => [.keyword .returnKw, .punct .semicolon]
  | ret (some e) => .keyword .returnKw :: (e.words ++ [.punct .semicolon])
  | breakLoop => [.keyword .breakKw, .punct .semicolon]
  | continueLoop => [.keyword .continueKw, .punct .semicolon]

def wordsAll : List Stmt → List Word
  | [] => []
  | s :: ss => s.words ++ wordsAll ss

end

/-- Whether the statement ends with a conditional without an `else`. -/
def openEnded : Stmt → Bool
  | ifThen .. => true
  | ifElse _ _ s => s.openEnded
  | whileDo _ s => s.openEnded
  | _ => false

/-- **Valid.** The statement can be written as it stands: no `else` stands behind an open-ended statement. -/
inductive Valid : Stmt → Prop
  | block {body : List Stmt} (h : ∀ s ∈ body, Valid s) : Valid (.block body)
  | empty : Valid .empty
  | declare {t : Ty} {d : Declarator} {ds : List Declarator} (ht : t.Valid) (h : ∀ e ∈ d :: ds, e.Valid) :
      Valid (.declare t d ds)
  | eval {e : Expr} (h : e.Fits .expression) : Valid (.eval e)
  | ifThen {c : Expr} {s : Stmt} (hc : c.Fits .expression) (h : Valid s) : Valid (.ifThen c s)
  | ifElse {c : Expr} {s t : Stmt} (hc : c.Fits .expression) (h : Valid s) (hs : s.openEnded = false)
      (ht : Valid t) : Valid (.ifElse c s t)
  | whileDo {c : Expr} {s : Stmt} (hc : c.Fits .expression) (h : Valid s) : Valid (.whileDo c s)
  | ret {value : Option Expr} (h : ∀ e ∈ value, e.Fits .expression) : Valid (.ret value)
  | breakLoop : Valid .breakLoop
  | continueLoop : Valid .continueLoop

end Stmt

/-! ## Members -/

/-- **Parameter.** A type and an identifier. -/
structure Param where
  type : Ty
  id : Text

/-- **Member.** A type declaration without types behind a colon has none; a method without a body ends with
a semicolon. -/
inductive Member where
  | usingDirective (name : Name)
  | namespaceDecl (name : Name) (members : List Member)
  | typeDecl (kind : DeclarationKind) (modifiers : List Modifier) (id : Text) (bases : List Ty)
    (members : List Member)
  | method (modifiers : List Modifier) (type : Ty) (id : Text) (params : List Param)
    (body : Option (List Stmt))
  | field (modifiers : List Modifier) (type : Ty) (first : Declarator) (rest : List Declarator)

def Param.words (p : Param) : List Word := p.type.words ++ [.ident p.id]

def Param.Valid (p : Param) : Prop := p.type.Valid ∧ isIdentifier p.id = true

/-- The word that declares a type. The word `record` is an identifier elsewhere. -/
def declarationWord : DeclarationKind → Word
  | .class' => .keyword .classKw
  | .struct => .keyword .structKw
  | .interface => .keyword .interfaceKw
  | .record => .ident "record".toList

namespace Member

mutual

def words : Member → List Word
  | usingDirective n => .keyword .usingKw :: (n.words ++ [.punct .semicolon])
  | namespaceDecl n ms => .keyword .namespaceKw :: (n.words ++ braces (wordsAll ms))
  | typeDecl k mods id bases ms =>
    mods.map .modifier ++ declarationWord k :: .ident id ::
      ((if bases = [] then [] else .punct .colon :: commas (bases.map Ty.words)) ++ braces (wordsAll ms))
  | method mods t id params body =>
    mods.map .modifier ++ (t.words ++ .ident id :: (parens (commas (params.map Param.words)) ++
      match body with
      | some ss => braces (Stmt.wordsAll ss)
      | none => [.punct .semicolon]))
  | field mods t d ds => mods.map .modifier ++ (t.words ++ declaratorWords d ds)

def wordsAll : List Member → List Word
  | [] => []
  | m :: ms => m.words ++ wordsAll ms

end

/-- **Valid.** The member can be written as it stands in a version of the language. -/
inductive Valid (version : LanguageVersion) : Member → Prop
  | usingDirective {n : Name} (h : n.Valid) : Valid version (.usingDirective n)
  | namespaceDecl {n : Name} {ms : List Member} (hn : n.Valid) (h : ∀ m ∈ ms, Valid version m) :
      Valid version (.namespaceDecl n ms)
  | typeDecl {k : DeclarationKind} {mods : List Modifier} {id : Text} {bases : List Ty} {ms : List Member}
      (hk : k = .record → version.supportsRecords = true) (hid : isIdentifier id = true)
      (hbases : ∀ t ∈ bases, t.Valid) (h : ∀ m ∈ ms, Valid version m) :
      Valid version (.typeDecl k mods id bases ms)
  | method {mods : List Modifier} {t : Ty} {id : Text} {params : List Param} {body : Option (List Stmt)}
      (ht : t.Valid) (hid : isIdentifier id = true) (hparams : ∀ p ∈ params, p.Valid)
      (hbody : ∀ ss ∈ body, ∀ s ∈ ss, s.Valid) : Valid version (.method mods t id params body)
  | field {mods : List Modifier} {t : Ty} {d : Declarator} {ds : List Declarator} (ht : t.Valid)
      (h : ∀ e ∈ d :: ds, e.Valid) : Valid version (.field mods t d ds)

end Member

end Ast

end IncrementalSyntax

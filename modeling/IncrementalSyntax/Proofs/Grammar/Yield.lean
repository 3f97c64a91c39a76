import IncrementalSyntax.Proofs.Grammar.Expressions
import IncrementalSyntax.Proofs.Grammar.Phrases
import IncrementalSyntax.Proofs.Grammar.Reading

/-!
# Trees of phrases

Which trees stand for which tokens. A tree follows the rules of the grammar, with one restriction that
takes its ambiguity away: a statement in front of an `else` does not end with a conditional that could take
the `else` for itself.

## Main definitions

* `Form`: what a row of trees can be
* `Yields`: the trees of a form over given leaves

## Main results

* `Yields.leavesAll_eq`: the leaves of the trees are the given ones
* `Yields.starts`: the first token
* `Yields.isChain_apart`: no identifier follows another one, or a bracket, in an expression
-/

namespace IncrementalSyntax

/-! ## Leaves of shapes -/

namespace Shape

mutual

/-- The leaves of a shape from left to right. -/
def leaves : Shape → List Leaf
  | leaf l => [l]
  | node _ _ cs => leavesAll cs

/-- The leaves of shapes in a row. -/
def leavesAll : List Shape → List Leaf
  | [] => []
  | c :: cs => c.leaves ++ leavesAll cs

end

@[simp] theorem leavesAll_nil : leavesAll [] = [] := by
  unfold leavesAll
  rfl

@[simp] theorem leavesAll_cons (s : Shape) (ss : List Shape) :
    leavesAll (s :: ss) = s.leaves ++ leavesAll ss := by
  rw [leavesAll]

@[simp] theorem leavesAll_append (ss ts : List Shape) :
    leavesAll (ss ++ ts) = leavesAll ss ++ leavesAll ts := by
  induction ss with
  | nil => simp
  | cons s ss ih => simp [ih]

@[simp] theorem leaves_leaf (l : Leaf) : (leaf l).leaves = [l] := by
  rw [leaves]

@[simp] theorem leaves_branch (kind : NodeKind) (cs : List Shape) : (branch kind cs).leaves = leavesAll cs := by
  rw [branch, leaves]

end Shape

namespace Green

theorem leaves_shape (g : Green) : g.shape.leaves = g.leaves := by
  induction g using Green.induction with
  | token t => simp [shape]
  | node h cs ih =>
    rw [shape, Shape.leaves, shapes_eq_map, leaves_node]
    induction cs with
    | nil => simp
    | cons c cs ih' =>
      rw [List.map_cons, Shape.leavesAll_cons, ih c List.mem_cons_self, leavesAll_cons,
        ih' fun d hd => ih d (List.mem_cons_of_mem _ hd)]

end Green

/-! ## Trees -/

/-- **Form.** What a row of trees can be. A name is the inside of its node; a statement can be open-ended,
which means that it ends with a conditional without an `else`. -/
inductive Form where
  | name | type | arguments | argumentList | primary | postfixed | prefixed | binary (level : Nat)
  | expression | declarator | declarators | statement (openEnded : Bool) | statements
  deriving DecidableEq, Repr

open Shape (leaf branch)

/-- **Yields.** The trees of a form over given leaves. -/
inductive Yields : Form → List Leaf → List Shape → Prop
  -- names and types
  | ident {l : Leaf} (hl : l.tokenKind = .ident) : Yields .name [l] [leaf l]
  | dotted {d l : Leaf} {w : List Leaf} {ss : List Shape} (h : Yields .name w ss)
      (hd : d.tokenKind = .punct .dot) (hl : l.tokenKind = .ident) :
      Yields .name (w ++ [d, l]) (ss ++ [leaf d, leaf l])
  | builtin {l : Leaf} {b : Builtin} (hl : l.tokenKind = .builtin b) :
      Yields .type [l] [branch .predefinedType [leaf l]]
  | named {w : List Leaf} {ss : List Shape} (h : Yields .name w ss) : Yields .type w [branch .name ss]
  | array {l r : Leaf} {w : List Leaf} {ss : List Shape} (h : Yields .type w ss)
      (hl : l.tokenKind = .punct .lBracket) (hr : r.tokenKind = .punct .rBracket) :
      Yields .type (w ++ [l, r]) [branch .arrayType (ss ++ [leaf l, leaf r])]
  -- arguments
  | argument {w : List Leaf} {ss : List Shape} (h : Yields .expression w ss) : Yields .arguments w ss
  | nextArgument {d : Leaf} {v w : List Leaf} {ss ts : List Shape} (h : Yields .expression v ss)
      (hd : d.tokenKind = .punct .comma) (h' : Yields .arguments w ts) :
      Yields .arguments (v ++ d :: w) (ss ++ leaf d :: ts)
  | noArguments {l r : Leaf} (hl : l.tokenKind = .punct .lParen) (hr : r.tokenKind = .punct .rParen) :
      Yields .argumentList [l, r] [branch .argList [leaf l, leaf r]]
  | inParens {l r : Leaf} {w : List Leaf} {ss : List Shape} (hl : l.tokenKind = .punct .lParen)
      (h : Yields .arguments w ss) (hr : r.tokenKind = .punct .rParen) :
      Yields .argumentList (l :: (w ++ [r])) [branch .argList (leaf l :: (ss ++ [leaf r]))]
  -- primary expressions
  | constant {l : Leaf} (hl : (l.tokenKind.isLiteral || l.tokenKind.isConstant) = true) :
      Yields .primary [l] [branch .literalExpr [leaf l]]
  | reference {l : Leaf} (hl : l.tokenKind = .ident) : Yields .primary [l] [branch .nameExpr [leaf l]]
  | thisObject {l : Leaf} (hl : l.tokenKind = .keyword .thisKw) :
      Yields .primary [l] [branch .thisExpr [leaf l]]
  | paren {l r : Leaf} {w : List Leaf} {ss : List Shape} (hl : l.tokenKind = .punct .lParen)
      (h : Yields .expression w ss) (hr : r.tokenKind = .punct .rParen) :
      Yields .primary (l :: (w ++ [r])) [branch .parenExpr (leaf l :: (ss ++ [leaf r]))]
  | creation {l : Leaf} {v w : List Leaf} {ss ts : List Shape} (hl : l.tokenKind = .keyword .newKw)
      (h : Yields .type v ss) (h' : Yields .argumentList w ts) :
      Yields .primary (l :: (v ++ w)) [branch .objectCreationExpr (leaf l :: (ss ++ ts))]
  -- postfix and prefix expressions
  | operand {w : List Leaf} {ss : List Shape} (h : Yields .primary w ss) : Yields .postfixed w ss
  | call {v w : List Leaf} {ss ts : List Shape} (h : Yields .postfixed v ss)
      (h' : Yields .argumentList w ts) : Yields .postfixed (v ++ w) [branch .callExpr (ss ++ ts)]
  | memberAccess {d l : Leaf} {w : List Leaf} {ss : List Shape} (h : Yields .postfixed w ss)
      (hd : d.tokenKind = .punct .dot) (hl : l.tokenKind = .ident) :
      Yields .postfixed (w ++ [d, l]) [branch .memberAccessExpr (ss ++ [leaf d, leaf l])]
  | index {l r : Leaf} {v w : List Leaf} {ss ts : List Shape} (h : Yields .postfixed v ss)
      (hl : l.tokenKind = .punct .lBracket) (h' : Yields .expression w ts)
      (hr : r.tokenKind = .punct .rBracket) :
      Yields .postfixed (v ++ l :: (w ++ [r])) [branch .indexExpr (ss ++ leaf l :: (ts ++ [leaf r]))]
  | postfixOperator {l : Leaf} {w : List Leaf} {ss : List Shape} {p : Punct} (h : Yields .postfixed w ss)
      (hp : p ∈ postfixOperators) (hl : l.tokenKind = .punct p) :
      Yields .postfixed (w ++ [l]) [branch .postfixExpr (ss ++ [leaf l])]
  | unary {w : List Leaf} {ss : List Shape} (h : Yields .postfixed w ss) : Yields .prefixed w ss
  | prefixOperator {l : Leaf} {w : List Leaf} {ss : List Shape} {p : Punct} (hp : p ∈ prefixOperators)
      (hl : l.tokenKind = .punct p) (h : Yields .prefixed w ss) :
      Yields .prefixed (l :: w) [branch .prefixExpr (leaf l :: ss)]
  -- binary expressions and assignments
  | tightest {w : List Leaf} {ss : List Shape} (h : Yields .prefixed w ss) :
      Yields (.binary operatorLevels.length) w ss
  | tighter {w : List Leaf} {ss : List Shape} {level : Nat} (h : Yields (.binary (level + 1)) w ss) :
      Yields (.binary level) w ss
  | operation {l : Leaf} {v w : List Leaf} {ss ts : List Shape} {level : Nat} {p : Punct}
      (h : Yields (.binary level) v ss) (hp : p ∈ operatorsAt level) (hl : l.tokenKind = .punct p)
      (h' : Yields (.binary (level + 1)) w ts) :
      Yields (.binary level) (v ++ l :: w) [branch .binaryExpr (ss ++ leaf l :: ts)]
  | value {w : List Leaf} {ss : List Shape} (h : Yields (.binary 0) w ss) : Yields .expression w ss
  | assignment {l : Leaf} {v w : List Leaf} {ss ts : List Shape} {p : Punct} (h : Yields (.binary 0) v ss)
      (hp : p ∈ assignmentOperators) (hl : l.tokenKind = .punct p) (h' : Yields .expression w ts) :
      Yields .expression (v ++ l :: w) [branch .assignExpr (ss ++ leaf l :: ts)]
  -- variables
  | uninitialized {l : Leaf} (hl : l.tokenKind = .ident) :
      Yields .declarator [l] [branch .variableDeclarator [leaf l]]
  | initialized {d l : Leaf} {w : List Leaf} {ss : List Shape} (hl : l.tokenKind = .ident)
      (hd : d.tokenKind = .punct .eq) (h : Yields .expression w ss) :
      Yields .declarator (l :: d :: w) [branch .variableDeclarator (leaf l :: leaf d :: ss)]
  | declared {w : List Leaf} {ss : List Shape} (h : Yields .declarator w ss) : Yields .declarators w ss
  | nextDeclared {d : Leaf} {v w : List Leaf} {ss ts : List Shape} (h : Yields .declarator v ss)
      (hd : d.tokenKind = .punct .comma) (h' : Yields .declarators w ts) :
      Yields .declarators (v ++ d :: w) (ss ++ leaf d :: ts)
  -- statements
  | noStatements : Yields .statements [] []
  | nextStatement {v w : List Leaf} {ss ts : List Shape} {openEnded : Bool}
      (h : Yields (.statement openEnded) v ss) (h' : Yields .statements w ts) :
      Yields .statements (v ++ w) (ss ++ ts)
  | block {l r : Leaf} {w : List Leaf} {ss : List Shape} (hl : l.tokenKind = .punct .lBrace)
      (h : Yields .statements w ss) (hr : r.tokenKind = .punct .rBrace) :
      Yields (.statement false) (l :: (w ++ [r])) [branch .block (leaf l :: (ss ++ [leaf r]))]
  | emptyStatement {l : Leaf} (hl : l.tokenKind = .punct .semicolon) :
      Yields (.statement false) [l] [branch .emptyStmt [leaf l]]
  | ifThen {i l r : Leaf} {v w : List Leaf} {ss ts : List Shape} {openEnded : Bool}
      (hi : i.tokenKind = .keyword .ifKw) (hl : l.tokenKind = .punct .lParen) (h : Yields .expression v ss)
      (hr : r.tokenKind = .punct .rParen) (h' : Yields (.statement openEnded) w ts) :
      Yields (.statement true) (i :: l :: (v ++ r :: w))
        [branch .ifStmt (leaf i :: leaf l :: (ss ++ leaf r :: ts))]
  | ifElse {e i l r : Leaf} {u v w : List Leaf} {ss ts us : List Shape} {openEnded : Bool}
      (hi : i.tokenKind = .keyword .ifKw) (hl : l.tokenKind = .punct .lParen) (h : Yields .expression u ss)
      (hr : r.tokenKind = .punct .rParen) (h' : Yields (.statement false) v ts)
      (he : e.tokenKind = .keyword .elseKw) (h'' : Yields (.statement openEnded) w us) :
      Yields (.statement openEnded) (i :: l :: (u ++ r :: (v ++ e :: w)))
        [branch .ifStmt (leaf i :: leaf l :: (ss ++ leaf r :: (ts ++ [branch .elseClause (leaf e :: us)])))]
  | whileDo {i l r : Leaf} {v w : List Leaf} {ss ts : List Shape} {openEnded : Bool}
      (hi : i.tokenKind = .keyword .whileKw) (hl : l.tokenKind = .punct .lParen)
      (h : Yields .expression v ss) (hr : r.tokenKind = .punct .rParen)
      (h' : Yields (.statement openEnded) w ts) :
      Yields (.statement openEnded) (i :: l :: (v ++ r :: w))
        [branch .whileStmt (leaf i :: leaf l :: (ss ++ leaf r :: ts))]
  | returnNone {i r : Leaf} (hi : i.tokenKind = .keyword .returnKw) (hr : r.tokenKind = .punct .semicolon) :
      Yields (.statement false) [i, r] [branch .returnStmt [leaf i, leaf r]]
  | returnValue {i r : Leaf} {w : List Leaf} {ss : List Shape} (hi : i.tokenKind = .keyword .returnKw)
      (h : Yields .expression w ss) (hr : r.tokenKind = .punct .semicolon) :
      Yields (.statement false) (i :: (w ++ [r])) [branch .returnStmt (leaf i :: (ss ++ [leaf r]))]
  | breakLoop {i r : Leaf} (hi : i.tokenKind = .keyword .breakKw) (hr : r.tokenKind = .punct .semicolon) :
      Yields (.statement false) [i, r] [branch .breakStmt [leaf i, leaf r]]
  | continueLoop {i r : Leaf} (hi : i.tokenKind = .keyword .continueKw)
      (hr : r.tokenKind = .punct .semicolon) :
      Yields (.statement false) [i, r] [branch .continueStmt [leaf i, leaf r]]
  | declaration {r : Leaf} {v w : List Leaf} {ss ts : List Shape} (h : Yields .type v ss)
      (h' : Yields .declarators w ts) (hr : r.tokenKind = .punct .semicolon) :
      Yields (.statement false) (v ++ (w ++ [r])) [branch .localDeclStmt (ss ++ (ts ++ [leaf r]))]
  | expressionStatement {r : Leaf} {w : List Leaf} {ss : List Shape} (h : Yields .expression w ss)
      (hr : r.tokenKind = .punct .semicolon) :
      Yields (.statement false) (w ++ [r]) [branch .exprStmt (ss ++ [leaf r])]

/-- The tokens that can begin a form. -/
def Form.starts : Form → TokenKind → Bool
  | .name, k | .declarator, k | .declarators, k => k = .ident
  | .type, k => k.startsType
  | .argumentList, k => k = .punct .lParen
  | .primary, k | .postfixed, k => Parse.startsOperand k
  | .arguments, k | .prefixed, k | .binary _, k | .expression, k => k.startsExpression
  | .statement _, k | .statements, k => k.startsStatement

namespace Yields

variable {form : Form} {w : List Leaf} {ss : List Shape}

/-- The leaves of the trees are the given ones. -/
theorem leavesAll_eq (h : Yields form w ss) : Shape.leavesAll ss = w := by
  induction h <;> simp_all

theorem startsStatement_of_startsExpression {k : TokenKind} (h : k.startsExpression = true) :
    k.startsStatement = true := by
  unfold TokenKind.startsStatement
  split <;> first | rfl | exact h

theorem startsStatement_of_startsType {k : TokenKind} (h : k.startsType = true) : k.startsStatement = true := by
  cases k <;> first | rfl | cases h

theorem startsExpression_of_startsOperand {k : TokenKind} (h : Parse.startsOperand k = true) :
    k.startsExpression = true :=
  (Bool.and_eq_true _ _ ▸ h :).1

theorem startsOperand_of_constant {k : TokenKind} (h : (k.isLiteral || k.isConstant) = true) :
    Parse.startsOperand k = true := by
  cases k with
  | keyword kw => cases kw <;> first | rfl | cases h
  | _ => first | rfl | cases h

theorem startsExpression_of_mem {p : Punct} (h : p ∈ prefixOperators) :
    (TokenKind.punct p).startsExpression = true := by
  simp only [prefixOperators, List.mem_cons, List.not_mem_nil, or_false] at h
  rcases h with rfl | rfl | rfl | rfl | rfl <;> rfl

/-- Only a list of statements can be empty, and the first token can begin the form. -/
theorem ne_nil_and_starts (h : Yields form w ss) :
    (form ≠ .statements → w ≠ []) ∧ (w ≠ [] → form.starts (frontKind w) = true) := by
  induction h with
  | constant hl => exact ⟨by simp, fun _ => startsOperand_of_constant hl⟩
  | prefixOperator hp hl => exact ⟨by simp, fun _ => by simpa [Form.starts, hl] using startsExpression_of_mem hp⟩
  | unary h ih => exact ⟨fun _ => ih.1 (by simp), fun hw => startsExpression_of_startsOperand (ih.2 hw)⟩
  | nextStatement h h' ih ih' =>
    have hne := ih.1 (by simp)
    exact ⟨nofun, fun _ => by rw [frontKind_append hne]; exact ih.2 hne⟩
  | declaration h h' hr ih ih' =>
    have hne := ih.1 (by simp)
    refine ⟨by simp, fun _ => ?_⟩
    rw [frontKind_append hne]
    exact startsStatement_of_startsType (ih.2 hne)
  | expressionStatement h hr ih =>
    have hne := ih.1 (by simp)
    refine ⟨by simp, fun _ => ?_⟩
    rw [frontKind_append hne]
    exact startsStatement_of_startsExpression (ih.2 hne)
  | _ => simp_all [Form.starts, frontKind_append] <;> rfl

theorem ne_nil (h : Yields form w ss) (hform : form ≠ .statements) : w ≠ [] := h.ne_nil_and_starts.1 hform

theorem starts (h : Yields form w ss) (hform : form ≠ .statements) : form.starts (frontKind w) = true :=
  h.ne_nil_and_starts.2 (h.ne_nil hform)

/-! ## Identifiers in expressions -/

/-- Two kinds that can stand side by side in an expression: an identifier follows neither an identifier nor
a bracket. -/
def Apart (a b : TokenKind) : Prop := b = .ident → a ≠ .ident ∧ a ≠ .punct .rBracket

theorem head?_argumentList (h : Yields .argumentList w ss) {l : Leaf} (hl : w.head? = some l) :
    l.tokenKind ≠ .ident := by
  have hfront : frontKind w = .punct .lParen := of_decide_eq_true (h.starts (by simp))
  rw [frontKind, hl] at hfront
  rintro hident
  simp [hident] at hfront

/-- In an expression an identifier follows neither an identifier nor a bracket. -/
theorem isChain_apart (h : Yields form w ss) (hform : ∀ b, form ≠ .statement b) (hlist : form ≠ .statements) :
    (w.map Leaf.tokenKind).IsChain Apart := by
  induction h with
  | creation _ _ h' | call _ h' =>
    have hfront := fun a => h'.head?_argumentList (l := a)
    simp_all [List.isChain_append, List.isChain_cons, Apart]
  | prefixOperator hp | assignment _ hp =>
    have hp : ∀ p, p ∈ prefixOperators ++ assignmentOperators → p ≠ .rBracket := by decide
    simp_all [List.isChain_append, List.isChain_cons, Apart]
  | operation _ hp =>
    have hp := ne_rBracket_of_mem hp
    simp_all [List.isChain_append, List.isChain_cons, Apart]
  | _ => simp_all [List.isChain_append, List.isChain_cons, Apart]

end Yields

end IncrementalSyntax

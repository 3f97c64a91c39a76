import IncrementalSyntax.Grammar.Parser

/-!
# Phrases

The grammar of statements and expressions as rules over kinds of tokens, independent of how the parser
goes about it. Assignments group to the right and binary operators by their level; an `else` may belong to
any conditional in front of it.

## Main definitions

* `Phrase`: the constructs of the grammar
* `operatorLevels`, `assignmentOperators`, `prefixOperators`: the operators
* `Derives`: what can be written for a phrase
* `IsBlock`: a block

## Main results

* `Derives.binary_append`: a further operator behind a chain of operators
* `Derives.ne_nil`: only a list of statements can be empty
-/

namespace IncrementalSyntax

/-- **Phrase.** A construct of the grammar. Level 0 of the binary operators is the loosest. -/
inductive Phrase where
  | name | type | arguments | argumentList | primary | postfixed | prefixed | binary (level : Nat)
  | expression | declarator | declarators | statement | statements
  deriving DecidableEq, Repr

/-- The binary operators, the loosest level first. -/
def operatorLevels : List (List Punct) :=
  [[.pipePipe], [.ampAmp], [.eqEq, .bangEq], [.lt, .gt, .ltEq, .gtEq], [.plus, .minus],
    [.star, .slash, .percent]]

/-- The operators of an assignment. -/
def assignmentOperators : List Punct := [.eq, .plusEq, .minusEq, .starEq, .slashEq]

/-- The operators in front of their operand. -/
def prefixOperators : List Punct := [.bang, .minus, .plus, .plusPlus, .minusMinus]

/-- The operators behind their operand. -/
def postfixOperators : List Punct := [.plusPlus, .minusMinus]

/-- The operators of a level; none where there is no such level. -/
def operatorsAt (level : Nat) : List Punct := operatorLevels.getD level []

/-- **Derives.** The kinds of tokens that can be written for a phrase. -/
inductive Derives : Phrase → List TokenKind → Prop
  -- names and types
  | ident : Derives .name [.ident]
  | dotted {w : List TokenKind} (h : Derives .name w) : Derives .name (w ++ [.punct .dot, .ident])
  | builtin (b : Builtin) : Derives .type [.builtin b]
  | named {w : List TokenKind} (h : Derives .name w) : Derives .type w
  | array {w : List TokenKind} (h : Derives .type w) :
      Derives .type (w ++ [.punct .lBracket, .punct .rBracket])
  -- arguments
  | argument {w : List TokenKind} (h : Derives .expression w) : Derives .arguments w
  | nextArgument {v w : List TokenKind} (h : Derives .expression v) (h' : Derives .arguments w) :
      Derives .arguments (v ++ .punct .comma :: w)
  | noArguments : Derives .argumentList [.punct .lParen, .punct .rParen]
  | inParens {w : List TokenKind} (h : Derives .arguments w) :
      Derives .argumentList (.punct .lParen :: (w ++ [.punct .rParen]))
  -- primary expressions
  | literal (l : Literal) : Derives .primary [.literal l]
  | constant {k : Keyword} (h : k ∈ [.trueKw, .falseKw, .nullKw]) : Derives .primary [.keyword k]
  | reference {w : List TokenKind} (h : Derives .name w) : Derives .primary w
  | thisObject : Derives .primary [.keyword .thisKw]
  | paren {w : List TokenKind} (h : Derives .expression w) :
      Derives .primary (.punct .lParen :: (w ++ [.punct .rParen]))
  | creation {v w : List TokenKind} (h : Derives .type v) (h' : Derives .argumentList w) :
      Derives .primary (.keyword .newKw :: (v ++ w))
  -- postfix and prefix expressions
  | operand {w : List TokenKind} (h : Derives .primary w) : Derives .postfixed w
  | call {v w : List TokenKind} (h : Derives .postfixed v) (h' : Derives .argumentList w) :
      Derives .postfixed (v ++ w)
  | memberAccess {w : List TokenKind} (h : Derives .postfixed w) :
      Derives .postfixed (w ++ [.punct .dot, .ident])
  | index {v w : List TokenKind} (h : Derives .postfixed v) (h' : Derives .expression w) :
      Derives .postfixed (v ++ .punct .lBracket :: (w ++ [.punct .rBracket]))
  | postfixOperator {w : List TokenKind} {p : Punct} (h : Derives .postfixed w)
      (hp : p ∈ postfixOperators) : Derives .postfixed (w ++ [.punct p])
  | unary {w : List TokenKind} (h : Derives .postfixed w) : Derives .prefixed w
  | prefixOperator {w : List TokenKind} {p : Punct} (h : Derives .prefixed w)
      (hp : p ∈ prefixOperators) : Derives .prefixed (.punct p :: w)
  -- binary expressions and assignments
  | tightest {w : List TokenKind} (h : Derives .prefixed w) : Derives (.binary operatorLevels.length) w
  | tighter {level : Nat} {w : List TokenKind} (h : Derives (.binary (level + 1)) w) :
      Derives (.binary level) w
  | operation {level : Nat} {v w : List TokenKind} {p : Punct} (h : Derives (.binary level) v)
      (hp : p ∈ operatorsAt level) (h' : Derives (.binary (level + 1)) w) :
      Derives (.binary level) (v ++ .punct p :: w)
  | value {w : List TokenKind} (h : Derives (.binary 0) w) : Derives .expression w
  | assignment {v w : List TokenKind} {p : Punct} (h : Derives (.binary 0) v)
      (hp : p ∈ assignmentOperators) (h' : Derives .expression w) :
      Derives .expression (v ++ .punct p :: w)
  -- variables
  | uninitialized : Derives .declarator [.ident]
  | initialized {w : List TokenKind} (h : Derives .expression w) :
      Derives .declarator (.ident :: .punct .eq :: w)
  | declared {w : List TokenKind} (h : Derives .declarator w) : Derives .declarators w
  | nextDeclared {v w : List TokenKind} (h : Derives .declarator v) (h' : Derives .declarators w) :
      Derives .declarators (v ++ .punct .comma :: w)
  -- statements
  | noStatements : Derives .statements []
  | nextStatement {v w : List TokenKind} (h : Derives .statement v) (h' : Derives .statements w) :
      Derives .statements (v ++ w)
  | block {w : List TokenKind} (h : Derives .statements w) :
      Derives .statement (.punct .lBrace :: (w ++ [.punct .rBrace]))
  | emptyStatement : Derives .statement [.punct .semicolon]
  | ifThen {v w : List TokenKind} (h : Derives .expression v) (h' : Derives .statement w) :
      Derives .statement (.keyword .ifKw :: .punct .lParen :: (v ++ .punct .rParen :: w))
  | ifElse {u v w : List TokenKind} (h : Derives .expression u) (h' : Derives .statement v)
      (h'' : Derives .statement w) :
      Derives .statement
        (.keyword .ifKw :: .punct .lParen :: (u ++ .punct .rParen :: (v ++ .keyword .elseKw :: w)))
  | whileDo {v w : List TokenKind} (h : Derives .expression v) (h' : Derives .statement w) :
      Derives .statement (.keyword .whileKw :: .punct .lParen :: (v ++ .punct .rParen :: w))
  | returnNone : Derives .statement [.keyword .returnKw, .punct .semicolon]
  | returnValue {w : List TokenKind} (h : Derives .expression w) :
      Derives .statement (.keyword .returnKw :: (w ++ [.punct .semicolon]))
  | breakLoop : Derives .statement [.keyword .breakKw, .punct .semicolon]
  | continueLoop : Derives .statement [.keyword .continueKw, .punct .semicolon]
  | declaration {v w : List TokenKind} (h : Derives .type v) (h' : Derives .declarators w) :
      Derives .statement (v ++ (w ++ [.punct .semicolon]))
  | expressionStatement {w : List TokenKind} (h : Derives .expression w) :
      Derives .statement (w ++ [.punct .semicolon])

/-- Statements between braces. -/
def IsBlock (w : List TokenKind) : Prop :=
  ∃ v, Derives .statements v ∧ w = .punct .lBrace :: (v ++ [.punct .rBrace])

/-! ## Operators -/

/-- The operators of a level are those whose precedence the parser takes to be one more. -/
theorem mem_operatorsAt {p : Punct} {level : Nat} :
    p ∈ operatorsAt level ↔ (TokenKind.punct p).precedence? = some (level + 1) := by
  match level with
  | 0 | 1 | 2 | 3 | 4 | 5 => cases p <;> decide
  | level + 6 => cases p <;> simp [operatorsAt, operatorLevels, TokenKind.precedence?]

theorem precedence?_eq_some {k : TokenKind} {precedence : Nat} (h : k.precedence? = some precedence) :
    ∃ p level, k = .punct p ∧ precedence = level + 1 ∧ p ∈ operatorsAt level := by
  cases k with
  | punct p =>
    obtain ⟨level, rfl⟩ : ∃ level, precedence = level + 1 := by
      refine Nat.exists_eq_add_of_le' ?_
      cases p <;> simp_all [TokenKind.precedence?] <;> omega
    exact ⟨p, level, rfl, rfl, mem_operatorsAt.2 h⟩
  | _ => cases h

theorem operatorsAt_eq_nil {level : Nat} (h : operatorLevels.length ≤ level) : operatorsAt level = [] := by
  simp [operatorsAt, List.getElem?_eq_none h]

theorem level_lt_of_mem {p : Punct} {level : Nat} (h : p ∈ operatorsAt level) :
    level < operatorLevels.length := by
  refine Nat.lt_of_not_le fun hle => ?_
  rw [operatorsAt_eq_nil hle] at h
  cases h

theorem ne_rBracket_of_mem {p : Punct} {level : Nat} (h : p ∈ operatorsAt level) : p ≠ .rBracket := by
  rintro rfl
  cases mem_operatorsAt.1 h

theorem isAssignment_iff {k : TokenKind} :
    k.isAssignment = true ↔ ∃ p ∈ assignmentOperators, k = .punct p := by
  cases k with
  | punct p => cases p <;> simp [TokenKind.isAssignment, assignmentOperators]
  | _ => simp [TokenKind.isAssignment]

theorem isPrefix_iff {k : TokenKind} : k.isPrefix = true ↔ ∃ p ∈ prefixOperators, k = .punct p := by
  cases k with
  | punct p => cases p <;> simp [TokenKind.isPrefix, prefixOperators]
  | _ => simp [TokenKind.isPrefix]

namespace Derives

/-- An operand is a chain of any level. -/
theorem binary_of_prefixed {level : Nat} {w : List TokenKind} (hle : level ≤ operatorLevels.length)
    (h : Derives .prefixed w) : Derives (.binary level) w := by
  obtain ⟨gap, hgap⟩ := Nat.exists_eq_add_of_le hle
  induction gap generalizing level with
  | zero =>
    obtain rfl : level = operatorLevels.length := hgap.symm
    exact .tightest h
  | succ gap ih => exact .tighter (ih (by omega) (by omega))

/-- A chain of operators goes on with an operator of its level or of a tighter one: a tighter operator
belongs to the last operand of the chain. -/
theorem binary_append {least level : Nat} {v w : List TokenKind} {p : Punct}
    (h : Derives (.binary least) v) (hle : least ≤ level) (hp : p ∈ operatorsAt level)
    (hw : Derives (.binary (level + 1)) w) : Derives (.binary least) (v ++ .punct p :: w) := by
  generalize hphrase : Phrase.binary least = phrase at h
  induction h generalizing least with
  | tightest h ih =>
    cases hphrase
    exact absurd (level_lt_of_mem hp) (Nat.not_lt_of_le hle)
  | tighter h ih =>
    cases hphrase
    rcases Nat.eq_or_lt_of_le hle with rfl | hlt
    · exact .operation (.tighter h) hp hw
    · exact .tighter (ih hlt rfl)
  | operation h hp' h' ih ih' =>
    cases hphrase
    rcases Nat.eq_or_lt_of_le hle with rfl | hlt
    · exact .operation (.operation h hp' h') hp hw
    · rw [List.append_assoc]
      exact .operation h hp' (ih' hlt rfl)
  | _ => cases hphrase

/-- Only a list of statements can be empty. -/
theorem ne_nil {phrase : Phrase} {w : List TokenKind} (h : Derives phrase w) (hne : phrase ≠ .statements) :
    w ≠ [] := by
  induction h with
  | noStatements => exact absurd rfl hne
  | nextStatement => exact absurd rfl hne
  | _ => simp_all

end Derives

end IncrementalSyntax

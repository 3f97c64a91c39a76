import IncrementalSyntax.Proofs.Grammar.Lookahead

/-!
# Expressions keep to their tokens

Every production of names, types and expressions meets the empty contract: it takes no closing token, and
two runs of it go the same way. The rules for contracts are put together as the productions are.

## Main definitions

* `Parse.binaryRound`: one round of a chain of binary operators

## Main results

* `Parse.Meets.name`, `Parse.Meets.type`: names and types
* `Parse.Meets.argumentListOf`, `Parse.Meets.primary`, `Parse.Meets.binary`: the parts of expressions
* `Parse.Meets.expression`: expressions
-/

namespace IncrementalSyntax

namespace Parse

variable {version : LanguageVersion} {σ : Type} [TokenSource σ] {S : Supply version σ} {M : Mode}
variable {n : Nat} {P : List Leaf → Prop}

/-! ## Names and types -/

/-- A token of a known kind is emitted. -/
theorem Meets.bump_kind {k : TokenKind} (hk : k.closes = false) :
    Meets S M { pre := fun L => frontKind L = k ∧ P L, taken := fun _ => 1 } n bump bump :=
  bump_of (fun L hL => ⟨hL.1 ▸ ne_eof_of_closes hk, by simp [hL.1, hk], trivial⟩) rfl

/-- A node over one token of a known kind. -/
theorem Meets.node_bump {kind : NodeKind} {k : TokenKind} (hk : k.closes = false) (hif : kind ≠ .ifStmt)
    (hunit : (kind.isStatement || kind.isMember) = false) :
    Meets S M { pre := fun L => frontKind L = k ∧ P L, taken := fun _ => 1 } n (Parse.node kind bump)
      (Parse.node kind bump) :=
  node (bump_kind hk) trivial hif hunit

theorem Meets.segments : Meets S M {} n
    (Parse.loop (do if ← Parse.atPair (.punct .dot) .ident then bump; bump; return true else return false) :
      Parse σ Unit)
    (Parse.loop (do if ← Parse.atPair (.punct .dot) .ident then bump; bump; return true else return false)) :=
  loop (pair_round (r := Pure.pure ()) (s := Pure.pure ()) rfl rfl nothing)

theorem Meets.name : Meets S M {} n name name :=
  node (bind (expect rfl) (fun _ => segments) (fun _ => id) id trivial) trivial (by decide) rfl

theorem Meets.name_front :
    Meets S M { pre := fun L => frontKind L = .ident, taken := fun _ => 1 } n Parse.name Parse.name :=
  node (followed (expect_front rfl) segments (fun _ => trivial) id trivial) trivial (by decide) rfl

theorem eq_ident_of_startsType {k : TokenKind} (hk : k.startsType = true) (hb : ¬ k.isBuiltin = true) :
    k = .ident := by
  cases k <;> simp_all [TokenKind.startsType, TokenKind.isBuiltin]

theorem Meets.typeOf (b : Bool) : Meets S M (.starting TokenKind.startsType b) n type type := by
  have hloop : Meets S M {} n
      (Parse.loop (do if ← Parse.atPair (.punct .lBracket) (.punct .rBracket) then
        bump; bump; Parse.enclose .arrayType; return true else return false) : Parse σ Unit)
      (Parse.loop (do if ← Parse.atPair (.punct .lBracket) (.punct .rBracket) then
        bump; bump; Parse.enclose .arrayType; return true else return false)) :=
    loop (pair_round rfl rfl (enclose (P := fun _ => True) (by decide) rfl))
  refine scope (peek_bind fun k => ?_)
  by_cases hk : k.startsType = true
  · rw [if_pos hk, if_pos hk]
    refine of_taken ?_ b
    by_cases hbuiltin : k.isBuiltin = true
    · rw [if_pos hbuiltin, if_pos hbuiltin]
      exact followed (node_bump (closes_of_startsType hk) (by decide) rfl) hloop (fun _ => trivial) id
        trivial
    · rw [if_neg hbuiltin, if_neg hbuiltin]
      obtain rfl := eq_ident_of_startsType hk hbuiltin
      refine followed (name_front.mono (fun _ => And.left) (fun _ _ => id) (fun _ => le_rfl) .rfl id le_rfl)
        hloop (fun _ => trivial) id trivial
  · rw [if_neg hk, if_neg hk]
    cases b with
    | false => exact node (missing _ _ (fun _ _ => trivial) rfl) trivial (by decide) rfl
    | true => exact of_not_pre fun L hL => hk (hL.1 ▸ hL.2 rfl)

theorem Meets.type : Meets S M {} n type type := (typeOf false).of_starting

/-! ## Expressions -/

section Expressions

variable {i₁ : Parse σ Unit} {i₂ : Parse TokenList Unit}

/-- Elements with commas between them. -/
theorem Meets.commas (h : Meets S M {} n i₁ i₂) :
    Meets S M {} n (Parse.loop (do i₁; Parse.eat (.punct .comma)))
      (Parse.loop (do i₂; Parse.eat (.punct .comma))) :=
  loop (bind h (fun _ => (eat (P := fun _ => True) rfl).mono (fun _ => id) (fun _ _ _ => trivial)
    (fun _ => le_rfl) .rfl id le_rfl) (fun _ => id) id trivial)

/-- What stands behind the opening parenthesis of an argument list. -/
theorem Meets.arguments (h : Meets S M {} n i₁ i₂) :
    Meets S M {} n
      (do
        let kind ← Parse.peek
        unless kind = .punct .rParen || kind = .eof do
          Parse.loop do
            i₁
            Parse.eat (.punct .comma)
        Parse.expect (.punct .rParen) : Parse σ Unit)
      (do
        let kind ← Parse.peek
        unless kind = .punct .rParen || kind = .eof do
          Parse.loop do
            i₂
            Parse.eat (.punct .comma)
        Parse.expect (.punct .rParen)) := by
  refine peek_bind fun k => ?_
  by_cases hk : (decide (k = .punct .rParen) || decide (k = .eof)) = true
  · simp only [hk, if_true]
    exact mono (expect rfl) (fun _ _ => trivial) (fun _ _ => id) (fun _ => le_rfl) .rfl id le_rfl
  · rw [if_neg hk, if_neg hk]
    exact bind (commas h) (fun _ => expect rfl) (fun _ _ => trivial) id trivial

theorem Meets.argumentListOf (h : Meets S M {} n i₁ i₂) :
    Meets S M {} n (argumentListOf i₁) (argumentListOf i₂) :=
  node (bind (expect rfl) (fun _ => arguments h) (fun _ => id) id trivial) trivial (by decide) rfl

/-- Arguments whose opening parenthesis is known to come. -/
theorem Meets.argumentListOf_front (h : Meets S M {} (n - 1) i₁ i₂) :
    Meets S M { pre := fun L => frontKind L = .punct .lParen, taken := fun _ => 1 } n
      (Parse.argumentListOf i₁) (Parse.argumentListOf i₂) :=
  node (bind (expect_front rfl) (fun _ => arguments h) (fun _ => id) id trivial) trivial (by decide) rfl

theorem closes_of_isLiteral_or_isConstant {k : TokenKind} (h : (k.isLiteral || k.isConstant) = true) :
    k.closes = false := by
  cases k <;> simp_all [TokenKind.isLiteral, TokenKind.isConstant, TokenKind.closes]

/-- The tokens that can begin an operand. -/
def startsOperand (k : TokenKind) : Bool := k.startsExpression && !k.isPrefix

/-- What can begin an operand is a constant, a name, `this`, a parenthesis or `new`. -/
theorem startsOperand_cases {k : TokenKind} (h : startsOperand k = true) :
    (k.isLiteral || k.isConstant) = true ∨ k = .ident ∨ k = .keyword .thisKw ∨ k = .punct .lParen ∨
      k = .keyword .newKw := by
  cases k with
  | keyword kw => cases kw <;> simp_all [startsOperand, TokenKind.startsExpression, TokenKind.isConstant]
  | punct p => cases p <;> simp_all [startsOperand, TokenKind.startsExpression, TokenKind.isPrefix]
  | _ => simp_all [startsOperand, TokenKind.startsExpression, TokenKind.isLiteral]

theorem Meets.primary (b : Bool) (h : Meets S M {} (n - 1) i₁ i₂) :
    Meets S M (.starting startsOperand b) n (primary i₁) (primary i₂) := by
  refine peek_bind fun k => ?_
  by_cases hlit : (k.isLiteral || k.isConstant) = true
  · rw [if_pos hlit, if_pos hlit]
    exact of_taken (node_bump (closes_of_isLiteral_or_isConstant hlit) (by decide) rfl) b
  rw [if_neg hlit, if_neg hlit]
  by_cases hident : k = .ident
  · subst hident
    exact of_taken (node_bump rfl (by decide) rfl) b
  rw [if_neg hident, if_neg hident]
  by_cases hthis : k = .keyword .thisKw
  · subst hthis
    exact of_taken (node_bump rfl (by decide) rfl) b
  rw [if_neg hthis, if_neg hthis]
  by_cases hparen : k = .punct .lParen
  · subst hparen
    refine of_taken (node (bind (bump_kind rfl) (fun _ => ?_) (fun _ => id) id trivial) trivial
      (by decide) rfl) b
    exact bind h (fun _ => expect rfl) (fun _ _ => trivial) id trivial
  rw [if_neg hparen, if_neg hparen]
  by_cases hnew : k = .keyword .newKw
  · subst hnew
    refine of_taken (node (bind (bump_kind rfl) (fun _ => ?_) (fun _ => id) id trivial) trivial
      (by decide) rfl) b
    exact bind type (fun _ => argumentListOf h) (fun _ => id) id trivial
  rw [if_neg hnew, if_neg hnew]
  cases b with
  | false => exact node (missing _ _ (fun _ _ => trivial) rfl) trivial (by decide) rfl
  | true =>
    refine of_not_pre fun L hL => ?_
    rcases startsOperand_cases (hL.1 ▸ hL.2 rfl) with h | h | h | h | h
    · exact hlit h
    · exact hident h
    · exact hthis h
    · exact hparen h
    · exact hnew h

/-- A node around what stands in the scope ends a round that has taken a token. -/
theorem Meets.enclose_true {kind : NodeKind} (hif : kind ≠ .ifStmt)
    (hunit : (kind.isStatement || kind.isMember) = false) :
    Meets S M { taken := fun b => (if b then 1 else 0) - 1 } n
      (do Parse.enclose kind; return true) (do Parse.enclose kind; return true) :=
  bind (enclose (P := fun _ => True) hif hunit) (fun _ => pure (fun _ => id) rfl id) (fun _ => id) id trivial

theorem Meets.postfixRound (h : Meets S M {} (n - 1) i₁ i₂) :
    Meets S M { taken := fun b => if b then 1 else 0 } n (postfixRound i₁) (postfixRound i₂) := by
  refine peek_bind fun k => ?_
  split
  · refine bind (argumentListOf_front h) (fun _ => ?_) (fun _ hL => hL.1) id trivial
    exact enclose_true (by decide) rfl
  · refine bind (bump_kind rfl) (fun _ => ?_) (fun _ => id) id trivial
    refine bind (expect rfl) (fun _ => ?_) (fun _ => id) id trivial
    exact enclose_true (by decide) rfl
  · refine bind (bump_kind rfl) (fun _ => ?_) (fun _ => id) id trivial
    refine bind h (fun _ => ?_) (fun _ => id) id trivial
    refine bind (expect rfl) (fun _ => ?_) (fun _ => id) id trivial
    exact enclose_true (by decide) rfl
  · refine bind (bump_kind rfl) (fun _ => ?_) (fun _ => id) id trivial
    exact enclose_true (by decide) rfl
  · refine bind (bump_kind rfl) (fun _ => ?_) (fun _ => id) id trivial
    exact enclose_true (by decide) rfl
  · exact pure (fun _ _ => trivial) rfl id

theorem Meets.postfixed (b : Bool) (h : Meets S M {} (n - 1) i₁ i₂) :
    Meets S M (.starting startsOperand b) n (postfixed i₁) (postfixed i₂) :=
  scope (followed (primary b h) (loop (postfixRound h)) (fun _ => trivial) id trivial)

theorem closes_of_isPrefix {k : TokenKind} (h : k.isPrefix = true) : k.closes = false := by
  cases k with
  | punct p => cases p <;> simp_all [TokenKind.isPrefix, TokenKind.closes]
  | _ => simp_all [TokenKind.isPrefix]

theorem Meets.prefixed (b : Bool) (h : Meets S M {} (n - 1) i₁ i₂) :
    Meets S M (.starting TokenKind.startsExpression b) n (prefixed i₁) (prefixed i₂) := by
  have hround : ∀ b k a₁ a₂, Meets S M {} k a₁ a₂ →
      Meets S M (.starting TokenKind.startsExpression b) (min (k + 1) n)
        (do if (← Parse.peek).isPrefix then (Parse.node .prefixExpr do bump; a₁) else Parse.postfixed i₁)
        (do if (← Parse.peek).isPrefix then (Parse.node .prefixExpr do bump; a₂) else Parse.postfixed i₂) := by
    intro b k a₁ a₂ ha
    refine peek_bind fun kind => ?_
    by_cases hk : kind.isPrefix = true
    · rw [if_pos hk, if_pos hk]
      refine of_taken (node (bind (bump_kind (closes_of_isPrefix hk)) (fun _ => ?_) (fun _ => id) id trivial)
        trivial (by decide) rfl) b
      refine ha.mono (fun _ _ => trivial) (fun _ _ => id) (fun _ => Nat.zero_le _) .rfl id ?_
      show min (k + 1) n - 1 ≤ k
      omega
    · rw [if_neg hk, if_neg hk]
      refine (postfixed b h).mono (fun L hL hb => ?_) (fun _ _ => id) (fun _ => le_rfl) .rfl id
        (Nat.min_le_right _ _)
      simpa [startsOperand, hL.1, hk] using hL.2 hb
  exact fix_first (fun _ _ => trivial) (fun k a₁ a₂ ha => (hround false k a₁ a₂ ha).of_starting) (hround b)

theorem closes_of_precedence? {k : TokenKind} {precedence : Nat} (h : k.precedence? = some precedence) :
    k.closes = false := by
  cases k with
  | punct p => cases p <;> simp_all [TokenKind.precedence?, TokenKind.closes]
  | _ => simp_all [TokenKind.precedence?]

/-- One more operator with its right operand. -/
def binaryRound {τ : Type} [TokenSource τ] (inner : Parse τ Unit) (levels least : Nat) : Parse τ Bool := do
  match (← peek).precedence? with
  | none => return false
  | some precedence =>
    if precedence < least then return false
    bump
    binary inner levels (precedence + 1)
    enclose .binaryExpr
    return true

theorem binary_succ {τ : Type} [TokenSource τ] (inner : Parse τ Unit) (levels least : Nat) :
    binary inner (levels + 1) least = scope (do prefixed inner; loop (binaryRound inner levels least)) := rfl

theorem Meets.binary (b : Bool) (h : Meets S M {} (n - 1) i₁ i₂) (levels least : Nat) :
    Meets S M (.starting TokenKind.startsExpression b) n (binary i₁ levels least)
      (binary i₂ levels least) := by
  induction levels generalizing n least b with
  | zero => exact prefixed b h
  | succ levels ih =>
    refine scope (followed (prefixed b h) (loop (peek_bind fun k => ?_)) (fun _ => trivial) id trivial)
    cases hk : k.precedence? with
    | none => exact pure (fun _ _ => trivial) rfl id
    | some precedence =>
      by_cases hlt : precedence < least
      · simp only [hlt, if_true]
        exact pure (fun _ _ => trivial) rfl id
      · simp only [hlt, if_false]
        refine bind (bump_kind (closes_of_precedence? hk)) (fun _ => ?_) (fun _ => id) id trivial
        refine bind (ih false ?_ _).of_starting (fun _ => ?_) (fun _ => id) id trivial
        · exact h.mono (fun _ => id) (fun _ _ => id) (fun _ => le_rfl) .rfl id (Nat.sub_le _ _)
        · exact enclose_true (by decide) rfl

theorem closes_of_isAssignment {k : TokenKind} (h : k.isAssignment = true) : k.closes = false := by
  cases k with
  | punct p => cases p <;> simp_all [TokenKind.isAssignment, TokenKind.closes]
  | _ => simp_all [TokenKind.isAssignment]

theorem Meets.assignment (b : Bool) (h : Meets S M {} (n - 1) i₁ i₂) :
    Meets S M (.starting TokenKind.startsExpression b) n (assignment i₁) (assignment i₂) := by
  refine scope (followed (binary b h _ _) (peek_bind fun k => ?_) (fun _ => trivial) id trivial)
  by_cases hk : k.isAssignment = true
  · rw [if_pos hk, if_pos hk]
    refine bind (bump_kind (closes_of_isAssignment hk)) (fun _ => ?_) (fun _ => id) id trivial
    exact bind h (fun _ => enclose (P := fun _ => True) (by decide) rfl) (fun _ => id) id trivial
  · rw [if_neg hk, if_neg hk]
    exact pure (fun _ _ => trivial) rfl id

theorem Meets.expressionOf (b : Bool) :
    Meets S M (.starting TokenKind.startsExpression b) n (expression : Parse σ Unit) expression := by
  have hround : ∀ b k (a₁ : Parse σ Unit) a₂, Meets S M {} k a₁ a₂ →
      Meets S M (.starting TokenKind.startsExpression b) (min (k + 1) n) (Parse.assignment a₁)
        (Parse.assignment a₂) := fun b k a₁ a₂ ha =>
    assignment b (ha.mono (fun _ => id) (fun _ _ => id) (fun _ => le_rfl) .rfl id (by omega))
  exact fix_first (fun _ _ => trivial) (fun k a₁ a₂ ha => (hround false k a₁ a₂ ha).of_starting) (hround b)

theorem Meets.expression : Meets S M {} n (expression : Parse σ Unit) expression :=
  (expressionOf false).of_starting

end Expressions

end Parse

end IncrementalSyntax

import IncrementalSyntax.Proofs.Grammar.Spelling
import IncrementalSyntax.Proofs.Grammar.Statements

/-!
# What is read is derived

Whatever a production reads without a diagnostic can be derived in the grammar. The proofs go along the
productions; a repetition that makes a phrase longer and longer is handled by what it does to every phrase
in front of it.

## Main results

* `Parse.Spells.name`, `Parse.Spells.type`, `Parse.Spells.argumentListOf`: names, types and arguments
* `Parse.Spells.expression`: expressions
* `Parse.Spells.statement`: statements
-/

namespace IncrementalSyntax

namespace Parse

namespace Spells

variable {n : Nat} {pre : List Leaf → Prop} {i : Parse TokenList Unit}

/-! ## Names and types -/

theorem name : Spells n pre name fun _ => Derives .name := by
  have hloop : Spells (n - 1) anything (Parse.loop (do
      if ← Parse.atPair (.punct .dot) .ident then Parse.bump; Parse.bump; Pure.pure (); return true else return false))
      fun _ w => ∀ v, Derives .name v → Derives .name (v ++ w) := by
    refine loop (pair_round (r := Pure.pure ()) rfl (by decide) fun _ => pure rfl) (by rintro _ rfl; simp) ?_ ?_
    · rintro _ rfl v hv
      simpa using hv
    · rintro _ w rfl hw v hv
      simpa using hw _ (.dotted hv)
  exact node (token_then (expect (by decide)) hloop fun _ w hw => hw [.ident] .ident)

theorem type : Spells n pre type fun _ => Derives .type := by
  have hloop : Spells n anything (Parse.loop (do
      if ← Parse.atPair (.punct .lBracket) (.punct .rBracket) then
        Parse.bump; Parse.bump; Parse.enclose .arrayType; return true
      else return false))
      fun _ w => ∀ v, Derives .type v → Derives .type (v ++ w) := by
    refine loop (pair_round rfl (by decide) fun _ => enclose) (by rintro _ rfl; simp) ?_ ?_
    · rintro _ rfl v hv
      simpa using hv
    · rintro _ w rfl hw v hv
      simpa using hw _ (.array hv)
  refine scope (peek_bind fun k => ?_)
  by_cases hk : k.startsType = true
  · rw [if_pos hk]
    by_cases hbuiltin : k.isBuiltin = true
    · rw [if_pos hbuiltin]
      obtain ⟨b, rfl⟩ : ∃ b, k = .builtin b := by
        cases k <;> simp_all [TokenKind.isBuiltin]
      refine seq (A := Derives .type) ?_ hloop fun _ v w hv hw => hw v hv
      exact node ((bump (by simp) fun _ hL => hL.2).mono (fun _ => id) (by rintro _ _ rfl; exact .builtin b) le_rfl)
    · rw [if_neg hbuiltin]
      exact seq name hloop fun _ v w hv hw => hw v (.named hv)
  · rw [if_neg hk]
    exact node (missing _ _)

/-! ## Expressions -/

/-- Elements with commas between them. -/
theorem commas {A B : List TokenKind → Prop} (h : Spells n anything i fun _ => A) (hlast : ∀ w, A w → B w)
    (hmore : ∀ v w, A v → B w → B (v ++ .punct .comma :: w)) :
    Spells n pre (Parse.loop (do i; Parse.eat (.punct .comma))) fun _ => B := by
  have hround : Spells n anything (do i; Parse.eat (.punct .comma))
      fun b w => ∃ v, A v ∧ w = if b then v ++ [.punct .comma] else v := by
    refine seq h (eat (by decide)) ?_
    rintro b v _ hv rfl
    exact ⟨v, hv, by cases b <;> simp⟩
  refine loop hround ?_ ?_ ?_
  · rintro _ ⟨_, -, rfl⟩
    simp
  · rintro _ ⟨_, hv, rfl⟩
    exact hlast _ hv
  · rintro _ w ⟨v, hv, rfl⟩ hw
    simpa using hmore v w hv hw

section Expressions

variable (h : Spells (n - 1) anything i fun _ => Derives .expression)

include h

theorem argumentListOf : Spells n pre (argumentListOf i) fun _ => Derives .argumentList := by
  have hrest : Spells (n - 1) anything
      (do
        let kind ← Parse.peek
        unless kind = .punct .rParen || kind = .eof do
          Parse.loop do
            i
            Parse.eat (.punct .comma)
        Parse.expect (.punct .rParen))
      fun _ w => w = [.punct .rParen] ∨ ∃ v, Derives .arguments v ∧ w = v ++ [.punct .rParen] := by
    refine peek_bind fun k => ?_
    by_cases hk : (decide (k = .punct .rParen) || decide (k = .eof)) = true
    · simp only [hk, if_true]
      exact (expect (by decide)).imp fun _ _ => .inl
    · rw [if_neg hk]
      exact then_token ((commas h (fun _ => .argument) fun _ _ => .nextArgument).imp fun _ _ => id) (expect (by decide)) fun _ w hw => .inr ⟨w, hw, rfl⟩
  refine node (token_then (expect (by decide)) hrest fun _ w hw => ?_)
  rcases hw with rfl | ⟨v, hv, rfl⟩
  · exact .noArguments
  · exact .inParens hv

theorem primary : Spells n pre (primary i) fun _ => Derives .primary := by
  -- a node over one token, which is known to come
  have hsingle : ∀ {kind : NodeKind} {k : TokenKind}, k ≠ .eof → Derives .primary [k] →
      Spells n (fun L => pre L ∧ frontKind L = k) (Parse.node kind Parse.bump) fun _ => Derives .primary :=
    fun hk hd => node ((bump hk fun _ hL => hL.2).mono (fun _ => id) (by rintro _ _ rfl; exact hd) le_rfl)
  refine peek_bind fun k => ?_
  by_cases hlit : (k.isLiteral || k.isConstant) = true
  · rw [if_pos hlit]
    cases k with
    | literal l => exact hsingle (by simp) (.literal l)
    | keyword kw => exact hsingle (by simp) (.constant (by cases kw <;> simp_all [TokenKind.isLiteral, TokenKind.isConstant]))
    | _ => simp [TokenKind.isLiteral, TokenKind.isConstant] at hlit
  rw [if_neg hlit]
  by_cases hident : k = .ident
  · subst hident
    exact hsingle (by decide) (.reference .ident)
  rw [if_neg hident]
  by_cases hthis : k = .keyword .thisKw
  · subst hthis
    exact hsingle (by decide) .thisObject
  rw [if_neg hthis]
  by_cases hparen : k = .punct .lParen
  · subst hparen
    refine node (token_then (bump (by decide) fun _ hL => hL.2)
      (E := fun _ w => ∃ v, Derives .expression v ∧ w = v ++ [.punct .rParen])
      (then_token h (expect (by decide)) fun _ w hw => ⟨w, hw, rfl⟩) ?_)
    rintro _ _ ⟨v, hv, rfl⟩
    exact .paren hv
  rw [if_neg hparen]
  by_cases hnew : k = .keyword .newKw
  · subst hnew
    refine node (token_then (bump (by decide) fun _ hL => hL.2)
      (E := fun _ w => ∃ u v, Derives .type u ∧ Derives .argumentList v ∧ w = u ++ v)
      (seq type (argumentListOf (h.mono (fun _ => id) (fun _ _ => id) (by omega)))
        fun _ u v hu hv => ⟨u, v, hu, hv, rfl⟩) ?_)
    rintro _ _ ⟨u, v, hu, hv, rfl⟩
    exact .creation hu hv
  rw [if_neg hnew]
  exact node (missing _ _)

omit h in
theorem enclose_true {kind : NodeKind} :
    Spells n pre (do Parse.enclose kind; return true) fun b w => b = true ∧ w = [] :=
  seq enclose (pure (D := fun b w => b = true ∧ w = []) ⟨rfl, rfl⟩) (by rintro _ _ _ rfl ⟨rfl, rfl⟩; exact ⟨rfl, rfl⟩)

/-- A round makes any postfix expression in front of it longer. -/
theorem postfixRound : Spells n pre (postfixRound i) fun b w =>
    if b then w ≠ [] ∧ ∀ v, Derives .postfixed v → Derives .postfixed (v ++ w) else w = [] := by
  refine peek_bind fun k => ?_
  split
  · refine seq (argumentListOf h) enclose_true ?_
    rintro _ w _ hw ⟨rfl, rfl⟩
    simpa using ⟨hw.ne_nil (by decide), fun v hv => .call hv hw⟩
  · refine token_then (bump (by decide) fun _ hL => hL.2)
      (token_then (expect (by decide)) enclose_true (F := fun b w => b = true ∧ w = [.ident]) ?_) ?_
    · rintro _ _ ⟨rfl, rfl⟩
      exact ⟨rfl, rfl⟩
    · rintro _ _ ⟨rfl, rfl⟩
      exact ⟨by simp, fun v => .memberAccess⟩
  · refine token_then (bump (by decide) fun _ hL => hL.2)
      (E := fun b w => b = true ∧ ∃ v, Derives .expression v ∧ w = v ++ [.punct .rBracket])
      (seq h (token_then (expect (by decide)) enclose_true (F := fun b w => b = true ∧ w = [.punct .rBracket]) ?_)
        ?_) ?_
    · rintro _ _ ⟨rfl, rfl⟩
      exact ⟨rfl, rfl⟩
    · rintro _ w _ hw ⟨rfl, rfl⟩
      exact ⟨rfl, w, hw, rfl⟩
    · rintro _ _ ⟨rfl, w, hw, rfl⟩
      exact ⟨by simp, fun v hv => .index hv hw⟩
  · refine token_then (bump (by decide) fun _ hL => hL.2) enclose_true ?_
    rintro _ _ ⟨rfl, rfl⟩
    exact ⟨by simp, fun v hv => .postfixOperator hv (by decide)⟩
  · refine token_then (bump (by decide) fun _ hL => hL.2) enclose_true ?_
    rintro _ _ ⟨rfl, rfl⟩
    exact ⟨by simp, fun v hv => .postfixOperator hv (by decide)⟩
  · exact pure rfl

theorem postfixed : Spells n pre (postfixed i) fun _ => Derives .postfixed := by
  have hloop : Spells n anything (Parse.loop (Parse.postfixRound i))
      fun _ w => ∀ v, Derives .postfixed v → Derives .postfixed (v ++ w) := by
    refine loop (postfixRound h) (fun _ hw => hw.1) ?_ fun v w hv hw u hu => ?_
    · rintro _ rfl v hv
      simpa using hv
    · simpa using hw _ (hv.2 u hu)
  exact scope (seq (primary h) hloop fun _ v w hv hw => hw v (.operand hv))

theorem prefixed : Spells n pre (prefixed i) fun _ => Derives .prefixed := by
  refine fix fun k hk a ha => peek_bind fun kind => ?_
  by_cases hkind : kind.isPrefix = true
  · rw [if_pos hkind]
    obtain ⟨p, hp, rfl⟩ := isPrefix_iff.1 hkind
    exact node (token_then (bump (by simp) fun _ hL => hL.2) ha fun _ w => (.prefixOperator · hp))
  · rw [if_neg hkind]
    exact (postfixed (h.mono (fun _ => id) (fun _ _ => id) (by omega))).imp fun _ _ => .unary

/-- Operands with operators of a level or of tighter ones between them. -/
theorem binary (levels least : Nat) (hlevels : operatorLevels.length ≤ levels + least)
    (hleast : least ≤ operatorLevels.length) :
    Spells n pre (binary i levels (least + 1)) fun _ => Derives (.binary least) := by
  induction levels generalizing n pre least with
  | zero => exact (prefixed h).imp fun _ _ => .binary_of_prefixed hleast
  | succ levels ih =>
    refine scope (seq (A := Derives .prefixed)
      (E := fun _ w => ∀ v, Derives (.binary least) v → Derives (.binary least) (v ++ w)) (prefixed h) ?_
      fun _ v w hv hw => hw v (.binary_of_prefixed hleast hv))
    refine loop (R := fun b w => if b then w ≠ [] ∧
      ∀ v, Derives (.binary least) v → Derives (.binary least) (v ++ w) else w = []) (peek_bind fun k => ?_)
      (fun _ hw => hw.1) ?_ fun v w hv hw u hu => ?_
    · cases hk : k.precedence? with
      | none => exact pure rfl
      | some precedence =>
        by_cases hlt : precedence < least + 1
        · simp only [hlt, if_true]
          exact pure rfl
        · simp only [hlt, if_false]
          obtain ⟨p, level, rfl, rfl, hp⟩ := precedence?_eq_some hk
          have hlevel := level_lt_of_mem hp
          have hright : Spells (n - 1) anything (Parse.binary i levels (level + 1 + 1))
              fun _ => Derives (.binary (level + 1)) :=
            ih (h.mono (fun _ => id) (fun _ _ => id) (Nat.sub_le _ _)) (level + 1) (by omega) hlevel
          refine token_then (bump (by simp) fun _ hL => hL.2) (seq hright enclose_true
            (F := fun b w => b = true ∧ Derives (.binary (level + 1)) w) ?_) ?_
          · rintro _ w _ hw ⟨rfl, rfl⟩
            simpa using hw
          · rintro _ w ⟨rfl, hw⟩
            exact ⟨by simp, fun v hv => hv.binary_append (by omega) hp hw⟩
    · rintro _ rfl v hv
      simpa using hv
    · simpa using hw _ (hv.2 u hu)

theorem assignment : Spells n pre (assignment i) fun _ => Derives .expression := by
  refine scope (seq (A := Derives (.binary 0)) (E := fun _ w => w = [] ∨
    ∃ p v, p ∈ assignmentOperators ∧ Derives .expression v ∧ w = .punct p :: v)
    (binary h _ _ le_rfl (Nat.zero_le _)) (peek_bind fun k => ?_) ?_)
  · by_cases hk : k.isAssignment = true
    · rw [if_pos hk]
      obtain ⟨p, hp, rfl⟩ := isAssignment_iff.1 hk
      refine token_then (bump (by simp) fun _ hL => hL.2) (then_enclose h) fun _ w hw => ?_
      exact .inr ⟨p, w, hp, hw, rfl⟩
    · rw [if_neg hk]
      exact pure (.inl rfl)
  · rintro _ v _ hv (rfl | ⟨p, w, hp, hw, rfl⟩)
    · simpa using .value hv
    · exact .assignment hv hp hw

end Expressions

/-- Whatever is read as an expression is one. -/
theorem expression : Spells n pre expression fun _ => Derives .expression :=
  fix fun _ _ _ ha => assignment ha

/-! ## Statements -/

theorem declarator : Spells n pre declarator fun _ => Derives .declarator := by
  have hvalue : ∀ k, Spells k anything (do if ← Parse.eat (.punct .eq) then Parse.expression)
      fun _ w => w = [] ∨ ∃ v, Derives .expression v ∧ w = .punct .eq :: v := by
    intro k
    refine bind (fun _ => 0) (eat (by decide)) (E := fun b _ w => if b then Derives .expression w else w = [])
      (fun b => ?_) (fun b _ v w hv hw => ?_) fun _ _ _ => Nat.zero_le _
    · cases b with
      | false => exact pure rfl
      | true => exact expression
    · subst hv
      cases b with
      | false => exact .inl hw
      | true => exact .inr ⟨w, hw, rfl⟩
  refine node (token_then (expect (by decide)) (hvalue _) ?_)
  rintro _ _ (rfl | ⟨v, hv, rfl⟩)
  · exact .uninitialized
  · exact .initialized hv

theorem declarators : Spells n pre declarators fun _ => Derives .declarators :=
  commas declarator (fun _ => .declared) fun _ _ => .nextDeclared

theorem localDeclaration : Spells n pre localDeclaration fun _ => Derives .statement := by
  refine node (seq type (then_token declarators (expect (by decide)) (F := fun _ w =>
    ∃ v, Derives .declarators v ∧ w = v ++ [.punct .semicolon]) fun _ v hv => ⟨v, hv, rfl⟩) ?_)
  rintro _ v _ hv ⟨w, hw, rfl⟩
  exact .declaration hv hw

theorem expressionStatement : Spells n pre expressionStatement fun _ => Derives .statement :=
  node (then_token expression (expect (by decide)) fun _ _ => .expressionStatement)

theorem condition : Spells n pre condition fun _ w =>
    ∃ v, Derives .expression v ∧ w = .punct .lParen :: (v ++ [.punct .rParen]) :=
  token_then (expect (by decide)) (then_token expression (expect (by decide))
    (F := fun _ w => ∃ v, Derives .expression v ∧ w = v ++ [.punct .rParen]) fun _ v hv => ⟨v, hv, rfl⟩)
    (by rintro _ _ ⟨v, hv, rfl⟩; exact ⟨v, hv, rfl⟩)

theorem jump {kind : NodeKind} {k : TokenKind} (hk : k ≠ .eof) (hpre : ∀ L, pre L → frontKind L = k)
    (hd : Derives .statement [k, .punct .semicolon]) : Spells n pre (jump kind) fun _ => Derives .statement :=
  node (token_then (bump hk hpre) (expect (by decide)) (by rintro _ _ rfl; exact hd))

theorem returnStatement (hpre : ∀ L, pre L → frontKind L = .keyword .returnKw) :
    Spells n pre returnStatement fun _ => Derives .statement := by
  refine node (token_then (bump (by decide) hpre) (peek_bind fun k => ?_)
    (E := fun _ w => w = [.punct .semicolon] ∨ ∃ v, Derives .expression v ∧ w = v ++ [.punct .semicolon]) ?_)
  · by_cases hk : k.startsExpression = true
    · simp only [hk, if_true]
      exact then_token expression (expect (by decide)) fun _ v hv => .inr ⟨v, hv, rfl⟩
    · simp only [hk]
      exact (expect (by decide)).imp fun _ _ => .inl
  · rintro _ _ (rfl | ⟨v, hv, rfl⟩)
    · exact .returnNone
    · exact .returnValue hv

section Statements

variable (h : Spells (n - 1) anything i fun _ => Derives .statement)

omit h in
theorem embedded (h : Spells n anything i fun _ => Derives .statement) :
    Spells n pre (embedded i) fun _ => Derives .statement := by
  refine peek_bind fun kind => ?_
  by_cases hkind : kind.startsStatement = true
  · rw [if_pos hkind]
    exact h.imp fun _ _ => id
  · rw [if_neg hkind]
    exact expressionStatement

omit h in
/-- What may stand behind the first statement of a conditional. -/
theorem elseOf {e : Parse TokenList Unit} (he : Spells n anything e fun _ => Derives .statement) :
    Spells n anything (elseOf e) fun _ w => w = [] ∨ ∃ v, Derives .statement v ∧ w = .keyword .elseKw :: v := by
  refine isAt_bind fun b => ?_
  cases b with
  | false => exact pure (.inl rfl)
  | true =>
    refine node (token_then (bump (by decide) fun _ hL => of_decide_eq_true hL.2)
      (he.mono (fun _ => id) (fun _ _ => id) (Nat.sub_le _ _)) fun _ w hw => ?_)
    exact .inr ⟨w, hw, rfl⟩

include h

theorem ifStatement (hpre : ∀ L, pre L → frontKind L = .keyword .ifKw) :
    Spells n pre (ifStatement i) fun _ => Derives .statement := by
  rw [ifStatement_eq]
  have hbranches : Spells (n - 1) anything (do Parse.embedded i; branchesRest (Parse.embedded i)) fun _ w =>
      Derives .statement w ∨
        ∃ u v, Derives .statement u ∧ Derives .statement v ∧ w = u ++ .keyword .elseKw :: v := by
    refine seq (embedded h) (then_enclose (elseOf (embedded h))) ?_
    rintro _ u _ hu (rfl | ⟨v, hv, rfl⟩)
    · simpa using Or.inl hu
    · exact .inr ⟨u, v, hu, hv, rfl⟩
  refine scope (token_then (bump (by decide) hpre) (seq condition hbranches
    (F := fun _ w => Derives .statement (.keyword .ifKw :: w)) ?_) fun _ _ => id)
  rintro _ _ _ ⟨u, hu, rfl⟩ (hw | ⟨v, w, hv, hw, rfl⟩)
  · simpa using Derives.ifThen hu hw
  · simpa using Derives.ifElse hu hv hw

theorem whileStatement (hpre : ∀ L, pre L → frontKind L = .keyword .whileKw) :
    Spells n pre (whileStatement i) fun _ => Derives .statement := by
  refine node (token_then (bump (by decide) hpre) (seq condition (embedded h)
    (F := fun _ w => Derives .statement (.keyword .whileKw :: w)) ?_) fun _ _ => id)
  rintro _ _ w ⟨u, hu, rfl⟩ hw
  simpa using Derives.whileDo hu hw

theorem blockOf : Spells n pre (blockOf i) fun _ => IsBlock := by
  have hround : Spells (n - 1) anything (blockRound i) fun b w => if b then Derives .statement w else w = [] := by
    refine peek_bind fun k => ?_
    by_cases hend : (decide (k = .punct .rBrace) || decide (k = .eof)) = true
    · rw [if_pos hend]
      exact pure rfl
    rw [if_neg hend]
    by_cases hk : k.startsStatement = true
    · rw [if_pos hk]
      refine seq (h.imp fun _ _ => id) (pure (D := fun b w => b = true ∧ w = []) ⟨rfl, rfl⟩) ?_
      rintro _ w _ hw ⟨rfl, rfl⟩
      simpa using hw
    · rw [if_neg hk]
      exact skipToRecovery.imp (by rintro _ _ ⟨rfl, rfl⟩; rfl)
  have hlist : Spells (n - 1) anything (Parse.within .block (Parse.loop (blockRound i)))
      fun _ => Derives .statements :=
    within (loop hround (fun _ hw => hw.ne_nil (by decide)) (by rintro _ rfl; exact .noStatements)
      fun _ _ => .nextStatement)
  exact node (token_then (expect (by decide)) (then_token hlist (expect (by decide))
    (F := fun _ w => IsBlock (.punct .lBrace :: w)) fun _ w hw => ⟨w, hw, rfl⟩) fun _ _ => id)

theorem statementBody : Spells n pre (statementBody i) fun _ => Derives .statement := by
  rw [statementBody_eq]
  refine peek_bind fun k => ?_
  unfold statementAt
  split
  · exact (blockOf h).mono (fun _ => id) (by rintro _ _ ⟨v, hv, rfl⟩; exact .block hv) le_rfl
  · exact node ((bump (by decide) fun _ hL => hL.2).mono (fun _ => id)
      (by rintro _ _ rfl; exact .emptyStatement) le_rfl)
  · exact ifStatement h fun _ hL => hL.2
  · exact whileStatement h fun _ hL => hL.2
  · exact returnStatement fun _ hL => hL.2
  · exact jump (by decide) (fun _ hL => hL.2) .breakLoop
  · exact jump (by decide) (fun _ hL => hL.2) .continueLoop
  · exact localDeclaration
  · refine speculate_bind fun b => ?_
    cases b with
    | false => exact expressionStatement
    | true => exact localDeclaration
  · exact expressionStatement

end Statements

/-- Whatever is read as a statement is one. -/
theorem statement : Spells n pre statement fun _ => Derives .statement :=
  fix fun _ _ _ ha => statementBody ha

theorem block : Spells n pre block fun _ => IsBlock := blockOf statement

/-! ## Whole texts -/

/-- Where all tokens of a text are read as one phrase and none is reported, they are derived for it, or there
are none of them. -/
theorem fragment {starts : TokenKind → Bool} {m : Parse TokenList Unit} {A : List TokenKind → Prop}
    (h : ∀ n, Spells n anything m fun _ => A) :
    Spells n pre (do ifStarts starts m; let _ ← Parse.skipToRecovery) fun _ w => w = [] ∨ A w := by
  refine seq (A := fun w => w = [] ∨ A w) (peek_bind fun k => ?_) (bind (fun _ => 0) skipToRecovery
    (E := fun _ _ w => w = []) (fun _ => pure rfl) (F := fun _ w => w = []) ?_ fun _ _ _ => Nat.zero_le _) ?_
  · by_cases hk : starts k = true
    · rw [if_pos hk]
      exact (h n).imp fun _ _ => .inr
    · rw [if_neg hk]
      exact pure (.inl rfl)
  · rintro _ _ _ _ ⟨-, rfl⟩ rfl
    rfl
  · rintro _ v _ hv rfl
    simpa using hv

end Spells

end Parse

end IncrementalSyntax

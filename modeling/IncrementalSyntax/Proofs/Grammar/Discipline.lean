import IncrementalSyntax.Proofs.Grammar.Driving
import IncrementalSyntax.Proofs.Grammar.Root
import IncrementalSyntax.Proofs.Green.Precedence

/-!
# Every production is disciplined

The productions written as events do what the productions of the parser do, on every supply of tokens. So a
builder is never used in a wrong way, every round of a repetition that goes on has moved, and no recursion gets
to the end of its depth.

## Main results

* `Events.Drives.type`, `Events.Drives.expression`: types and expressions
* `Events.Drives.statement`, `Events.Drives.member`: statements and members
-/

namespace IncrementalSyntax

namespace TokenKind

theorem startsType_of_isBuiltin {k : TokenKind} (h : k.isBuiltin = true) : k.startsType = true := by
  cases k <;> simp_all [isBuiltin, startsType]

end TokenKind

namespace Events

variable {version : LanguageVersion} {σ : Type} [TokenSource σ] {S : Supply version σ}

namespace Drives

variable {start n ahead : Nat} {o o' : Option NodeKind} {pre : List Leaf → Prop}
variable {i : Parse σ Unit} {e : Events σ Unit}

section Choice

variable {α : Type} {taken : α → Nat} {a a' : Parse σ α} {d d' : Events σ α}

theorem ite {c : Prop} [Decidable c] (h : c → Drives S start n ahead o o' pre taken a d)
    (h' : ¬ c → Drives S start n ahead o o' pre taken a' d') :
    Drives S start n ahead o o' pre taken (if c then a else a') (if c then d else d') := by
  split
  next hc => exact h hc
  next hc => exact h' hc

theorem ite_then {β : Type} {f : β → Parse σ α} {b b' : Parse σ β} {c : Prop} [Decidable c]
    (h : c → Drives S start n ahead o o' pre taken (b >>= f) d)
    (h' : ¬ c → Drives S start n ahead o o' pre taken (b' >>= f) d') :
    Drives S start n ahead o o' pre taken ((if c then b else b') >>= f) (if c then d else d') := by
  split
  next hc => exact h hc
  next hc => exact h' hc

/-- Two tokens that are known to come are taken in a round. -/
theorem passes_two {k₁ k₂ : TokenKind} {c : Parse σ Unit} {s : Events σ Unit} {f : Parse σ Bool} {g : Events σ Bool}
    (h : Passes S ahead c s) (h₁ : k₁ ≠ .eof) (h₂ : k₂ ≠ .eof)
    (hf : Drives S start (n - 1 - 1) ahead o o' (fun _ => True) (fun _ => 0) f g) :
    Drives S start n ahead o o' (fun L => pre L ∧ (true = true → frontKind L = k₁ ∧ frontKind L.tail = k₂))
      (fun b => b.toNat) (do c; c; f) (do s; s; g) := by
  have hsecond : Drives S start (n - 1) ahead o o' (fun L => frontKind L = k₂) (fun _ => 0) (do c; f) (do s; g) :=
    passes_then h (fun L hL => hL ▸ h₂) (fun _ _ _ => trivial) hf fun _ => Nat.zero_le _
  exact passes_then h (fun L hL => (hL.2 rfl).1 ▸ h₁) (fun l L hL => (hL.2 rfl).2) hsecond fun b => Bool.toNat_le b

end Choice

/-- What an action takes need not be known. -/
theorem untaken {α : Type} {taken : α → Nat} {a : Parse σ α} {d : Events σ α}
    (h : Drives S start n ahead o o' pre taken a d) : Drives S start n ahead o o' pre (fun _ => 0) a d :=
  h.mono (fun _ => id) (fun _ => Nat.zero_le _) le_rfl

/-- A token that closes nothing does not end the text. -/
theorem front_ne {k : TokenKind} (hk : k.closes = false) : ∀ L, pre L ∧ frontKind L = k → frontKind L ≠ .eof :=
  fun _ hL => hL.2 ▸ Parse.ne_eof_of_closes hk

/-! ## Names and types -/

/-- The last token of a node. -/
theorem expect_closeNode {kind : NodeKind} {k : TokenKind} (hk : k ≠ .eof) :
    Drives S start n 0 (some kind) none pre (fun _ => 0) (do Parse.expect k; Parse.enclose kind)
      (do Events.expect k; Events.closeNode) :=
  seq (expect hk) closeNode

theorem single (kind : NodeKind) (hne : ∀ L, pre L → frontKind L ≠ .eof) :
    Drives S start n 0 o o pre (fun _ => 0) (Parse.node kind Parse.bump) (single kind) :=
  node fun _ => bump_seq hne closeNode

theorem name : Drives S start n 0 o o pre (fun _ => 0) Parse.name name := by
  refine node fun start => ?_
  simp only [bind_assoc]
  refine seq (expect TokenKind.noConfusion) (seq (loop ?_) closeNode)
  refine atPair_bind TokenKind.noConfusion fun b => ?_
  cases b with
  | false => exact pure rfl
  | true =>
    exact passes_two passes_bump TokenKind.noConfusion TokenKind.noConfusion nothing

/-- Bracket pairs around a type. -/
theorem brackets :
    Drives S start n 0 none none pre (fun _ => 0)
      (Parse.loop do
        unless ← Parse.atBrackets do return false
        Parse.bump
        Parse.bump
        Parse.enclose .arrayType
        return true)
      (brackets start) := by
  refine loop (atPair_bind TokenKind.noConfusion fun b => ?_)
  cases b with
  | false => exact pure rfl
  | true =>
    have hclose : Drives S start (n - 1 - 1) 0 (some .arrayType) none (fun _ => True) (fun _ => 0)
        (do Parse.enclose .arrayType; return true) (do Events.closeNode; return true) := seq closeNode nothing
    exact openAt_then (passes_two passes_bump TokenKind.noConfusion TokenKind.noConfusion hclose)

theorem type : Drives S start n 0 o o pre (fun _ => 0) Parse.type type := by
  refine scope fun start => peek_bind fun k => ?_
  by_cases hbuiltin : k.isBuiltin = true
  · have hstarts : k.startsType = true := TokenKind.startsType_of_isBuiltin hbuiltin
    rw [if_pos hstarts, if_pos hbuiltin, if_pos hbuiltin]
    exact seq (single .predefinedType (front_ne (Parse.closes_of_startsType hstarts))) brackets
  · by_cases hident : k = .ident
    · subst hident
      exact seq name brackets
    · have hstarts : ¬ k.startsType = true := fun h => hident (Parse.eq_ident_of_startsType h hbuiltin)
      rw [if_neg hstarts, if_neg hbuiltin, if_neg hident]
      exact node fun _ => seq (missing TokenKind.noConfusion _) closeNode

/-- Pairs of tokens that are passed over. -/
theorem skipPairs {k₁ k₂ : TokenKind} (h₁ : k₁ ≠ .eof) (h₂ : k₂ ≠ .eof) :
    Drives S start n ahead o o pre (fun _ => 0) (Parse.loop (Parse.skipPair k₁ k₂)) (skipPairs k₁ k₂) := by
  refine loop (atPair_bind h₁ fun b => ?_)
  cases b with
  | false => exact pure rfl
  | true => exact passes_two passes_skip h₁ h₂ nothing

theorem skipType : Drives S start n ahead o o pre (fun _ => 0) Parse.skipType skipType := by
  have hbrackets : ∀ n, Drives S start n ahead o o (fun _ => True) (fun _ => 0)
      (do Parse.loop (Parse.skipPair (.punct .lBracket) (.punct .rBracket)); return true)
      (do Events.skipPairs (.punct .lBracket) (.punct .rBracket); return true) := fun n =>
    seq (skipPairs TokenKind.noConfusion TokenKind.noConfusion) nothing
  refine peek_bind fun k => ?_
  by_cases hbuiltin : k.isBuiltin = true
  · have hstarts : k.startsType = true := TokenKind.startsType_of_isBuiltin hbuiltin
    simp only [hstarts, hbuiltin, if_true]
    exact passes_then passes_skip (front_ne (Parse.closes_of_startsType hstarts)) (fun _ _ _ => trivial) (hbrackets _)
      fun _ => Nat.zero_le _
  · by_cases hident : k = .ident
    · subst hident
      have hsegments : Drives S start (n - 1) ahead o o (fun _ => True) (fun _ => 0)
          (do
            Parse.loop (Parse.skipPair (.punct .dot) .ident)
            Parse.loop (Parse.skipPair (.punct .lBracket) (.punct .rBracket))
            return true)
          (do
            Events.skipPairs (.punct .dot) .ident
            Events.skipPairs (.punct .lBracket) (.punct .rBracket)
            return true) :=
        seq (skipPairs TokenKind.noConfusion TokenKind.noConfusion) (hbrackets _)
      exact passes_then passes_skip (fun L hL => hL.2 ▸ TokenKind.noConfusion) (fun _ _ _ => trivial) hsegments
        fun _ => Nat.zero_le _
    · have hstarts : ¬ k.startsType = true := fun h => hident (Parse.eq_ident_of_startsType h hbuiltin)
      rw [if_neg hstarts, if_neg hbuiltin, if_neg hident]
      exact pure rfl

/-! ## Expressions -/

theorem commas (h : Drives S start n 0 o o (fun _ => True) (fun _ => 0) i e) :
    Drives S start n 0 o o pre (fun _ => 0) (Parse.loop (do i; Parse.eat (.punct .comma))) (commas e) :=
  loop (seq h (eat TokenKind.noConfusion))

/-- Arguments, of whose parenthesis it is known whether it comes. -/
theorem arguments {k : Nat}
    (hparen : ∀ start o, Drives S start n 0 o o pre (fun _ => k) (Parse.expect (.punct .lParen)) (Events.expect (.punct .lParen)))
    (h : ∀ start o, Drives S start (n - k) 0 o o (fun _ => True) (fun _ => 0) i e) :
    Drives S start n 0 o o pre (fun _ => k) (Parse.argumentListOf i) (argumentListOf e) := by
  refine node fun start => ?_
  simp only [bind_assoc]
  refine bind_rest (hparen _ _) (fun _ => peek_bind fun kind => ite_then (fun _ => ?_) fun _ => ?_)
    fun _ _ => le_rfl
  · exact expect_closeNode TokenKind.noConfusion
  · simp only [bind_assoc]
    exact seq (commas (h _ _)) (expect_closeNode TokenKind.noConfusion)

section Operands

variable (h : ∀ start o, Drives S start (n - 1) 0 o o (fun _ => True) (fun _ => 0) i e)

include h

theorem primary : Drives S start n 0 o o pre (fun _ => 0) (Parse.primary i) (primary e) := by
  refine peek_bind fun k => ?_
  refine ite (fun hk => single _ ?_) fun _ => ?_
  · exact front_ne (Parse.closes_of_isLiteral_or_isConstant hk)
  refine ite (fun hk => single _ (front_ne (hk ▸ rfl))) fun _ => ?_
  refine ite (fun hk => single _ (front_ne (hk ▸ rfl))) fun _ => ?_
  refine ite (fun hk => node fun start => ?_) fun _ => ?_
  · simp only [bind_assoc]
    exact bump_seq (front_ne (hk ▸ rfl)) (seq (h _ _) (expect_closeNode TokenKind.noConfusion))
  refine ite (fun hk => node fun start => ?_) fun _ => node fun start => ?_
  · simp only [bind_assoc]
    exact bump_seq (front_ne (hk ▸ rfl)) (seq type (seq (arguments (fun _ _ => expect TokenKind.noConfusion) h)
      Drives.closeNode))
  · exact seq (missing TokenKind.noConfusion _) Drives.closeNode

theorem postfixRound :
    Drives S start n 0 none none pre (fun b => b.toNat) (Parse.postfixRound i) (postfixRound e start) := by
  refine peek_bind fun k => ?_
  -- every round but the last begins with a token of its own, and wraps up what the scope holds
  cases k with
  | punct p =>
    cases p with
    | lParen =>
      exact openAt_then (take_round (arguments (fun _ _ => expect_front TokenKind.noConfusion) h)
        (seq Drives.closeNode nothing))
    | dot =>
      exact openAt_then (bump_round (front_ne rfl) (seq (expect TokenKind.noConfusion) (seq Drives.closeNode nothing)))
    | lBracket =>
      exact openAt_then (bump_round (front_ne rfl) (seq (h _ _) (seq (expect TokenKind.noConfusion)
        (seq Drives.closeNode nothing))))
    | plusPlus => exact openAt_then (bump_round (front_ne rfl) (seq Drives.closeNode nothing))
    | minusMinus => exact openAt_then (bump_round (front_ne rfl) (seq Drives.closeNode nothing))
    | _ => exact pure rfl
  | _ => exact pure rfl

theorem postfixed : Drives S start n 0 o o pre (fun _ => 0) (Parse.postfixed i) (postfixed e) :=
  scope fun _ => seq (primary h) (loop (postfixRound h))

theorem prefixed : Drives S start n 0 o o pre (fun _ => 0) (Parse.prefixed i) (prefixed e) := by
  have hfix : Drives S start n 0 o o (fun _ => True) (fun _ => 0) (Parse.prefixed i) (Events.prefixed e) := by
    refine fix fun j hj a d hagain start o => ?_
    refine peek_bind fun k => ite (fun hk => node fun start => ?_) fun _ => ?_
    · simp only [bind_assoc]
      exact bump_seq (front_ne (Parse.closes_of_isPrefix hk)) (seq (hagain _ _) Drives.closeNode)
    · exact postfixed fun start o => (h start o).mono (fun _ => id) (fun _ => le_rfl) (Nat.sub_le_sub_right hj 1)
  exact hfix.mono (fun _ _ => trivial) (fun _ => le_rfl) le_rfl

end Operands

/-- A repetition whose first round says no. -/
theorem loop_of_false {round : Events σ Bool} {m : Machine σ} (h : round m = some (false, m)) :
    Events.loop round m = some ((), m) := by
  show ((round m).bind fun r => if (r.1 && decide (r.2.position ≤ m.position)) = true then none else some r).bind
    (fun r => (if r.1 = true then _ else Pure.pure () : Events σ Unit) r.2) = _
  rw [h]
  rfl

theorem binaryRound_of_lt {operand : Nat → Events σ Unit} {least : Nat} (h : Parse.precedences < least) (start : Nat)
    (m : Machine σ) : binaryRound operand least start m = some (false, m) := by
  have hpeek : ∀ f : TokenKind → Events σ Bool, (peek >>= f) m = f (TokenSource.next m.source).1.leaf.tokenKind m :=
    fun _ => rfl
  rw [binaryRound, hpeek]
  cases hprecedence : (TokenSource.next m.source).1.leaf.tokenKind.precedence? with
  | none => rfl
  | some precedence =>
    have hlt : precedence < least := (TokenKind.precedence?_le hprecedence).trans_lt h
    dsimp only
    rw [if_pos hlt]
    rfl

/-- No operator binds tighter than the tightest one, so the machine is never at the end of the levels. -/
theorem binary (levels : Nat) : ∀ {least n start : Nat} {o : Option NodeKind} {pre : List Leaf → Prop},
    Parse.precedences < levels + least →
    (∀ start o, Drives S start (n - 1) 0 o o (fun _ => True) (fun _ => 0) i e) →
    Drives S start n 0 o o pre (fun _ => 0) (Parse.binary i levels least) (binary e (levels + 1) least) := by
  induction levels with
  | zero =>
    -- the parser looks for no operator any more, and the machine finds none that binds tightly enough
    intro least n start o pre hleast h p m base opened hopened hbeside hP hlen
    obtain ⟨htake, m', hrun, hrest⟩ := prefixed h p m base opened hopened hbeside hP hlen
    refine ⟨htake, m', ?_, hrest⟩
    show (Events.prefixed e m).bind (fun r =>
      Events.loop (binaryRound (Events.binary e 0) least m.builder.mark) r.2) = _
    rw [hrun]
    exact loop_of_false (binaryRound_of_lt (by omega) _ _)
  | succ levels ih =>
    intro least n start o pre hleast h
    refine scope fun start => seq (prefixed h) (loop (peek_bind fun k => ?_))
    cases hk : k.precedence? with
    | none => exact pure rfl
    | some precedence =>
      refine ite (fun _ => pure rfl) fun hle => openAt_then ?_
      have hless : ∀ start o, Drives S start (n - 1 - 1) 0 o o (fun _ => True) (fun _ => 0) i e := fun start o =>
        (h start o).mono (fun _ => id) (fun _ => le_rfl) (Nat.sub_le _ _)
      exact bump_round (front_ne (Parse.closes_of_precedence? hk)) (seq (ih (by omega) hless) (seq Drives.closeNode nothing))

theorem assignment (h : ∀ start o, Drives S start (n - 1) 0 o o (fun _ => True) (fun _ => 0) i e) :
    Drives S start n 0 o o pre (fun _ => 0) (Parse.assignment i) (assignment e) := by
  refine scope fun start => seq (binary Parse.precedences (Nat.lt_succ_self _) h) (peek_bind fun k => ?_)
  refine ite (fun hk => openAt_then ?_) fun _ => nothing
  exact bump_seq (front_ne (Parse.closes_of_isAssignment hk)) (seq (h _ _) Drives.closeNode)

theorem expression : Drives S start n 0 o o pre (fun _ => 0) Parse.expression expression := by
  have hfix : Drives S start n 0 o o (fun _ => True) (fun _ => 0) Parse.expression Events.expression :=
    fix fun j _ a d h start o => assignment h
  exact hfix.mono (fun _ _ => trivial) (fun _ => le_rfl) le_rfl

/-! ## Statements -/

theorem declarators : Drives S start n 0 o o pre (fun _ => 0) Parse.declarators declarators := by
  refine commas (node fun start => ?_)
  simp only [bind_assoc]
  refine seq (expect TokenKind.noConfusion) (bind_rest (eat TokenKind.noConfusion) (fun b => ?_)
    fun _ _ => Nat.zero_le _)
  cases b with
  | false => exact Drives.closeNode
  | true => exact seq expression Drives.closeNode

theorem atLocalDeclaration :
    Drives S start n 0 o o pre (fun _ => 0) Parse.atLocalDeclaration atLocalDeclaration := by
  have hahead : Drives S start n 1 o o pre (fun _ => 0)
      (do if ← Parse.skipType then Parse.isAt .ident else return false)
      (do if ← Events.skipType then isAt .ident else return false) := by
    refine bind_rest skipType (fun b => ?_) fun _ _ => Nat.zero_le _
    cases b with
    | false => exact pure rfl
    | true => exact peek_bind fun k => nothing
  exact speculate hahead

theorem localDeclaration : Drives S start n 0 o o pre (fun _ => 0) Parse.localDeclaration localDeclaration := by
  refine node fun start => ?_
  simp only [bind_assoc]
  exact seq type (seq declarators (expect_closeNode TokenKind.noConfusion))

theorem expressionStatement :
    Drives S start n 0 o o pre (fun _ => 0) Parse.expressionStatement expressionStatement := by
  refine node fun start => ?_
  simp only [bind_assoc]
  exact seq expression (expect_closeNode TokenKind.noConfusion)

theorem condition : Drives S start n 0 o o pre (fun _ => 0) Parse.condition condition :=
  seq (expect TokenKind.noConfusion) (seq expression (expect TokenKind.noConfusion))

theorem jump (kind : NodeKind) (hne : ∀ L, pre L → frontKind L ≠ .eof) :
    Drives S start n 0 o o pre (fun _ => 0) (Parse.jump kind) (jump kind) := by
  refine node fun start => ?_
  simp only [bind_assoc]
  exact bump_seq hne (expect_closeNode TokenKind.noConfusion)

theorem returnStatement (hne : ∀ L, pre L → frontKind L ≠ .eof) :
    Drives S start n 0 o o pre (fun _ => 0) Parse.returnStatement returnStatement := by
  refine node fun start => ?_
  simp only [bind_assoc]
  refine bump_seq hne (peek_bind fun k => ite_then (fun _ => ?_) fun _ => ?_)
  · simp only [bind_assoc]
    exact seq expression (expect_closeNode TokenKind.noConfusion)
  · exact expect_closeNode TokenKind.noConfusion

/-- One round of a list whose elements take a token. -/
theorem listRound {stops starts : TokenKind → Bool}
    (h : Drives S start n 0 o o (fun L => starts (frontKind L) = true) (fun _ => 1) i e) :
    Drives S start n 0 o o pre (fun b => b.toNat) (Parse.listRound stops starts i) (listRound stops starts e) := by
  refine peek_bind fun k => ite (fun _ => pure rfl) fun _ => ite (fun hstart => ?_) fun _ => skipToRecovery
  exact take_round (h.mono (fun L hL => hL.2 ▸ hstart) (fun _ => le_rfl) le_rfl) nothing

/-- A block, of whose opening brace it is known whether it comes. -/
theorem blockOf {k : Nat}
    (hbrace : ∀ start o, Drives S start n 0 o o pre (fun _ => k) (Parse.expect (.punct .lBrace)) (Events.expect (.punct .lBrace)))
    (h : ∀ start o, Drives S start (n - k) 0 o o (fun L => (frontKind L).startsStatement = true) (fun _ => 1) i e) :
    Drives S start n 0 o o pre (fun _ => 0) (Parse.blockOf i) (blockOf e) := by
  refine node fun start => ?_
  simp only [bind_assoc]
  refine bind_rest (hbrace _ _) (fun _ => ?_) fun _ _ => Nat.zero_le _
  exact within_then (loop (listRound (h _ _))) (expect_closeNode TokenKind.noConfusion)

theorem embedded (h : Drives S start n 0 o o (fun L => (frontKind L).startsStatement = true) (fun _ => 1) i e) :
    Drives S start n 0 o o pre (fun _ => 0) (Parse.embedded i) (embedded e) := by
  refine peek_bind fun k => ite (fun hk => ?_) fun _ => expressionStatement
  exact untaken (h.mono (fun L hL => hL.2 ▸ hk) (fun _ => le_rfl) le_rfl)

section Inner

variable (h : ∀ start o, Drives S start (n - 1) 0 o o (fun L => (frontKind L).startsStatement = true) (fun _ => 1) i e)

include h

theorem ifStatement (hne : ∀ L, pre L → frontKind L ≠ .eof) :
    Drives S start n 0 o o pre (fun _ => 0) (Parse.ifStatement i) (ifStatement e) := by
  refine node fun start => ?_
  simp only [bind_assoc]
  refine bump_seq hne (seq condition (seq (embedded (h _ _)) (isAt_bind fun b => ?_)))
  cases b with
  | false => exact Drives.closeNode
  | true =>
    have helse : Drives S start (n - 1) 0 (some .ifStmt) (some .ifStmt)
        (fun L => True ∧ decide (frontKind L = .keyword .elseKw) = true) (fun _ => 0)
        (Parse.node .elseClause do Parse.bump; Parse.embedded i)
        (do openNode .elseClause; bump; Events.embedded e; Events.closeNode) := by
      refine node fun start => ?_
      simp only [bind_assoc]
      refine bump_seq (fun L hL => of_decide_eq_true hL.2 ▸ TokenKind.noConfusion) (seq (embedded ?_) Drives.closeNode)
      exact (h _ _).mono (fun _ => id) (fun _ => le_rfl) (Nat.sub_le _ _)
    have hend : Drives S start (n - 1) 0 (some .ifStmt) none (fun _ => True) (fun _ => 0) (Parse.enclose .ifStmt)
        Events.closeNode := Drives.closeNode
    have hclose := seq helse hend
    simp only [bind_assoc] at hclose
    exact hclose

theorem whileStatement (hne : ∀ L, pre L → frontKind L ≠ .eof) :
    Drives S start n 0 o o pre (fun _ => 0) (Parse.whileStatement i) (whileStatement e) := by
  refine node fun start => ?_
  simp only [bind_assoc]
  exact bump_seq hne (seq condition (seq (embedded (h _ _)) Drives.closeNode))

theorem statementBody : Drives S start n 0 o o pre (fun _ => 0) (Parse.statementBody i) (statementBody e) := by
  refine peek_bind fun k => ?_
  cases k with
  | punct p =>
    cases p with
    | lBrace => exact blockOf (fun _ _ => expect_front TokenKind.noConfusion) h
    | semicolon => exact single _ fun L hL => hL.2 ▸ TokenKind.noConfusion
    | _ => exact expressionStatement
  | keyword word =>
    cases word with
    | ifKw => exact ifStatement h (front_ne rfl)
    | whileKw => exact whileStatement h (front_ne rfl)
    | returnKw => exact returnStatement (front_ne rfl)
    | breakKw => exact jump _ (front_ne rfl)
    | continueKw => exact jump _ (front_ne rfl)
    | _ => exact expressionStatement
  | builtin => exact localDeclaration
  | ident =>
    refine bind_rest atLocalDeclaration (fun b => ?_) fun _ _ => Nat.zero_le _
    exact ite (fun _ => localDeclaration) fun _ => expressionStatement
  | _ => exact expressionStatement

end Inner

/-- Statements to a depth. The tokens that a statement takes are known from the contract that it meets. -/
theorem statementUpTo (depth : Nat) :
    ∀ j ≤ depth, ∀ start o, Drives S start j 0 o o (Parse.Contract.unit TokenKind.startsStatement true).pre
      (Parse.Contract.unit TokenKind.startsStatement true).taken (Parse.statementUpTo depth)
      (Events.fixUpTo (fun inner => Events.reuseOr NodeKind.isStatement (Events.statementBody inner)) depth) := by
  refine fixUpTo_taking (fun depth j hj => ?_) (fun j i e h start o => ?_) depth
  · exact (Parse.Meets.statementUpTo j .whole depth depth j le_rfl hj hj).toActs
  · exact reuseOr (Nat.zero_le _) (statementBody fun start o => (h start o).mono (fun L hL _ => hL) (fun _ => le_rfl) le_rfl)

theorem statement : Drives S start n 0 o o (fun L => (frontKind L).startsStatement = true) (fun _ => 1) Parse.statement
    statement := by
  have hfix : Drives S start n 0 o o (Parse.Contract.unit TokenKind.startsStatement true).pre
      (Parse.Contract.unit TokenKind.startsStatement true).taken Parse.statement Events.statement :=
    of_fixUpTo fun depth j _ hj => statementUpTo depth j hj start o
  exact hfix.mono (fun L hL _ => hL) (fun _ => le_rfl) le_rfl

/-- A block where any token may come. -/
theorem block : Drives S start n 0 o o pre (fun _ => 0) Parse.block block :=
  reuseOr (Nat.zero_le _) (blockOf (k := 0) (fun _ _ => expect TokenKind.noConfusion) fun _ _ => statement)

/-! ## Members -/

theorem parameterList : Drives S start n 0 o o pre (fun _ => 0) Parse.parameterList parameterList := by
  have hparameter : ∀ n start o, Drives S start n 0 o o (fun _ => True) (fun _ => 0) Parse.parameter parameter := by
    refine fun n start o => node fun start => ?_
    simp only [bind_assoc]
    exact seq type (expect_closeNode TokenKind.noConfusion)
  refine node fun start => ?_
  simp only [bind_assoc]
  refine seq (expect TokenKind.noConfusion) (peek_bind fun k => ite_then (fun _ => ?_) fun _ => ?_)
  · simp only [bind_assoc]
    exact seq (commas (hparameter _ _ _)) (expect_closeNode TokenKind.noConfusion)
  · exact expect_closeNode TokenKind.noConfusion

theorem baseList (hne : ∀ L, pre L → frontKind L ≠ .eof) :
    Drives S start n 0 o o pre (fun _ => 0) Parse.baseList baseList := by
  refine node fun start => ?_
  simp only [bind_assoc]
  exact bump_seq hne (seq (commas type) Drives.closeNode)

/-- A method or a field, around all that stands in the scope. -/
theorem methodOrField : Drives S start n 0 none none pre (fun _ => 0) Parse.methodOrField (methodOrField start) := by
  rw [Parse.Meets.methodOrField_eq]
  refine atPair_bind TokenKind.noConfusion fun b => ?_
  cases b with
  | false => exact openAt_then (seq declarators (expect_closeNode TokenKind.noConfusion))
  | true =>
    refine openAt_then (bump_seq (fun L hL => (hL.2 rfl).1 ▸ TokenKind.noConfusion)
      (seq parameterList (isAt_bind fun b => ?_)))
    cases b with
    | false => exact expect_closeNode TokenKind.noConfusion
    | true => exact seq block Drives.closeNode

theorem usingDirective (hne : ∀ L, pre L → frontKind L ≠ .eof) :
    Drives S start n 0 none none pre (fun _ => 0) Parse.usingDirective (usingDirective start) :=
  openAt_then (bump_seq hne (seq name (expect_closeNode TokenKind.noConfusion)))

theorem atRecord_bind {α : Type} {taken : α → Nat} {f : Bool → Parse σ α} {g : Bool → Events σ α}
    (h : ∀ b, Drives S start n ahead o o' pre taken (f b) (g b)) :
    Drives S start n ahead o o' pre taken (Parse.atRecord >>= f) (atRecord >>= g) := by
  refine look (fun _ _ => True) (fun p m _ hsource _ hversion => ⟨rfl, ?_, trivial⟩)
    fun b => (h b).mono (fun _ => And.left) (fun _ => le_rfl) le_rfl
  show some (m.version.supportsRecords && decide ((TokenSource.next m.source).1.leaf.text = "record".toList) &&
    decide ((TokenSource.next (TokenSource.next m.source).2).1.leaf.tokenKind = .ident), m) = _
  rw [hsource, hversion]
  rfl

/-- Members up to a closing token. -/
theorem memberList {closer : Option TokenKind}
    (h : Drives S start n 0 o o (fun L => (frontKind L).startsMember = true) (fun _ => 1) i e) :
    Drives S start n 0 o o pre (fun _ => 0) (Parse.loop (Parse.memberRound i closer)) (memberList e closer) :=
  loop (listRound h)

section Inner

theorem memberBody {context : ListContext}
    (h : Drives S start n 0 o o (fun L => (frontKind L).startsMember = true) (fun _ => 1) i e) :
    Drives S start n 0 o o pre (fun _ => 0) (Parse.memberBody i context) (memberBody e context) :=
  seq (expect TokenKind.noConfusion) (within_then (memberList h) (expect TokenKind.noConfusion))

variable (h : ∀ start o, Drives S start (n - 1) 0 o o (fun L => (frontKind L).startsMember = true) (fun _ => 1) i e)

include h

theorem typeDeclaration {kind : NodeKind} (hne : ∀ L, pre L → frontKind L ≠ .eof) :
    Drives S start n 0 none none pre (fun _ => 0) (Parse.typeDeclaration i kind) (typeDeclaration e start kind) := by
  refine openAt_then (bump_seq hne (seq (expect TokenKind.noConfusion) (isAt_bind fun b => ?_)))
  cases b with
  | false => exact seq (memberBody (h _ _)) Drives.closeNode
  | true =>
    refine seq (baseList fun L hL => of_decide_eq_true hL.2 ▸ TokenKind.noConfusion) ?_
    exact seq (memberBody (h _ _)) Drives.closeNode

theorem namespaceDeclaration (hne : ∀ L, pre L → frontKind L ≠ .eof) :
    Drives S start n 0 none none pre (fun _ => 0) (Parse.namespaceDeclaration i) (namespaceDeclaration e start) :=
  openAt_then (bump_seq hne (seq name (seq (memberBody (h _ _)) Drives.closeNode)))

theorem memberTail : Drives S start n 0 none none pre (fun _ => 0) (Parse.memberTail i) (memberTail e start) := by
  refine peek_bind fun k => ?_
  cases k with
  | keyword word =>
    cases word with
    | usingKw => exact usingDirective (front_ne rfl)
    | namespaceKw => exact namespaceDeclaration h (front_ne rfl)
    | classKw => exact typeDeclaration h (front_ne rfl)
    | structKw => exact typeDeclaration h (front_ne rfl)
    | interfaceKw => exact typeDeclaration h (front_ne rfl)
    | _ => exact openAt_then (seq (missing TokenKind.noConfusion _) Drives.closeNode)
  | builtin => exact seq type methodOrField
  | ident =>
    refine atRecord_bind fun b => ite (fun _ => typeDeclaration h (front_ne rfl)) fun _ => ?_
    exact seq type methodOrField
  | _ => exact openAt_then (seq (missing TokenKind.noConfusion _) Drives.closeNode)

theorem memberOf : Drives S start n 0 o o pre (fun _ => 0) (Parse.memberOf i) (memberOf e) := by
  refine scope fun start => seq (loop (peek_bind fun k => ite (fun hk => ?_) fun _ => pure rfl)) (memberTail h)
  exact bump_round (front_ne (Parse.closes_of_isModifier hk)) nothing

end Inner

/-- Members to a depth, as for statements. -/
theorem memberUpTo (depth : Nat) :
    ∀ j ≤ depth, ∀ start o, Drives S start j 0 o o (Parse.Contract.unit TokenKind.startsMember true).pre
      (Parse.Contract.unit TokenKind.startsMember true).taken (Parse.memberUpTo depth)
      (Events.fixUpTo (fun inner => Events.reuseOr NodeKind.isMember (Events.memberOf inner)) depth) := by
  refine fixUpTo_taking (fun depth j hj => ?_) (fun j i e h start o => ?_) depth
  · exact (Parse.Meets.memberUpTo j .whole depth depth j le_rfl hj hj).toActs
  · exact reuseOr (Nat.zero_le _) (memberOf fun start o => (h start o).mono (fun L hL _ => hL) (fun _ => le_rfl) le_rfl)

theorem member : Drives S start n 0 o o (fun L => (frontKind L).startsMember = true) (fun _ => 1) Parse.member
    member := by
  have hfix : Drives S start n 0 o o (Parse.Contract.unit TokenKind.startsMember true).pre
      (Parse.Contract.unit TokenKind.startsMember true).taken Parse.member Events.member :=
    of_fixUpTo fun depth j _ hj => memberUpTo depth j hj start o
  exact hfix.mono (fun L hL _ => hL) (fun _ => le_rfl) le_rfl

/-! ## Whole texts -/

/-- One production, and the tokens that it leaves. -/
theorem fragment {starts : TokenKind → Bool}
    (h : Drives S start n 0 o o (fun L => starts (frontKind L) = true) (fun _ => 0) i e) :
    Drives S start n 0 o o pre (fun _ => 0) (do Parse.ifStarts starts i; let _ ← Parse.skipToRecovery)
      (fragment starts e) := by
  have hskip : Drives S start n 0 o o (fun _ => True) (fun _ => 0) (do let _ ← Parse.skipToRecovery)
      (do let _ ← Events.skipToRecovery) :=
    bind_rest skipToRecovery (fun _ => nothing) fun _ _ => Nat.zero_le _
  simp only [Parse.ifStarts, bind_assoc]
  refine peek_bind fun k => ite_then (fun hk => ?_) fun _ => ?_
  · exact seq (h.mono (fun L hL => hL.2 ▸ hk) (fun _ => le_rfl) le_rfl) hskip
  · exact hskip.mono (fun _ _ => trivial) (fun _ => le_rfl) le_rfl

theorem rootInner (entry : EntryPoint) :
    Drives S start n 0 o o pre (fun _ => 0) (Parse.rootInner entry) (rootInner entry) := by
  cases entry with
  | compilationUnit => exact within (memberList member)
  | member => exact fragment (untaken member)
  | statement => exact fragment (untaken statement)
  | expression => exact fragment expression

end Drives

/-! ## The root -/

/-- **Finished.** Nothing is open any more, neither a node nor a list, the parser does not look ahead, and what the
machine leaves is what the parse gives. -/
structure Finished (m : Machine σ) (r : Parsed σ) : Prop where
  opened : m.builder.opened = []
  contexts : m.contexts = []
  lookahead : m.lookahead = 0
  tree : m.builder.finish = r.root
  status : m.status = r.status
  source : m.source = r.source

/-- **Rooted.** An element that is a node of a kind, whose last child is the token that ends the text, of which there
is no other one in it. -/
def Rooted (kind : NodeKind) (root : Green) : Prop :=
  ∃ id children t, root = .ofChildren id (.node kind) (children ++ [.token t]) ∧ t.leaf.tokenKind = .eof ∧
    t.leaf.missing = false ∧ Inner children

section Supplies

variable {s : σ}

/-- In front of the end of the text the machine stands beside the parser. -/
theorem beside_atEnd (h : S.Ok s) (entry : EntryPoint) :
    ∃ m, (do openNode (Parse.rootKind entry); rootInner entry) { source := s, version := version } = some ((), m) ∧
      Beside S 0 0 [(.node (Parse.rootKind entry), 0)] [] (Parser.atEnd version entry s) m := by
  let m₀ : Machine σ := { source := s, version := version, builder := { opened := [(.node (Parse.rootKind entry), 0)] } }
  have hbeside : Beside S 0 0 (around 0 (some (Parse.rootKind entry)) ++ []) [] (.start version s) m₀ :=
    { ready := ready_start h
      inner := fun _ hl => absurd hl List.not_mem_nil
      length := rfl
      source := rfl
      opened := rfl
      elements := rfl
      contexts := rfl
      lookahead := rfl
      status := rfl
      version := rfl }
  have hinside : Inside 0 ([] : List (Kind × Nat)) := fun _ ho => absurd ho (Option.not_mem_none _)
  have hdrives : Drives S 0 (S.upcoming s).length 0 (some (Parse.rootKind entry)) (some (Parse.rootKind entry))
      (fun _ => True) (fun _ => 0) (Parse.rootInner entry) (rootInner entry) := Drives.rootInner entry
  obtain ⟨-, m, hrun, hbeside', -⟩ := hdrives (.start version s) m₀ [] [] hinside hbeside trivial le_rfl
  exact ⟨m, hrun, hbeside'⟩

/-- **The machine never fails.** It reads a supply up to the end of the text, and what it leaves is what the parse
gives. -/
theorem rootNode_finished (h : S.Ok s) (entry : EntryPoint) :
    ∃ m, rootNode entry { source := s, version := version } = some ((), m) ∧ Finished m (parse version entry s) := by
  obtain ⟨m, hrun, hbeside⟩ := beside_atEnd h entry
  have hroot : rootNode entry { source := s, version := version } = (do bump; closeNode : Events σ Unit) m := by
    have hassoc : (rootNode entry : Events σ Unit) =
        (do (do openNode (Parse.rootKind entry); rootInner entry); bump; closeNode) := by
      simp only [bind_assoc]
      rfl
    rw [hassoc]
    show (((do openNode (Parse.rootKind entry); rootInner entry : Events σ Unit) _).bind fun r =>
      (do bump; closeNode : Events σ Unit) r.2) = _
    rw [hrun]
    rfl
  have hclose : (do bump; closeNode : Events σ Unit) m = closeNode { m with
      source := (TokenSource.next m.source).2
      position := m.position + 1
      builder := m.builder.push (.token (TokenSource.next m.source).1) } := by
    show ((bump m).bind fun r => closeNode r.2) = _
    rw [bump_eq hbeside.lookahead]
    rfl
  have hcontexts : m.contexts = [] := hbeside.contexts.trans (kept_atEnd h entry).contexts
  rw [hroot, hclose, parse_eq]
  refine ⟨_, closeNode_eq hbeside.opened, rfl, hcontexts, hbeside.lookahead, ?_, hbeside.status, ?_⟩
  · rw [hbeside.source]
    simp [Builder.finish, Builder.closeAll, Builder.wrap, Builder.push, hbeside.elements, Builder.rootOf, Green.ofChildren]
  · rw [hbeside.source]

/-- The root of a parse. -/
theorem rooted (h : S.Ok s) (entry : EntryPoint) : Rooted (Parse.rootKind entry) (parse version entry s).root := by
  obtain ⟨m, -, hbeside⟩ := beside_atEnd h entry
  rw [parse_eq]
  exact ⟨_, _, _, rfl, tokenKind_next_atEnd h entry, S.present (kept_atEnd h entry).ready.ok, hbeside.inner⟩

end Supplies

end Events

end IncrementalSyntax

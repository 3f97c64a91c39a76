import IncrementalSyntax.Proofs.Grammar.Expressions
import IncrementalSyntax.Proofs.Grammar.Yield

/-!
# Expressions that are built

The parser builds the trees of an expression out of their leaves, and stops where the expression ends.
What follows must not be able to continue it. A form that grows to the left is built by the rounds of a
repetition, so for such a form the rounds behind it are part of the course.

## Main definitions

* `TokenKind.continuesPostfix`, `TokenKind.endsExpression`: what can follow
* `Parse.BuildsName`, `Parse.BuildsType`: names and types, taken or passed over
* `Parse.BuildsPostfixed`, `Parse.BuildsBinary`, `Parse.BuildsExpression`: the parts of expressions

## Main results

* `Parse.BuildsType.type`, `Parse.BuildsType.atLocalDeclaration`: types, and what looks ahead for them
* `Parse.BuildsExpression.expression`: expressions
-/

namespace IncrementalSyntax

open Shape (leaf branch)

/-- The tokens that make a postfix expression longer. -/
def TokenKind.continuesPostfix : TokenKind → Bool
  | .punct .lParen | .punct .dot | .punct .lBracket | .punct .plusPlus | .punct .minusMinus => true
  | _ => false

/-- The tokens that can stand behind a complete expression. -/
def TokenKind.endsExpression : TokenKind → Bool
  | .punct .rParen | .punct .rBracket | .punct .comma | .punct .semicolon | .eof => true
  | _ => false

namespace Parse

/-- Two tokens are taken if they come. -/
def pairRound (k₁ k₂ : TokenKind) (r : Parse TokenList Unit) : Parse TokenList Bool := do
  if ← atPair k₁ k₂ then
    bump
    bump
    r
    return true
  else return false

/-- One more member name of a qualified name. -/
def segmentRound : Parse TokenList Bool := pairRound (.punct .dot) .ident (Pure.pure ())

/-- One more pair of brackets of a type. -/
def bracketRound : Parse TokenList Bool :=
  pairRound (.punct .lBracket) (.punct .rBracket) (enclose .arrayType)

/-- An expression with expressions inside it to a depth. -/
def expressionUpTo (depth : Nat) : Parse TokenList Unit := fixUpTo assignment depth

/-- Prefix operators to a depth, and their operand. -/
def prefixedUpTo (inner : Parse TokenList Unit) : Nat → Parse TokenList Unit :=
  fixUpTo fun again => do
    if (← peek).isPrefix then
      node .prefixExpr do
        bump
        again
    else postfixed inner

namespace Reads

variable {v : LanguageVersion} {L L' : List Leaf} {o o' : List Shape} {l₁ l₂ : Leaf} {k₁ k₂ : TokenKind}
variable {r : Parse TokenList Unit}

theorem pairRound (h₁ : l₁.tokenKind = k₁) (h₂ : l₂.tokenKind = k₂) (hk₁ : k₁.closes = false)
    (hk₂ : k₂ ≠ .eof) (h : Reads v r L (o ++ [leaf l₁, leaf l₂]) () L' o') :
    Reads v (pairRound k₁ k₂ r) (l₁ :: l₂ :: L) o true L' o' := by
  have h' : Reads v r L (o ++ [leaf l₁] ++ [leaf l₂]) () L' o' := by simpa using h
  refine bind (atPair hk₁) (ite_pos (by simp [h₁, h₂]) ?_)
  exact bind (bump (h₁ ▸ ne_eof_of_closes hk₁)) (bind (bump (h₂ ▸ hk₂)) (bind h' pure))

theorem pairRound_of_ne (hk₁ : k₁.closes = false) (h : frontKind L ≠ k₁) :
    Reads v (Parse.pairRound k₁ k₂ r) L o false L o :=
  bind (atPair hk₁) (ite_neg (by simp [h]) pure)

theorem skipPair (h₁ : l₁.tokenKind = k₁) (h₂ : l₂.tokenKind = k₂) (hk₁ : k₁.closes = false)
    (hk₂ : k₂ ≠ .eof) : Reads v (skipPair k₁ k₂) (l₁ :: l₂ :: L) o true L o :=
  bind (atPair hk₁) (ite_pos (by simp [h₁, h₂])
    (bind (skip (h₁ ▸ ne_eof_of_closes hk₁)) (bind (skip (h₂ ▸ hk₂)) pure)))

theorem skipPair_of_ne (hk₁ : k₁.closes = false) (h : frontKind L ≠ k₁) :
    Reads v (Parse.skipPair k₁ k₂) L o false L o :=
  bind (atPair hk₁) (ite_neg (by simp [h]) pure)

end Reads

/-! ## What is built -/

/-- A name is an identifier and rounds, whether it is taken or passed over. -/
structure BuildsName (v : LanguageVersion) (l : Leaf) (w : List Leaf) (ss : List Shape) : Prop where
  ident : l.tokenKind = .ident
  taken : ∀ {rest o L' o'}, Rounds v segmentRound rest (o ++ ss) L' o' →
    Rounds v segmentRound (w ++ rest) (o ++ [leaf l]) L' o'
  passed : ∀ {rest o L'}, Rounds v (skipPair (.punct .dot) .ident) rest o L' o →
    Rounds v (skipPair (.punct .dot) .ident) (w ++ rest) o L' o

/-- A type and the rounds behind it, when it is taken and when it is passed over. -/
structure BuildsType (v : LanguageVersion) (w : List Leaf) (ss : List Shape) : Prop where
  taken : ∀ {rest o L' o'}, frontKind rest ≠ .punct .dot → Rounds v bracketRound rest ss L' o' →
    Reads v type (w ++ rest) o () L' (o ++ o')
  passed : ∀ {rest o L'}, frontKind rest ≠ .punct .dot →
    Rounds v (skipPair (.punct .lBracket) (.punct .rBracket)) rest o L' o →
    Reads v skipType (w ++ rest) o true L' o

section Names

variable {v : LanguageVersion} {w : List Leaf} {ss : List Shape} {d l r : Leaf}

theorem BuildsName.nil (hl : l.tokenKind = .ident) : BuildsName v l [] [leaf l] := ⟨hl, id, id⟩

theorem BuildsName.dotted (h : BuildsName v r w ss) (hd : d.tokenKind = .punct .dot) (hl : l.tokenKind = .ident) :
    BuildsName v r (w ++ [d, l]) (ss ++ [leaf d, leaf l]) where
  ident := h.ident
  taken hr := by
    rw [List.append_assoc]
    refine h.taken (.more (.pairRound hd hl rfl (by decide) .pure) (by simp) ?_)
    simpa using hr
  passed hr := by
    rw [List.append_assoc]
    exact h.passed (.more (.skipPair hd hl rfl (by decide)) (by simp) hr)

theorem BuildsName.name (h : BuildsName v l w ss) {rest : List Leaf} {o : List Shape}
    (hrest : frontKind rest ≠ .punct .dot) :
    Reads v name (l :: (w ++ rest)) o () rest (o ++ [branch .name ss]) :=
  .node (.bind (.expect h.ident (by decide)) (h.taken (.stop (.pairRound_of_ne rfl hrest))).reads)

theorem BuildsType.builtin {b : Builtin} (hl : l.tokenKind = .builtin b) :
    BuildsType v [l] [branch .predefinedType [leaf l]] where
  taken _ hr := by
    refine .scope (.peek_bind ?_)
    rw [List.singleton_append, frontKind_cons, hl]
    exact .ite_pos rfl (.ite_pos rfl (.bind (.node (.bump (by simp [hl]))) hr.reads))
  passed _ hr := by
    refine .peek_bind ?_
    rw [List.singleton_append, frontKind_cons, hl]
    exact .ite_pos rfl (.bind (.skip (by simp [hl])) (.ite_pos rfl (.bind hr.reads .pure)))

theorem BuildsType.named (h : BuildsName v l w ss) : BuildsType v (l :: w) [branch .name ss] where
  taken hrest hr := by
    refine .scope (.peek_bind ?_)
    rw [List.cons_append, frontKind_cons, h.ident]
    exact .ite_pos rfl (.ite_neg (by decide) (.bind (h.name hrest) hr.reads))
  passed {rest o L'} hrest hr := by
    have hname : Rounds v (skipPair (.punct .dot) .ident) (w ++ rest) o rest o :=
      h.passed (.stop (.skipPair_of_ne rfl hrest))
    refine .peek_bind ?_
    rw [List.cons_append, frontKind_cons, h.ident]
    refine .ite_pos rfl (.bind (.skip (by simp [h.ident])) (.ite_neg (by decide) ?_))
    exact .bind hname.reads (.bind hr.reads .pure)

theorem BuildsType.array (h : BuildsType v w ss) (hl : l.tokenKind = .punct .lBracket)
    (hr : r.tokenKind = .punct .rBracket) :
    BuildsType v (w ++ [l, r]) [branch .arrayType (ss ++ [leaf l, leaf r])] where
  taken _ hrest := by
    rw [List.append_assoc]
    exact h.taken (by simp [hl]) (.more (.pairRound hl hr rfl (by decide) .enclose) (by simp) hrest)
  passed _ hrest := by
    rw [List.append_assoc]
    exact h.passed (by simp [hl]) (.more (.skipPair hl hr rfl (by decide)) (by simp) hrest)

theorem BuildsType.type (h : BuildsType v w ss) {rest : List Leaf} {o : List Shape}
    (hdot : frontKind rest ≠ .punct .dot) (hbracket : frontKind rest ≠ .punct .lBracket) :
    Reads v type (w ++ rest) o () rest (o ++ ss) :=
  h.taken hdot (.stop (.pairRound_of_ne rfl hbracket))

/-- A declaration of variables is recognized by a type and an identifier. -/
theorem BuildsType.atLocalDeclaration (h : BuildsType v w ss) {rest : List Leaf} {o : List Shape}
    (hrest : frontKind rest = .ident) : Reads v atLocalDeclaration (w ++ rest) o true (w ++ rest) o := by
  have hskip : Reads v skipType (w ++ rest) o true rest o :=
    h.passed (by simp [hrest]) (.stop (.skipPair_of_ne rfl (by simp [hrest])))
  have hat : Reads v (isAt .ident) rest o (decide (frontKind rest = .ident)) rest o :=
    .isAt_bind (f := Pure.pure) .pure
  rw [hrest] at hat
  exact .speculate (.bind hskip (.ite_pos rfl hat))

end Names

/-! ### Expressions -/

/-- An expression is taken where it has ended. -/
def BuildsExpression (v : LanguageVersion) (w : List Leaf) (ss : List Shape) : Prop :=
  ∀ {d rest o}, w.length ≤ d → (frontKind rest).endsExpression = true →
    Reads v (expressionUpTo d) (w ++ rest) o () rest (o ++ ss)

/-- Arguments are the rounds of a repetition up to the closing parenthesis. -/
def BuildsArguments (v : LanguageVersion) (w : List Leaf) (ss : List Shape) : Prop :=
  ∀ {d rest o}, w.length ≤ d → frontKind rest = .punct .rParen →
    Rounds v (do expressionUpTo d; eat (.punct .comma)) (w ++ rest) o rest (o ++ ss)

def BuildsArgumentList (v : LanguageVersion) (w : List Leaf) (ss : List Shape) : Prop :=
  ∀ {d rest o}, w.length ≤ d + 1 → Reads v (argumentListOf (expressionUpTo d)) (w ++ rest) o () rest (o ++ ss)

def BuildsPrimary (v : LanguageVersion) (w : List Leaf) (ss : List Shape) : Prop :=
  ∀ {d rest o}, w.length ≤ d + 1 → Reads v (primary (expressionUpTo d)) (w ++ rest) o () rest (o ++ ss)

/-- A postfix expression and the rounds behind it. -/
def BuildsPostfixed (v : LanguageVersion) (w : List Leaf) (ss : List Shape) : Prop :=
  ∀ {d rest o L' o'}, w.length ≤ d + 1 → Rounds v (postfixRound (expressionUpTo d)) rest ss L' o' →
    Reads v (postfixed (expressionUpTo d)) (w ++ rest) o () L' (o ++ o')

def BuildsPrefixed (v : LanguageVersion) (w : List Leaf) (ss : List Shape) : Prop :=
  ∀ {d d' rest o}, w.length ≤ d + 1 → w.length ≤ d' → (frontKind rest).continuesPostfix = false →
    Reads v (prefixedUpTo (expressionUpTo d) d') (w ++ rest) o () rest (o ++ ss)

section Expressions

variable {v : LanguageVersion} {u w : List Leaf} {ss ts : List Shape} {d l r : Leaf}

theorem ne_of_startsExpression {k : TokenKind} (h : k.startsExpression = true) :
    k ≠ .punct .rParen ∧ k ≠ .eof := by
  constructor <;> (rintro rfl; cases h)

theorem BuildsArguments.argument (h : BuildsExpression v w ss) : BuildsArguments v w ss := by
  intro depth rest o hd hrest
  exact .stop (.bind (h hd (by rw [hrest]; rfl)) (.eat_of_ne (by simp [hrest])))

theorem BuildsArguments.nextArgument (h : BuildsExpression v u ss) (hd : d.tokenKind = .punct .comma)
    (h' : BuildsArguments v w ts) : BuildsArguments v (u ++ d :: w) (ss ++ leaf d :: ts) := by
  intro depth rest o hlen hrest
  simp only [List.length_append, List.length_cons] at hlen
  have hround : Reads v (do expressionUpTo depth; eat (.punct .comma)) (u ++ d :: (w ++ rest)) o true (w ++ rest)
      (o ++ ss ++ [leaf d]) :=
    .bind (h (by omega) (by simp [hd]; rfl)) (.eat hd (by decide))
  have hrounds := Rounds.more hround (by simp; omega) (h' (by omega) hrest)
  simpa using hrounds

theorem BuildsArgumentList.noArguments (hl : l.tokenKind = .punct .lParen)
    (hr : r.tokenKind = .punct .rParen) :
    BuildsArgumentList v [l, r] [branch .argList [leaf l, leaf r]] := by
  intro depth rest o _
  refine .node (.bind (.expect hl (by decide)) (.peek_bind (.ite_pos (by simp [hr]) ?_)))
  exact .expect hr (by decide)

theorem BuildsArgumentList.inParens (hl : l.tokenKind = .punct .lParen) (hw : Yields .arguments w ss)
    (h : BuildsArguments v w ss) (hr : r.tokenKind = .punct .rParen) :
    BuildsArgumentList v (l :: (w ++ [r])) [branch .argList (leaf l :: (ss ++ [leaf r]))] := by
  intro depth rest o hlen
  simp only [List.length_append, List.length_cons, List.length_nil] at hlen
  have hne := ne_of_startsExpression (hw.starts (by simp))
  have hfront : frontKind (w ++ r :: rest) = frontKind w := frontKind_append (hw.ne_nil (by simp)) _
  have hloop : Reads v (loop (do expressionUpTo depth; eat (.punct .comma))) (w ++ r :: rest) [leaf l] ()
      (r :: rest) ([leaf l] ++ ss) := (h (by omega) (by rw [frontKind_cons, hr])).reads
  have hbody : Reads v (argumentListOf (expressionUpTo depth)) (l :: (w ++ r :: rest)) o () rest
      (o ++ [branch .argList ([leaf l] ++ ss ++ [leaf r])]) := by
    refine .node (.bind (.expect hl (by decide)) (.peek_bind (.ite_neg (by simp [hfront, hne]) ?_)))
    exact .bind hloop (.expect hr (by decide))
  simpa using hbody

theorem BuildsPrimary.constant (hl : (l.tokenKind.isLiteral || l.tokenKind.isConstant) = true) :
    BuildsPrimary v [l] [branch .literalExpr [leaf l]] := by
  intro depth rest o _
  exact .peek_bind (.ite_pos hl (.node (.bump (ne_eof_of_closes (closes_of_isLiteral_or_isConstant hl)))))

theorem BuildsPrimary.reference (hl : l.tokenKind = .ident) :
    BuildsPrimary v [l] [branch .nameExpr [leaf l]] := by
  intro depth rest o _
  refine .peek_bind ?_
  rw [List.singleton_append, frontKind_cons, hl]
  exact .ite_neg (by decide) (.ite_pos rfl (.node (.bump (by simp [hl]))))

theorem BuildsPrimary.thisObject (hl : l.tokenKind = .keyword .thisKw) :
    BuildsPrimary v [l] [branch .thisExpr [leaf l]] := by
  intro depth rest o _
  refine .peek_bind ?_
  rw [List.singleton_append, frontKind_cons, hl]
  exact .ite_neg (by decide) (.ite_neg (by decide) (.ite_pos rfl (.node (.bump (by simp [hl])))))

theorem BuildsPrimary.paren (hl : l.tokenKind = .punct .lParen) (h : BuildsExpression v w ss)
    (hr : r.tokenKind = .punct .rParen) :
    BuildsPrimary v (l :: (w ++ [r])) [branch .parenExpr (leaf l :: (ss ++ [leaf r]))] := by
  intro depth rest o hlen
  simp only [List.length_append, List.length_cons, List.length_nil] at hlen
  have hinner : Reads v (expressionUpTo depth) (w ++ r :: rest) [leaf l] () (r :: rest) ([leaf l] ++ ss) :=
    h (by omega) (by rw [frontKind_cons, hr]; rfl)
  have hbody : Reads v (primary (expressionUpTo depth)) (l :: (w ++ r :: rest)) o () rest
      (o ++ [branch .parenExpr ([leaf l] ++ ss ++ [leaf r])]) := by
    refine .peek_bind ?_
    rw [frontKind_cons, hl]
    refine .ite_neg (by decide) (.ite_neg (by decide) (.ite_neg (by decide) (.ite_pos rfl ?_)))
    exact .node (.bind (.bump (by simp [hl])) (.bind hinner (.expect hr (by decide))))
  simpa using hbody

theorem BuildsPrimary.creation (hl : l.tokenKind = .keyword .newKw) (h : BuildsType v u ss)
    (hw : Yields .argumentList w ts) (h' : BuildsArgumentList v w ts) :
    BuildsPrimary v (l :: (u ++ w)) [branch .objectCreationExpr (leaf l :: (ss ++ ts))] := by
  intro depth rest o hlen
  simp only [List.length_append, List.length_cons] at hlen
  have hfront : frontKind (w ++ rest) = .punct .lParen := by
    rw [frontKind_append (hw.ne_nil (by simp))]
    exact of_decide_eq_true (hw.starts (by simp))
  have hbody : Reads v (primary (expressionUpTo depth)) (l :: (u ++ (w ++ rest))) o () rest
      (o ++ [branch .objectCreationExpr ([leaf l] ++ ss ++ ts)]) := by
    refine .peek_bind ?_
    rw [frontKind_cons, hl]
    refine .ite_neg (by decide) (.ite_neg (by decide) (.ite_neg (by decide) (.ite_neg (by decide) ?_)))
    refine .ite_pos rfl (.node (.bind (.bump (by simp [hl])) (.bind (h.type (by simp [hfront]) (by simp [hfront])) ?_)))
    exact h' (by omega)
  simpa using hbody

/-! ### Postfix and prefix operators -/

theorem BuildsPostfixed.operand (h : BuildsPrimary v w ss) : BuildsPostfixed v w ss := by
  intro depth rest o L' o' hlen hrounds
  exact .scope (.bind (h hlen) hrounds.reads)

theorem BuildsPostfixed.call (h : BuildsPostfixed v u ss) (hw : Yields .argumentList w ts)
    (h' : BuildsArgumentList v w ts) : BuildsPostfixed v (u ++ w) [branch .callExpr (ss ++ ts)] := by
  intro depth rest o L' o' hlen hrounds
  simp only [List.length_append] at hlen
  have hne := hw.ne_nil (by simp)
  have hround : Reads v (postfixRound (expressionUpTo depth)) (w ++ rest) ss true rest
      [branch .callExpr (ss ++ ts)] := by
    refine .peek_bind ?_
    rw [frontKind_append hne, of_decide_eq_true (hw.starts (by simp))]
    exact .bind (h' (by omega)) (.bind .enclose .pure)
  rw [List.append_assoc]
  exact h (by omega) (.more hround (by simp [List.length_pos_iff.2 hne]) hrounds)

theorem BuildsPostfixed.memberAccess (h : BuildsPostfixed v w ss) (hd : d.tokenKind = .punct .dot)
    (hl : l.tokenKind = .ident) :
    BuildsPostfixed v (w ++ [d, l]) [branch .memberAccessExpr (ss ++ [leaf d, leaf l])] := by
  intro depth rest o L' o' hlen hrounds
  simp only [List.length_append] at hlen
  have hround : Reads v (postfixRound (expressionUpTo depth)) (d :: l :: rest) ss true rest
      [branch .memberAccessExpr (ss ++ [leaf d] ++ [leaf l])] := by
    refine .peek_bind ?_
    rw [frontKind_cons, hd]
    exact .bind (.bump (by simp [hd])) (.bind (.expect hl (by decide)) (.bind .enclose .pure))
  rw [List.append_assoc] at hround ⊢
  exact h (by omega) (.more hround (by simp) hrounds)

theorem BuildsPostfixed.index (h : BuildsPostfixed v u ss) (hl : l.tokenKind = .punct .lBracket)
    (h' : BuildsExpression v w ts) (hr : r.tokenKind = .punct .rBracket) :
    BuildsPostfixed v (u ++ l :: (w ++ [r])) [branch .indexExpr (ss ++ leaf l :: (ts ++ [leaf r]))] := by
  intro depth rest o L' o' hlen hrounds
  simp only [List.length_append, List.length_cons, List.length_nil] at hlen
  have hround : Reads v (postfixRound (expressionUpTo depth)) (l :: (w ++ r :: rest)) ss true rest
      [branch .indexExpr (ss ++ [leaf l] ++ ts ++ [leaf r])] := by
    refine .peek_bind ?_
    rw [frontKind_cons, hl]
    refine .bind (.bump (by simp [hl])) (.bind (h' (by omega) ?_) (.bind (.expect hr (by decide)) ?_))
    · rw [frontKind_cons, hr]
      rfl
    · exact .bind .enclose .pure
  have hreads := h (o := o) (by omega) (.more hround (by simp; omega) (by simpa using hrounds))
  simpa using hreads

theorem BuildsPostfixed.postfixOperator {p : Punct} (h : BuildsPostfixed v w ss) (hp : p ∈ postfixOperators)
    (hl : l.tokenKind = .punct p) : BuildsPostfixed v (w ++ [l]) [branch .postfixExpr (ss ++ [leaf l])] := by
  intro depth rest o L' o' hlen hrounds
  simp only [List.length_append] at hlen
  have hround : Reads v (postfixRound (expressionUpTo depth)) (l :: rest) ss true rest
      [branch .postfixExpr (ss ++ [leaf l])] := by
    refine .peek_bind ?_
    rw [frontKind_cons, hl]
    simp only [postfixOperators, List.mem_cons, List.not_mem_nil, or_false] at hp
    rcases hp with rfl | rfl <;> exact .bind (.bump (by simp [hl])) (.bind .enclose .pure)
  rw [List.append_assoc]
  exact h (by omega) (.more hround (by simp) hrounds)

/-- No round follows a postfix expression where no token continues it. -/
theorem Reads.postfixRound_of_ends {inner : Parse TokenList Unit} {L : List Leaf} {o : List Shape}
    (h : (frontKind L).continuesPostfix = false) : Reads v (Parse.postfixRound inner) L o false L o := by
  refine .peek_bind ?_
  split <;> first | exact .pure | (rename_i heq; rw [heq] at h; cases h)

theorem BuildsPrefixed.unary (hw : Yields .postfixed w ss) (h : BuildsPostfixed v w ss) :
    BuildsPrefixed v w ss := by
  intro depth depth' rest o hlen hlen' hrest
  obtain ⟨depth', rfl⟩ : ∃ n, depth' = n + 1 :=
    Nat.exists_eq_add_of_le' ((List.length_pos_iff.2 (hw.ne_nil (by simp))).trans_le hlen')
  have hstart : startsOperand (frontKind w) = true := hw.starts (by simp)
  have hfront : frontKind (w ++ rest) = frontKind w := frontKind_append (hw.ne_nil (by simp)) _
  refine .peek_bind (.ite_neg ?_ (h hlen (.stop (.postfixRound_of_ends hrest))))
  rw [hfront]
  simpa using ((Bool.and_eq_true _ _).mp hstart).2

theorem BuildsPrefixed.prefixOperator {p : Punct} (hp : p ∈ prefixOperators) (hl : l.tokenKind = .punct p)
    (h : BuildsPrefixed v w ss) : BuildsPrefixed v (l :: w) [branch .prefixExpr (leaf l :: ss)] := by
  intro depth depth' rest o hlen hlen' hrest
  rw [List.length_cons] at hlen hlen'
  obtain ⟨depth', rfl⟩ : ∃ n, depth' = n + 1 := Nat.exists_eq_add_of_le' (Nat.le_of_add_left_le hlen')
  refine .peek_bind (.ite_pos ?_ (.node (.bind (.bump (by simp [hl])) ?_)))
  · rw [List.cons_append, frontKind_cons]
    exact isPrefix_iff.2 ⟨p, hp, hl⟩
  · exact h (o := [leaf l]) (by omega) (by omega) hrest

/-! ### Binary operators -/

/-- A chain of operators of a level, with the rounds behind it or at its end. The operators that the parser
takes are those of the level `least` or tighter, and `levels` bounds how often it goes to a tighter one. -/
structure BuildsBinary (v : LanguageVersion) (level : Nat) (w : List Leaf) (ss : List Shape) : Prop where
  le : level ≤ operatorLevels.length
  rounds : ∀ {d levels least rest o L' o'}, w.length ≤ d + 1 → least ≤ level →
    operatorLevels.length ≤ levels + 1 + least → (frontKind rest).continuesPostfix = false →
    (∀ p, (frontKind rest).precedence? = some p → p ≤ level + 1) →
    Rounds v (binaryRound (expressionUpTo d) levels (least + 1)) rest ss L' o' →
    Reads v (binary (expressionUpTo d) (levels + 1) (least + 1)) (w ++ rest) o () L' (o ++ o')
  ends : ∀ {d levels rest o}, w.length ≤ d + 1 → operatorLevels.length ≤ levels + level →
    (frontKind rest).continuesPostfix = false → (∀ p, (frontKind rest).precedence? = some p → p ≤ level) →
    Reads v (binary (expressionUpTo d) levels (level + 1)) (w ++ rest) o () rest (o ++ ss)

/-- No round follows a chain where no operator continues it. -/
theorem Reads.binaryRound_of_ends {inner : Parse TokenList Unit} {L : List Leaf} {o : List Shape}
    {levels least : Nat} (h : ∀ p, (frontKind L).precedence? = some p → p < least) :
    Reads v (binaryRound inner levels least) L o false L o := by
  refine .peek_bind ?_
  split
  · exact .pure
  · exact .ite_pos (h _ ‹_›) .pure

theorem BuildsBinary.tightest (h : BuildsPrefixed v w ss) :
    BuildsBinary v operatorLevels.length w ss := by
  have hprefixed : ∀ {d rest o}, w.length ≤ d + 1 → (frontKind rest).continuesPostfix = false →
      Reads v (prefixed (expressionUpTo d)) (w ++ rest) o () rest (o ++ ss) :=
    fun hlen hrest => .fix (h hlen (by simp) hrest)
  have hrounds : ∀ {d levels least rest o L' o'}, w.length ≤ d + 1 → (frontKind rest).continuesPostfix = false →
      Rounds v (binaryRound (expressionUpTo d) levels least) rest ss L' o' →
      Reads v (binary (expressionUpTo d) (levels + 1) least) (w ++ rest) o () L' (o ++ o') :=
    fun hlen hrest hrounds => .scope (.bind (hprefixed hlen hrest) hrounds.reads)
  refine ⟨le_rfl, fun hlen _ _ hrest _ => hrounds hlen hrest, ?_⟩
  intro depth levels rest o hlen _ hrest hop
  cases levels with
  | zero => exact hprefixed hlen hrest
  | succ levels =>
    exact hrounds hlen hrest (.stop (.binaryRound_of_ends fun p hp => Nat.lt_succ_of_le (hop p hp)))

/-- The end of a chain is the case where no more rounds follow. -/
theorem BuildsBinary.of_rounds {level : Nat} (hlt : level < operatorLevels.length)
    (h : ∀ {d levels least rest o L' o'}, w.length ≤ d + 1 → least ≤ level →
      operatorLevels.length ≤ levels + 1 + least → (frontKind rest).continuesPostfix = false →
      (∀ p, (frontKind rest).precedence? = some p → p ≤ level + 1) →
      Rounds v (binaryRound (expressionUpTo d) levels (least + 1)) rest ss L' o' →
      Reads v (binary (expressionUpTo d) (levels + 1) (least + 1)) (w ++ rest) o () L' (o ++ o')) :
    BuildsBinary v level w ss := by
  refine ⟨hlt.le, h, ?_⟩
  intro depth levels rest o hlen hlevels hrest hop
  obtain ⟨levels, rfl⟩ : ∃ n, levels = n + 1 := Nat.exists_eq_add_of_le' (by omega)
  refine h hlen le_rfl hlevels hrest (fun p hp => (hop p hp).trans (Nat.le_succ _)) (.stop ?_)
  exact .binaryRound_of_ends fun p hp => Nat.lt_succ_of_le (hop p hp)

theorem BuildsBinary.tighter {level : Nat} (h : BuildsBinary v (level + 1) w ss) : BuildsBinary v level w ss :=
  of_rounds h.le fun hlen hleast hlevels hrest hop hrounds =>
    h.rounds hlen (hleast.trans (Nat.le_succ _)) hlevels hrest (fun p hp => (hop p hp).trans (Nat.le_succ _))
      hrounds

theorem continuesPostfix_of_mem {p : Punct} {level : Nat} (hp : p ∈ operatorsAt level) :
    (TokenKind.punct p).continuesPostfix = false := by
  have hprecedence := mem_operatorsAt.1 hp
  cases p <;> first | rfl | cases hprecedence

theorem BuildsBinary.operation {level : Nat} {p : Punct} (h : BuildsBinary v level u ss)
    (hp : p ∈ operatorsAt level) (hl : l.tokenKind = .punct p) (h' : BuildsBinary v (level + 1) w ts) :
    BuildsBinary v level (u ++ l :: w) [branch .binaryExpr (ss ++ leaf l :: ts)] := by
  refine of_rounds (level_lt_of_mem hp) ?_
  intro depth levels least rest o L' o' hlen hleast hlevels hrest hop hrounds
  simp only [List.length_append, List.length_cons] at hlen
  have hround : Reads v (binaryRound (expressionUpTo depth) levels (least + 1)) (l :: (w ++ rest)) ss true rest
      [branch .binaryExpr (ss ++ [leaf l] ++ ts)] := by
    refine .peek_bind ?_
    rw [frontKind_cons, hl, mem_operatorsAt.1 hp]
    refine .ite_neg (Nat.not_lt_of_le (Nat.succ_le_succ hleast)) (.bind (.bump (by simp [hl])) ?_)
    exact .bind (h'.ends (by omega) (by omega) hrest hop) (.bind .enclose .pure)
  have hcontinues : (frontKind (l :: (w ++ rest))).continuesPostfix = false := by
    rw [frontKind_cons, hl, continuesPostfix_of_mem hp]
  have hreads := h.rounds (o := o) (by omega) hleast hlevels hcontinues (fun q hq => ?_)
    (.more hround (by simp) (by simpa using hrounds))
  · simpa using hreads
  · rw [frontKind_cons, hl, mem_operatorsAt.1 hp] at hq
    exact (Option.some.inj hq).ge

/-! ### Whole expressions -/

theorem ends_expression {k : TokenKind} (h : k.endsExpression = true) :
    k.continuesPostfix = false ∧ k.precedence? = none ∧ k.isAssignment = false := by
  cases k with
  | punct p => cases p <;> simp_all [TokenKind.endsExpression, TokenKind.continuesPostfix, TokenKind.precedence?,
      TokenKind.isAssignment]
  | _ => exact ⟨rfl, rfl, rfl⟩

theorem of_isAssignment {k : TokenKind} (h : k.isAssignment = true) :
    k.continuesPostfix = false ∧ k.precedence? = none := by
  cases k with
  | punct p => cases p <;> simp_all [TokenKind.isAssignment, TokenKind.continuesPostfix, TokenKind.precedence?]
  | _ => exact ⟨rfl, rfl⟩

theorem BuildsExpression.value (hw : Yields (.binary 0) w ss) (h : BuildsBinary v 0 w ss) :
    BuildsExpression v w ss := by
  intro depth rest o hlen hrest
  obtain ⟨depth, rfl⟩ : ∃ n, depth = n + 1 :=
    Nat.exists_eq_add_of_le' ((List.length_pos_iff.2 (hw.ne_nil (by simp))).trans_le hlen)
  obtain ⟨hcontinues, hop, hassign⟩ := ends_expression hrest
  refine .scope (.bind (h.ends hlen le_rfl hcontinues (by simp [hop])) (.peek_bind (.ite_neg ?_ .pure)))
  simp [hassign]

theorem BuildsExpression.assignment {p : Punct} (h : BuildsBinary v 0 u ss) (hp : p ∈ assignmentOperators)
    (hl : l.tokenKind = .punct p) (h' : BuildsExpression v w ts) :
    BuildsExpression v (u ++ l :: w) [branch .assignExpr (ss ++ leaf l :: ts)] := by
  intro depth rest o hlen hrest
  simp only [List.length_append, List.length_cons] at hlen
  obtain ⟨depth, rfl⟩ : ∃ n, depth = n + 1 := Nat.exists_eq_add_of_le' (by omega)
  have hfront : (frontKind (l :: (w ++ rest))).isAssignment = true := isAssignment_iff.2 ⟨p, hp, hl⟩
  obtain ⟨hcontinues, hop⟩ := of_isAssignment hfront
  have hbody : Reads v (expressionUpTo (depth + 1)) (u ++ l :: (w ++ rest)) o () rest
      (o ++ [branch .assignExpr (ss ++ [leaf l] ++ ts)]) := by
    refine .scope (.bind (h.ends (by omega) le_rfl hcontinues (by rw [hop]; exact nofun)) ?_)
    refine .peek_bind (.ite_pos hfront ?_)
    exact .bind (.bump (by simp [hl])) (.bind (h' (by omega) hrest) .enclose)
  simpa using hbody

theorem BuildsExpression.expression (h : BuildsExpression v w ss) {rest : List Leaf} {o : List Shape}
    (hrest : (frontKind rest).endsExpression = true) : Reads v expression (w ++ rest) o () rest (o ++ ss) :=
  .fix (h (by simp) hrest)

end Expressions

end Parse

end IncrementalSyntax

import IncrementalSyntax.Proofs.Grammar.StepsExpressions

/-!
# Statements and members are made of steps

Statements stand where the open lists are those around them in the tree: a block opens its list between its braces and
closes it again. A member is closed long after its first token. Its modifiers may stand anywhere, and only behind them
does it turn out which list the member stands around.

## Main results

* `Parse.Goes.statement`, `Parse.Goes.member`: statements and members
* `Parse.steps_atEnd`: all that stands below the root
-/

namespace IncrementalSyntax

namespace Parse

open Green hiding id

variable {version : LanguageVersion} {σ : Type} [TokenSource σ] {S : Supply version σ}
variable {around : Surroundings} {n : Nat} {pre : List Leaf → Prop} {i e : Parse σ Unit}

namespace Goes

/-! ## Simple statements -/

theorem expression : Goes S around n pre Parse.expression := Operand.expression.goes

theorem declarators : Goes S around n pre Parse.declarators := by
  refine commas (node rfl rfl (bind (expect (by decide)) fun _ => ?_))
  exact bind (eat (by decide)) fun _ => ite (fun _ => expression) fun _ => pure

theorem localDeclaration : Goes S around n pre Parse.localDeclaration :=
  node rfl rfl (bind type fun _ => bind declarators fun _ => expect (by decide))

theorem expressionStatement : Goes S around n pre Parse.expressionStatement :=
  node rfl rfl (bind expression fun _ => expect (by decide))

theorem condition : Goes S around n pre Parse.condition :=
  bind (expect (by decide)) fun _ => bind expression fun _ => expect (by decide)

theorem jump {kind : NodeKind} (hordinary : kind.isOrdinary = true) (hlist : kind.list? = none)
    (hpre : ∀ L, pre L → frontKind L ≠ .eof) : Goes S around n pre (Parse.jump kind) :=
  node hordinary hlist (bump_seq hpre (expect (by decide)))

theorem returnStatement (hpre : ∀ L, pre L → frontKind L ≠ .eof) : Goes S around n pre Parse.returnStatement := by
  refine node rfl rfl (bump_seq hpre (peek_bind fun k => ite (fun _ => ?_) fun _ => expect (by decide)))
  exact bind expression fun _ => expect (by decide)

/-! ## Statements around others -/

theorem embedded (h : Goes S around n anything i) : Goes S around n pre (Parse.embedded i) :=
  peek_bind fun _ => ite (fun _ => of_anything h) fun _ => expressionStatement

/-- A conditional is closed behind its `else`, or where no `else` comes. -/
theorem branchesRest (he : Goes S around n anything e) : Goes S around n pre (Parse.branchesRest e) := by
  intro p lists hp har _ hlen
  by_cases hfront : front S p = .keyword .elseKw
  · have hclause : Goes S around n (fun L => frontKind L = .keyword .elseKw)
        (Parse.node .elseClause (do Parse.bump; e)) :=
      node rfl rfl (bump_seq (fun L hL => hL ▸ by decide) (he.mono (fun _ _ => id) (fun _ => id) (Nat.sub_le _ _)))
    rw [branchesRest_of_eq hp hfront]
    refine (hclause p lists hp har hfront hlen).trans (.enclose_special rfl (by decide) (fun _ => .inl ?_) ?_ _)
    · exact getLast?_elseClause p
    · exact trivial
  · rw [branchesRest_of_ne hp hfront]
    refine .enclose_special rfl (by decide) (fun _ => .inr hfront) ?_ _
    exact trivial

theorem ifStatement (hpre : ∀ L, pre L → frontKind L ≠ .eof) (h : Goes S around (n - 1) anything i) :
    Goes S around n pre (Parse.ifStatement i) := by
  rw [ifStatement_eq]
  refine scope (bump_seq hpre (bind condition fun _ => bind (embedded h) fun _ => ?_))
  exact branchesRest (embedded h)

theorem whileStatement (hpre : ∀ L, pre L → frontKind L ≠ .eof) (h : Goes S around (n - 1) anything i) :
    Goes S around n pre (Parse.whileStatement i) :=
  node rfl rfl (bump_seq hpre (bind condition fun _ => embedded h))

/-- One round of a list whose elements stand where the open lists do. -/
theorem listRound {stops starts : TokenKind → Bool} (h : Goes S (Around none) n anything i) :
    Goes S (Around none) n pre (Parse.listRound stops starts i) := by
  refine peek_bind fun k => ite (fun _ => pure) fun _ => ite (fun _ => ?_) fun _ => skipToRecovery
  exact bind (of_anything h) fun _ => pure

theorem blockOf (h : Goes S (Around none) n anything i) : Goes S (Around none) n pre (Parse.blockOf i) := by
  refine list rfl (bind (expect (by decide)) fun _ => bind (within (loop ?_)) fun _ => expect (by decide))
  exact blockRound_eq i ▸ listRound h

theorem statementBody (h : Goes S (Around none) n anything i) : Goes S (Around none) n pre (Parse.statementBody i) := by
  have hless : Goes S (Around none) (n - 1) anything i := h.mono (fun _ _ => id) (fun _ => id) (Nat.sub_le _ _)
  have hne : ∀ {k : TokenKind}, k ≠ .eof → ∀ L, pre L ∧ frontKind L = k → frontKind L ≠ .eof :=
    fun hk L hL => hL.2 ▸ hk
  rw [statementBody_eq]
  refine peek_bind fun k => ?_
  unfold statementAt
  split
  · exact blockOf h
  · exact single rfl rfl (hne (by decide))
  · exact ifStatement (hne (by decide)) hless
  · exact whileStatement (hne (by decide)) hless
  · exact returnStatement (hne (by decide))
  · exact jump rfl rfl (hne (by decide))
  · exact jump rfl rfl (hne (by decide))
  · exact localDeclaration
  · exact look (fun _ => rfl) fun _ => ite (fun _ => localDeclaration) fun _ => expressionStatement
  · exact expressionStatement

theorem statement : Goes S (Around none) n pre Parse.statement :=
  fix_of_step fun _ hi => reuseOr (fun k hk => by simp [hk]) (statementBody hi)

theorem block : Goes S (Around none) n pre Parse.block := by
  refine reuseOr (fun k hk => ?_) (blockOf statement)
  obtain rfl := of_decide_eq_true hk
  rfl

/-! ## Members -/

theorem parameterList : Goes S around n pre Parse.parameterList := by
  have hparameter : Goes S around n anything Parse.parameter := node rfl rfl (bind type fun _ => expect (by decide))
  refine node rfl rfl (bind (expect (by decide)) fun _ => peek_bind fun k => ite (fun _ => ?_) fun _ => ?_)
  · exact bind (commas hparameter) fun _ => expect (by decide)
  · exact expect (by decide)

theorem baseList (hpre : ∀ L, pre L → frontKind L ≠ .eof) : Goes S around n pre Parse.baseList :=
  node rfl rfl (bump_seq hpre (commas type))

theorem memberBody {context : ListContext} (h : Goes S (Around none) n anything i) :
    Goes S (Around (some context)) n pre (Parse.memberBody i context) := by
  refine bind (expect (by decide)) fun _ => bind (within (loop ?_)) fun _ => expect (by decide)
  exact memberRound_eq i _ ▸ listRound h

end Goes

namespace Ends

theorem bump_seq {f : Parse σ Unit} (hpre : ∀ L, pre L → frontKind L ≠ .eof) (hf : Ends S n anything f) :
    Ends S n pre (do bump; f) :=
  seq (.bump hpre) fun _ => hf

theorem methodOrField : Ends S n pre Parse.methodOrField := by
  refine peek_bind fun k => look (fun _ => rfl) fun k' => ite (fun hk => ?_) fun _ => ?_
  · simp only [Bool.and_eq_true, decide_eq_true_eq] at hk
    refine bump_seq (fun L hL => hL.2 ▸ hk.1 ▸ by decide) (seq .parameterList fun _ => look (fun _ => rfl) fun b => ?_)
    exact ite (fun _ => enclose rfl .block) fun _ => enclose rfl (.expect (by decide))
  · exact seq .declarators fun _ => enclose rfl (.expect (by decide))

theorem usingDirective (hpre : ∀ L, pre L → frontKind L ≠ .eof) : Ends S n pre Parse.usingDirective :=
  bump_seq hpre (seq .name fun _ => enclose rfl (.expect (by decide)))

theorem typeDeclaration {kind : NodeKind} (hlist : kind.list? = some .typeBody) (hpre : ∀ L, pre L → frontKind L ≠ .eof)
    (h : Goes S (Around none) n anything i) : Ends S n pre (Parse.typeDeclaration i kind) := by
  have hbody : ∀ {pre}, Ends S n pre (do Parse.memberBody i .typeBody; Parse.enclose kind) :=
    enclose (NodeKind.isOrdinary_of_list? hlist) (hlist ▸ .memberBody h)
  refine bump_seq hpre (seq (.expect (by decide)) fun _ => isAt_bind fun b => ?_)
  cases b with
  | false => exact hbody
  | true => exact seq (.baseList fun L hL => of_decide_eq_true hL.2 ▸ by decide) fun _ => hbody

theorem namespaceDeclaration (hpre : ∀ L, pre L → frontKind L ≠ .eof) (h : Goes S (Around none) n anything i) :
    Ends S n pre (Parse.namespaceDeclaration i) :=
  bump_seq hpre (seq .name fun _ => enclose rfl (.memberBody h))

/-- What an incomplete member lacks is made up before it is closed. -/
theorem incompleteMember : Ends S n pre (do missing .ident .typeExpected; Parse.enclose .incompleteMember) := by
  intro p _ _ _
  have hmissing : Steps S p.contexts p p.contexts (missing .ident .typeExpected p).2 := .missing .ident rfl
  refine ⟨none, hmissing.trans (.enclose_special rfl (by decide) (fun hif => by cases hif) ?_ _)⟩
  rw [missing_apply]
  exact ⟨_, List.mem_append_right _ (List.mem_singleton_self _), rfl⟩

/-- Which list stands around a member turns out at its first token behind the modifiers. -/
theorem memberTail (h : Goes S (Around none) n anything i) : Ends S n pre (Parse.memberTail i) := by
  have hne : ∀ {k : TokenKind}, k ≠ .eof → ∀ L, pre L ∧ frontKind L = k → frontKind L ≠ .eof :=
    fun hk L hL => hL.2 ▸ hk
  rw [memberTail_eq]
  refine peek_bind fun k => ?_
  unfold tailAt
  split
  · exact usingDirective (hne (by decide))
  · exact namespaceDeclaration (hne (by decide)) h
  · exact typeDeclaration rfl (hne (by decide)) h
  · exact typeDeclaration rfl (hne (by decide)) h
  · exact typeDeclaration rfl (hne (by decide)) h
  · exact seq .type fun _ => methodOrField
  · refine look (fun _ => rfl) fun b => ite (fun _ => typeDeclaration rfl (hne (by decide)) h) fun _ => ?_
    exact seq .type fun _ => methodOrField
  · exact incompleteMember

end Ends

namespace Goes

theorem memberOf (h : Goes S (Around none) n anything i) : Goes S (Around none) n pre (Parse.memberOf i) := by
  -- modifiers skip nothing, so it does not matter which list their node will have
  have hround : Goes S Anywhere n anything (modifierRound : Parse σ Bool) := by
    refine peek_bind fun k => ite (fun hk => bump_seq (fun L hL => ?_) pure) fun _ => pure
    exact hL.2 ▸ ne_eof_of_closes (closes_of_isModifier hk)
  exact Ends.scope (.seq (loop hround) fun _ => .memberTail h)

theorem member : Goes S (Around none) n pre Parse.member :=
  fix_of_step fun _ hi => reuseOr (fun k hk => by simp [hk]) (memberOf hi)

/-! ## Whole texts -/

theorem members : Goes S (Around (some .compilationUnit)) n pre Parse.members := by
  refine within (loop ?_)
  rw [memberRound_eq]
  exact listRound member

theorem fragment {starts : TokenKind → Bool} (h : Goes S (Around none) n anything i) :
    Goes S (Around none) n pre (do ifStarts starts i; let _ ← Parse.skipToRecovery) := by
  refine bind (peek_bind fun k => ite (fun _ => of_anything h) fun _ => pure) fun _ => bind skipToRecovery fun _ => pure

end Goes

/-- All that stands below the root is made of steps. The list of a file stands around it, and no list around a
fragment. -/
theorem steps_atEnd {s : σ} (h : S.Ok s) (entry : EntryPoint) :
    Steps S (rootKind entry).list?.toList (.start version s) (rootKind entry).list?.toList
      (.atEnd version entry s) := by
  have hready := ready_start h
  have hfragment : ∀ {starts : TokenKind → Bool} {i : Parse σ Unit},
      (∀ n, Goes S (Around none) n anything i) →
        Steps S [] (.start version s) []
          ((do ifStarts starts i; let _ ← skipToRecovery : Parse σ Unit) (.start version s)).2 := by
    intro starts i hi
    have hgoes : Goes S (Around none) (S.upcoming s).length anything
        (do ifStarts starts i; let _ ← skipToRecovery) := .fragment (hi _)
    exact hgoes _ _ hready rfl trivial le_rfl
  cases entry with
  | compilationUnit =>
    have hmembers : Goes S (Around (some .compilationUnit)) (S.upcoming s).length anything members := .members
    exact hmembers _ _ hready rfl trivial le_rfl
  | member => exact hfragment fun _ => .member
  | statement => exact hfragment fun _ => .statement
  | expression => exact hfragment fun _ => .expression

end Parse

end IncrementalSyntax

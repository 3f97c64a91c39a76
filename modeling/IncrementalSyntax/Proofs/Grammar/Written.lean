import IncrementalSyntax.Proofs.Grammar.Yield

/-!
# What is written has trees

Whatever the grammar can write has trees, although the trees leave out some of the ways to derive it. Where
an `else` stands behind an open-ended statement, the innermost conditional takes it, and the outer one
stays without. A name in an expression is a member of what stands in front of its last point.

A production says of what kinds its tokens are, part by part, and so leaves of these kinds fall into parts. The parts
of a production are put together as the production is, and each part is given by the leaves that it can be.

## Main definitions

* `Over`: what holds of all leaves of some kinds
* `Phrase.HasTrees`: trees for a phrase over given leaves

## Main results

* `Yields.exists_else`: an `else` behind an open-ended statement
* `Derives.hasTrees`: what is written has trees
-/

namespace IncrementalSyntax

/-! ## Leaves of some kinds -/

/-- **Over.** All leaves that have these kinds, one by one, have the property. -/
def Over (ks : List TokenKind) (P : List Leaf → Prop) : Prop := ∀ ⦃w : List Leaf⦄, w.map Leaf.tokenKind = ks → P w

namespace Over

variable {ks ls : List TokenKind} {P Q : List Leaf → Prop} {k k' : TokenKind}

theorem token : Over [k] fun w => ∃ l, w = [l] ∧ l.tokenKind = k := by
  intro w hw
  obtain ⟨l, rfl, hl⟩ := List.map_eq_singleton_iff.1 hw
  exact ⟨l, rfl, hl⟩

/-- One part behind the other. -/
theorem append (h : Over ks P) (h' : Over ls Q) : Over (ks ++ ls) fun w => ∃ u v, w = u ++ v ∧ P u ∧ Q v := by
  intro w hw
  obtain ⟨u, v, rfl, hu, hv⟩ := List.map_eq_append_iff.1 hw
  exact ⟨u, v, rfl, h hu, h' hv⟩

/-- A part behind a token. -/
theorem cons (h : Over ks P) : Over (k :: ks) fun w => ∃ l u, w = l :: u ∧ l.tokenKind = k ∧ P u := by
  intro w hw
  obtain ⟨l, u, rfl, hl, hu⟩ := List.map_eq_cons_iff.1 hw
  exact ⟨l, u, rfl, hl, h hu⟩

/-- Two tokens. -/
theorem pair : Over [k, k'] fun w => ∃ l r, w = [l, r] ∧ l.tokenKind = k ∧ r.tokenKind = k' := by
  intro w hw
  obtain ⟨l, u, rfl, hl, r, rfl, hr⟩ := cons token hw
  exact ⟨l, r, rfl, hl, hr⟩

/-- A part in front of a token. -/
theorem snoc (h : Over ks P) : Over (ks ++ [k]) fun w => ∃ u r, w = u ++ [r] ∧ P u ∧ r.tokenKind = k := by
  intro w hw
  obtain ⟨u, v, rfl, hu, r, rfl, hr⟩ := h.append token hw
  exact ⟨u, r, rfl, hu, hr⟩

/-- A part between two tokens. -/
theorem enclosed (h : Over ks P) : Over (k :: (ks ++ [k'])) fun w =>
    ∃ l u r, w = l :: (u ++ [r]) ∧ l.tokenKind = k ∧ P u ∧ r.tokenKind = k' := by
  intro w hw
  obtain ⟨l, z, rfl, hl, u, r, rfl, hu, hr⟩ := h.snoc.cons hw
  exact ⟨l, u, r, rfl, hl, hu, hr⟩

/-- Two parts with a token between them. -/
theorem separated (h : Over ks P) (h' : Over ls Q) : Over (ks ++ k :: ls) fun w =>
    ∃ u d v, w = u ++ d :: v ∧ P u ∧ d.tokenKind = k ∧ Q v := by
  intro w hw
  obtain ⟨u, z, rfl, hu, d, v, rfl, hd, hv⟩ := h.append h'.cons hw
  exact ⟨u, d, v, rfl, hu, hd, hv⟩

/-- A part in parentheses behind a keyword, and another part behind it. -/
theorem guarded (h : Over ks P) (h' : Over ls Q) {i l r : TokenKind} : Over (i :: l :: (ks ++ r :: ls)) fun w =>
    ∃ a b u c v, w = a :: b :: (u ++ c :: v) ∧ a.tokenKind = i ∧ b.tokenKind = l ∧ P u ∧ c.tokenKind = r ∧ Q v := by
  intro w hw
  obtain ⟨a, z, rfl, ha, b, y, rfl, hb, u, c, v, rfl, hu, hc, hv⟩ := (h.separated h').cons.cons hw
  exact ⟨a, b, u, c, v, rfl, ha, hb, hu, hc, hv⟩

end Over

/-! ## Trees -/

namespace Yields

/-- An open-ended statement takes an `else` and the statement behind it. -/
theorem exists_else {w z : List Leaf} {ss us : List Shape} {e : Leaf} {b : Bool}
    (h : Yields (.statement true) w ss) (he : e.tokenKind = .keyword .elseKw)
    (hz : Yields (.statement b) z us) : ∃ b' ts, Yields (.statement b') (w ++ e :: z) ts := by
  generalize hform : Form.statement true = form at h
  induction h with
  | @ifThen _ _ _ v w _ _ openEnded hi hl h hr h' ih ih' =>
    simp only [List.cons_append, List.append_assoc]
    cases openEnded with
    | false => exact ⟨_, _, .ifElse hi hl h hr h' he hz⟩
    | true =>
      obtain ⟨_, _, hinner⟩ := ih' rfl
      exact ⟨_, _, .ifThen hi hl h hr hinner⟩
  | ifElse hi hl h hr h' he' h'' ih ih' ih'' =>
    obtain ⟨_, _, hinner⟩ := ih'' hform
    simp only [List.cons_append, List.append_assoc]
    exact ⟨_, _, .ifElse hi hl h hr h' he' hinner⟩
  | whileDo hi hl h hr h' ih ih' =>
    obtain ⟨_, _, hinner⟩ := ih' hform
    simp only [List.cons_append, List.append_assoc]
    exact ⟨_, _, .whileDo hi hl h hr hinner⟩
  | _ => cases hform

/-- A conditional with any statements in it. -/
theorem exists_ifElse {u v w : List Leaf} {ss ts us : List Shape} {e i l r : Leaf} {b b' : Bool}
    (hi : i.tokenKind = .keyword .ifKw) (hl : l.tokenKind = .punct .lParen) (h : Yields .expression u ss)
    (hr : r.tokenKind = .punct .rParen) (h' : Yields (.statement b) v ts)
    (he : e.tokenKind = .keyword .elseKw) (h'' : Yields (.statement b') w us) :
    ∃ b us, Yields (.statement b) (i :: l :: (u ++ r :: (v ++ e :: w))) us := by
  cases b with
  | false => exact ⟨_, _, .ifElse hi hl h hr h' he h''⟩
  | true =>
    obtain ⟨_, _, hinner⟩ := h'.exists_else he h''
    exact ⟨_, _, .ifThen hi hl h hr hinner⟩

end Yields

/-- **Trees for a phrase.** A primary expression may turn out to be a longer one, since a name in it is read
as members of its first identifier. -/
def Phrase.HasTrees : Phrase → List Leaf → Prop
  | .name, w => (∃ ss, Yields .name w ss) ∧ ∃ ss, Yields .postfixed w ss
  | .type, w => ∃ ss, Yields .type w ss
  | .arguments, w => ∃ ss, Yields .arguments w ss
  | .argumentList, w => ∃ ss, Yields .argumentList w ss
  | .primary, w | .postfixed, w => ∃ ss, Yields .postfixed w ss
  | .prefixed, w => ∃ ss, Yields .prefixed w ss
  | .binary level, w => ∃ ss, Yields (.binary level) w ss
  | .expression, w => ∃ ss, Yields .expression w ss
  | .declarator, w => ∃ ss, Yields .declarator w ss
  | .declarators, w => ∃ ss, Yields .declarators w ss
  | .statement, w => ∃ b ss, Yields (.statement b) w ss
  | .statements, w => ∃ ss, Yields .statements w ss

theorem isConstant_of_mem {k : Keyword} (h : k ∈ [Keyword.trueKw, .falseKw, .nullKw]) :
    (TokenKind.keyword k).isConstant = true := by
  simp only [List.mem_cons, List.not_mem_nil, or_false] at h
  rcases h with rfl | rfl | rfl <;> rfl

/-- **What is written has trees.** -/
theorem Derives.hasTrees {phrase : Phrase} {ks : List TokenKind} (h : Derives phrase ks) : Over ks phrase.HasTrees := by
  induction h with intro w hw
  | ident =>
    obtain ⟨l, rfl, hl⟩ := Over.token hw
    exact ⟨⟨_, .ident hl⟩, _, .operand (.reference hl)⟩
  | dotted _ ih =>
    obtain ⟨u, _, rfl, ⟨⟨_, hname⟩, _, hmember⟩, d, l, rfl, hd, hl⟩ := ih.append .pair hw
    exact ⟨⟨_, .dotted hname hd hl⟩, _, .memberAccess hmember hd hl⟩
  | builtin b =>
    obtain ⟨l, rfl, hl⟩ := Over.token hw
    exact ⟨_, .builtin hl⟩
  | named _ ih =>
    obtain ⟨⟨_, hname⟩, -⟩ := ih hw
    exact ⟨_, .named hname⟩
  | array _ ih =>
    obtain ⟨u, _, rfl, ⟨_, htype⟩, l, r, rfl, hl, hr⟩ := ih.append .pair hw
    exact ⟨_, .array htype hl hr⟩
  | argument _ ih =>
    obtain ⟨_, hexpression⟩ := ih hw
    exact ⟨_, .argument hexpression⟩
  | nextArgument _ _ ih ih' =>
    obtain ⟨u, d, v, rfl, ⟨_, hexpression⟩, hd, _, harguments⟩ := ih.separated ih' hw
    exact ⟨_, .nextArgument hexpression hd harguments⟩
  | noArguments =>
    obtain ⟨l, r, rfl, hl, hr⟩ := Over.pair hw
    exact ⟨_, .noArguments hl hr⟩
  | inParens _ ih =>
    obtain ⟨l, u, r, rfl, hl, ⟨_, harguments⟩, hr⟩ := ih.enclosed hw
    exact ⟨_, .inParens hl harguments hr⟩
  | literal c =>
    obtain ⟨l, rfl, hl⟩ := Over.token hw
    exact ⟨_, .operand (.constant (by simp [hl, TokenKind.isLiteral]))⟩
  | constant hk =>
    obtain ⟨l, rfl, hl⟩ := Over.token hw
    exact ⟨_, .operand (.constant (by simp [hl, isConstant_of_mem hk]))⟩
  | reference _ ih => exact (ih hw).2
  | thisObject =>
    obtain ⟨l, rfl, hl⟩ := Over.token hw
    exact ⟨_, .operand (.thisObject hl)⟩
  | paren _ ih =>
    obtain ⟨l, u, r, rfl, hl, ⟨_, hexpression⟩, hr⟩ := ih.enclosed hw
    exact ⟨_, .operand (.paren hl hexpression hr)⟩
  | creation _ _ ih ih' =>
    obtain ⟨l, _, rfl, hl, u, v, rfl, ⟨_, htype⟩, _, harguments⟩ := (ih.append ih').cons hw
    exact ⟨_, .operand (.creation hl htype harguments)⟩
  | operand _ ih => exact ih hw
  | call _ _ ih ih' =>
    obtain ⟨u, v, rfl, ⟨_, hcallee⟩, _, harguments⟩ := ih.append ih' hw
    exact ⟨_, .call hcallee harguments⟩
  | memberAccess _ ih =>
    obtain ⟨u, _, rfl, ⟨_, hobject⟩, d, l, rfl, hd, hl⟩ := ih.append .pair hw
    exact ⟨_, .memberAccess hobject hd hl⟩
  | index _ _ ih ih' =>
    obtain ⟨u, _, rfl, ⟨_, hobject⟩, l, v, r, rfl, hl, ⟨_, hindex⟩, hr⟩ := ih.append ih'.enclosed hw
    exact ⟨_, .index hobject hl hindex hr⟩
  | postfixOperator _ hp ih =>
    obtain ⟨u, l, rfl, ⟨_, hoperand⟩, hl⟩ := ih.snoc hw
    exact ⟨_, .postfixOperator hoperand hp hl⟩
  | unary _ ih =>
    obtain ⟨_, hoperand⟩ := ih hw
    exact ⟨_, .unary hoperand⟩
  | prefixOperator _ hp ih =>
    obtain ⟨l, u, rfl, hl, _, hoperand⟩ := ih.cons hw
    exact ⟨_, .prefixOperator hp hl hoperand⟩
  | tightest _ ih =>
    obtain ⟨_, hoperand⟩ := ih hw
    exact ⟨_, .tightest hoperand⟩
  | tighter _ ih =>
    obtain ⟨_, hchain⟩ := ih hw
    exact ⟨_, .tighter hchain⟩
  | operation _ hp _ ih ih' =>
    obtain ⟨u, l, v, rfl, ⟨_, hleft⟩, hl, _, hright⟩ := ih.separated ih' hw
    exact ⟨_, .operation hleft hp hl hright⟩
  | value _ ih =>
    obtain ⟨_, hchain⟩ := ih hw
    exact ⟨_, .value hchain⟩
  | assignment _ hp _ ih ih' =>
    obtain ⟨u, l, v, rfl, ⟨_, htarget⟩, hl, _, hvalue⟩ := ih.separated ih' hw
    exact ⟨_, .assignment htarget hp hl hvalue⟩
  | uninitialized =>
    obtain ⟨l, rfl, hl⟩ := Over.token hw
    exact ⟨_, .uninitialized hl⟩
  | initialized _ ih =>
    obtain ⟨l, _, rfl, hl, d, u, rfl, hd, _, hvalue⟩ := ih.cons.cons hw
    exact ⟨_, .initialized hl hd hvalue⟩
  | declared _ ih =>
    obtain ⟨_, hdeclarator⟩ := ih hw
    exact ⟨_, .declared hdeclarator⟩
  | nextDeclared _ _ ih ih' =>
    obtain ⟨u, d, v, rfl, ⟨_, hdeclarator⟩, hd, _, hdeclarators⟩ := ih.separated ih' hw
    exact ⟨_, .nextDeclared hdeclarator hd hdeclarators⟩
  | noStatements =>
    obtain rfl := List.map_eq_nil_iff.1 hw
    exact ⟨_, .noStatements⟩
  | nextStatement _ _ ih ih' =>
    obtain ⟨u, v, rfl, ⟨_, _, hstatement⟩, _, hstatements⟩ := ih.append ih' hw
    exact ⟨_, .nextStatement hstatement hstatements⟩
  | block _ ih =>
    obtain ⟨l, u, r, rfl, hl, ⟨_, hstatements⟩, hr⟩ := ih.enclosed hw
    exact ⟨_, _, .block hl hstatements hr⟩
  | emptyStatement =>
    obtain ⟨l, rfl, hl⟩ := Over.token hw
    exact ⟨_, _, .emptyStatement hl⟩
  | ifThen _ _ ih ih' =>
    obtain ⟨i, l, u, r, v, rfl, hi, hl, ⟨_, hcondition⟩, hr, _, _, hthen⟩ := ih.guarded ih' hw
    exact ⟨_, _, .ifThen hi hl hcondition hr hthen⟩
  | ifElse _ _ _ ih ih' ih'' =>
    obtain ⟨i, l, u, r, _, rfl, hi, hl, ⟨_, hcondition⟩, hr, v, e, z, rfl, ⟨_, _, hthen⟩, he, _, _, helse⟩ :=
      ih.guarded (ih'.separated ih'') hw
    exact Yields.exists_ifElse hi hl hcondition hr hthen he helse
  | whileDo _ _ ih ih' =>
    obtain ⟨i, l, u, r, v, rfl, hi, hl, ⟨_, hcondition⟩, hr, _, _, hbody⟩ := ih.guarded ih' hw
    exact ⟨_, _, .whileDo hi hl hcondition hr hbody⟩
  | returnNone =>
    obtain ⟨i, r, rfl, hi, hr⟩ := Over.pair hw
    exact ⟨_, _, .returnNone hi hr⟩
  | returnValue _ ih =>
    obtain ⟨i, u, r, rfl, hi, ⟨_, hvalue⟩, hr⟩ := ih.enclosed hw
    exact ⟨_, _, .returnValue hi hvalue hr⟩
  | breakLoop =>
    obtain ⟨i, r, rfl, hi, hr⟩ := Over.pair hw
    exact ⟨_, _, .breakLoop hi hr⟩
  | continueLoop =>
    obtain ⟨i, r, rfl, hi, hr⟩ := Over.pair hw
    exact ⟨_, _, .continueLoop hi hr⟩
  | declaration _ _ ih ih' =>
    obtain ⟨u, _, rfl, ⟨_, htype⟩, v, r, rfl, ⟨_, hdeclarators⟩, hr⟩ := ih.append ih'.snoc hw
    exact ⟨_, _, .declaration htype hdeclarators hr⟩
  | expressionStatement _ ih =>
    obtain ⟨u, r, rfl, ⟨_, hexpression⟩, hr⟩ := ih.snoc hw
    exact ⟨_, _, .expressionStatement hexpression hr⟩

end IncrementalSyntax

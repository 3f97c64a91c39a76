import IncrementalSyntax.Proofs.Grammar.Expressions
import IncrementalSyntax.Proofs.Grammar.Lists
import IncrementalSyntax.Proofs.Grammar.Replay

/-!
# Statements keep to their tokens

A statement ends with a semicolon or a brace, and no statement looks past that token, except for a
conditional, which looks for an `else`. The contracts of this module are relative to a contract for the
statements further inside.

## Main definitions

* `Parse.elseOf`, `Parse.branchesRest`: a conditional behind its first statement
* `Parse.Contract.braces`: the contract of a block in front of its opening brace
* `Parse.statementAt`: a statement whose first token is known

## Main results

* `Parse.Meets.branches`: conditionals, with an `else` or without
* `Parse.Meets.blockOf`: blocks
* `Parse.Meets.statementBody`: statements
-/

namespace IncrementalSyntax

namespace Parse

open Green hiding id

variable {version : LanguageVersion} {σ : Type} [TokenSource σ] {S : Supply version σ} {M : Mode}
variable {n : Nat} {P : List Leaf → Prop} {i₁ e₁ : Parse σ Unit} {i₂ e₂ : Parse TokenList Unit}

/-! ## Simple statements -/

namespace Meets

/-- Something and the semicolon behind it. -/
theorem then_semicolon {C : Contract Unit} {m₁ : Parse σ Unit} {m₂ : Parse TokenList Unit}
    (h : Meets S M C n m₁ m₂) (hpost : ∀ L, C.post () L) (houter : ¬ C.outer) (hwhole : C.whole) :
    Meets S M { C with outer := True } n (do m₁; Parse.expect (.punct .semicolon))
      (do m₂; Parse.expect (.punct .semicolon)) :=
  bind h (fun _ => (expect_outer rfl (by decide)).mono (fun _ _ => trivial) (fun _ _ _ => hpost _)
    (fun _ => by simp) .rfl (fun _ => trivial) (Nat.sub_le _ _)) (fun _ => id) houter hwhole

theorem declarator : Meets S M {} n declarator declarator := by
  refine node (bind (expect rfl) (fun _ => ?_) (fun _ => id) id trivial) trivial (by decide) rfl
  refine bind (eat (P := fun _ => True) rfl) (fun b => ?_) (fun _ => id) id trivial
  cases b with
  | false => exact pure (fun _ _ => trivial) rfl id
  | true => exact expression.mono (fun _ _ => trivial) (fun _ _ => id) (fun _ => by simp) .rfl id le_rfl

theorem declarators : Meets S M {} n declarators declarators := commas declarator

theorem localDeclaration (b : Bool) :
    Meets S M { Contract.unit TokenKind.startsType b with whole := False } n localDeclaration
      localDeclaration :=
  unit_node (then_semicolon (followed (typeOf b) declarators (fun _ => trivial) id trivial)
    (fun _ => trivial) id trivial) trivial (by decide)

theorem expressionStatement (b : Bool) :
    Meets S M { Contract.unit TokenKind.startsExpression b with whole := False } n expressionStatement
      expressionStatement :=
  unit_node (then_semicolon (expressionOf b) (fun _ => trivial) id trivial) trivial (by decide)

theorem condition : Meets S M {} n condition condition :=
  bind (expect rfl) (fun _ => bind expression (fun _ => expect rfl) (fun _ => id) id trivial)
    (fun _ => id) id trivial

theorem jump {kind : NodeKind} {k : TokenKind} (hk : k.closes = false) (hif : kind ≠ .ifStmt) :
    Meets S M { pre := fun L => frontKind L = k ∧ P L, taken := fun _ => 1, outer := True, whole := False } n
      (jump kind) (jump kind) :=
  unit_node (then_semicolon (bump_kind hk) (fun _ => trivial) id trivial) trivial hif

theorem returnStatement {k : TokenKind} (hk : k.closes = false) :
    Meets S M { pre := fun L => frontKind L = k ∧ P L, taken := fun _ => 1, outer := True, whole := False } n
      returnStatement returnStatement := by
  refine unit_node (C := { pre := fun L => frontKind L = k ∧ P L, taken := fun _ => 1, outer := True })
    ?_ trivial (by decide)
  refine bind (bump_kind hk) (fun _ => peek_bind fun k' => ?_) (fun _ => id) id trivial
  by_cases hk' : k'.startsExpression = true
  · simp only [hk', if_true]
    exact bind expression (fun _ => expect_outer rfl (by decide)) (fun _ _ => trivial) id trivial
  · simp only [hk']
    exact (expect_outer rfl (by decide)).mono (fun _ _ => trivial) (fun _ _ => id) (fun _ => le_rfl) .rfl id
      le_rfl

theorem whileStatement {k : TokenKind} (hk : k.closes = false)
    (he : Meets S M { outer := True } (n - 1) (embedded i₁) (embedded i₂)) :
    Meets S M { pre := fun L => frontKind L = k ∧ P L, taken := fun _ => 1, outer := True, whole := False } n
      (whileStatement i₁) (whileStatement i₂) :=
  unit_node (C := { pre := fun L => frontKind L = k ∧ P L, taken := fun _ => 1, outer := True })
    (bind (bump_kind hk) (fun _ => bind condition (fun _ => he) (fun _ => id) id trivial) (fun _ => id) id
      trivial) trivial (by decide)

end Meets

/-! ## Conditionals -/

/-- What may stand behind the first statement of a conditional. -/
def elseOf {τ : Type} [TokenSource τ] (e : Parse τ Unit) : Parse τ Unit := do
  if ← isAt (.keyword .elseKw) then
    node .elseClause do
      bump
      e

theorem elseOf_of_eq {p : Parser σ} (hp : Ready S p) (h : front S p = .keyword .elseKw) :
    elseOf e₁ p = node .elseClause (do bump; e₁) p := by
  rw [front, S.frontKind_upcoming hp.ok] at h
  show (if decide ((TokenSource.next p.source).1.leaf.tokenKind = .keyword .elseKw) = true then
    node .elseClause (do bump; e₁) else Pure.pure () : Parse σ Unit) p = _
  rw [if_pos (by simpa using h)]

theorem elseOf_of_ne {p : Parser σ} (hp : Ready S p) (h : front S p ≠ .keyword .elseKw) :
    elseOf e₁ p = ((), p) := by
  rw [front, S.frontKind_upcoming hp.ok] at h
  show (if decide ((TokenSource.next p.source).1.leaf.tokenKind = .keyword .elseKw) = true then
    node .elseClause (do bump; e₁) else Pure.pure () : Parse σ Unit) p = _
  rw [if_neg (by simpa using h)]
  rfl

namespace Meets

theorem elseClause (he : Meets S M { outer := True } (n - 1) e₁ e₂) :
    Meets S M { pre := fun L => frontKind L = .keyword .elseKw, taken := fun _ => 1, outer := True } n
      (Parse.node .elseClause (do bump; e₁)) (Parse.node .elseClause (do bump; e₂)) :=
  node (bind (bump_kind (P := fun _ => True) rfl) (fun _ => he) (fun _ hL => ⟨hL, trivial⟩) id trivial) trivial
    (by decide) rfl

end Meets

/-- What stands behind the first statement of a conditional, and the node around the whole of it. -/
def branchesRest {τ : Type} [TokenSource τ] (e : Parse τ Unit) : Parse τ Unit := do
  elseOf e
  enclose .ifStmt

theorem ifStatement_eq {τ : Type} [TokenSource τ] (i : Parse τ Unit) :
    ifStatement i = scope (do bump; condition; embedded i; branchesRest (embedded i)) := rfl

theorem Kept.elseClause {p : Parser σ} (he : ∀ q, Ready S q → Kept S q (e₁ q).2) (hp : Ready S p)
    (h : front S p = .keyword .elseKw) : Kept S p (node .elseClause (do Parse.bump; e₁) p).2 := by
  have hready : Ready S { p with out := [] } := ⟨hp.ok, hp.version⟩
  have hbump : Kept S { p with out := [] } (Parse.bump { p with out := [] }).2 :=
    .bump hready (show front S p ≠ _ by simp [h])
  have hrest := he _ hbump.ready
  refine ((hbump.trans hrest).trans ?_).scope
  exact .enclose hrest.ready (S.fresh hrest.ready.ok) fun hk => nomatch hk

theorem getLast?_elseClause {m : Parse σ Unit} (p : Parser σ) :
    (node .elseClause m p).2.out.getLast?.bind nodeKind? = some .elseClause := by
  show (p.out ++ [_]).getLast?.bind nodeKind? = _
  simp [ofChildren, nodeKind?]

theorem branchesRest_of_eq {p : Parser σ} (hp : Ready S p) (h : front S p = .keyword .elseKw) :
    branchesRest e₁ p = enclose .ifStmt (node .elseClause (do bump; e₁) p).2 := by
  show enclose .ifStmt (elseOf e₁ p).2 = _
  rw [elseOf_of_eq hp h]

theorem branchesRest_of_ne {p : Parser σ} (hp : Ready S p) (h : front S p ≠ .keyword .elseKw) :
    branchesRest e₁ p = enclose .ifStmt p := by
  show enclose .ifStmt (elseOf e₁ p).2 = _
  rw [elseOf_of_ne hp h]

theorem Kept.branchesRest {p : Parser σ} (he : ∀ q, Ready S q → Kept S q (e₁ q).2) (hp : Ready S p) :
    Kept S p (branchesRest e₁ p).2 := by
  by_cases h : front S p = .keyword .elseKw
  · rw [branchesRest_of_eq hp h]
    have hk := Kept.elseClause he hp h
    exact hk.trans (.enclose hk.ready (S.fresh hk.ready.ok) fun _ => .inl (getLast?_elseClause p))
  · rw [branchesRest_of_ne hp h]
    exact .enclose hp (S.fresh hp.ok) fun _ => .inr h

/-- Where the common tokens are used up, the conditional on the left takes an `else` that is one too many,
or it is open-ended. -/
theorem branchesRest_spent {p : Parser σ} (he : ∀ q, Ready S q → Kept S q (e₁ q).2) (hp : Ready S p)
    (hs : ¬ M.strict) (hup : S.upcoming p.source = M.left)
    (hlast : p.out.getLast?.bind nodeKind? ≠ some .elseClause) :
    Lost S M (branchesRest e₁ p).2 ∨ (branchesRest e₁ p = enclose .ifStmt p ∧
      (frontKind M.right = .keyword .elseKw → Hung S M (branchesRest e₁ p).2)) := by
  have hk := Kept.branchesRest he hp
  by_cases h : front S p = .keyword .elseKw
  · left
    refine ⟨hk.ready, .inr (.inl ?_)⟩
    have hne : front S p ≠ .eof := by simp [h]
    have hready : Ready S { p with out := [] } := ⟨hp.ok, hp.version⟩
    have hbump : Kept S { p with out := [] } (bump { p with out := [] }).2 := .bump hready hne
    have hrest := he _ hbump.ready
    have hfresh := S.fresh hrest.ready.ok
    have hsource : S.upcoming (branchesRest e₁ p).2.source =
        S.upcoming (e₁ (bump { p with out := [] }).2).2.source := by
      rw [branchesRest_of_eq hp h]
      exact (S.fresh hfresh.1).2.trans hfresh.2
    have hlt : (S.upcoming (bump { p with out := [] }).2.source).length < (S.upcoming p.source).length := by
      obtain ⟨-, hcons⟩ := S.next_of_ne hp.ok (by rwa [← S.frontKind_upcoming hp.ok])
      rw [hcons]
      exact Nat.lt_succ_self _
    rw [hsource, ← hup]
    exact hrest.length_le.trans_lt hlt
  · right
    refine ⟨branchesRest_of_ne hp h, fun hright => ⟨hk.ready, hs, ?_, hright, ?_⟩⟩
    · rw [branchesRest_of_ne hp h]
      exact (S.fresh hp.ok).2.trans hup
    · rw [branchesRest_of_ne hp h, enclose_apply]
      simp [lastIsOpenEnded, ofChildren, isOpenEnded, hlast]

theorem Emits.getLast? {kinds : NodeKind → Bool} {p : Parser σ} (h : Emits S kinds e₁) (hp : Ready S p) :
    ∃ k, (e₁ p).2.out.getLast?.bind nodeKind? = some k ∧ kinds k = true := by
  obtain ⟨g, hout, hk⟩ := h p hp
  obtain ⟨k, hk, hkind⟩ := (Option.any_eq_true _ _).1 hk
  exact ⟨k, by simp [hout, hk], hkind⟩

namespace Meets

theorem branches (h : Meets S M { outer := True } n e₁ e₂)
    (hemit : 0 < n → Emits S NodeKind.isStatement e₁) :
    Meets S M { outer := True, whole := False } n (do e₁; branchesRest e₁) (do e₂; branchesRest e₂) := by
  have he : ∀ q, Ready S q → Kept S q (e₁ q).2 := fun q hq => (h.keeps q hq trivial).1
  have hclause : Meets S M { pre := fun L => frontKind L = .keyword .elseKw, taken := fun _ => 1, outer := True }
      n (Parse.node .elseClause (do bump; e₁)) (Parse.node .elseClause (do bump; e₂)) :=
    elseClause (h.mono (fun _ => id) (fun _ _ => id) (fun _ => le_rfl) .rfl id (Nat.sub_le _ _))
  refine ⟨⟨fun p hp _ => ?_, fun p hp hP hn hs g hg => ?_, fun ho p hp hP hn => ?_⟩,
    fun p₁ p₂ common hat hne hn _ => ?_⟩
  · have hk := he p hp
    have hk' := Kept.branchesRest he hk.ready
    exact ⟨hk.trans hk', trivial, fun _ => hk'.length_le.trans hk.length_le⟩
  · have hk := he p hp
    have hsound : ∀ c ∈ (e₁ p).2.out, c.Sound version := fun c hc => (h.sound p hp hP hn hs c hc).1 trivial
    refine ⟨False.elim, ?_⟩
    by_cases hf : front S (e₁ p).2 = .keyword .elseKw
    · have hg : g ∈ (branchesRest e₁ (e₁ p).2).2.out := hg
      rw [branchesRest_of_eq hk.ready hf] at hg
      obtain rfl := List.mem_singleton.1 hg
      exact fun c hc => (hclause.sound _ hk.ready hf (hk.length_le.trans hn) hsound c hc).1 trivial
    · have hg : g ∈ (branchesRest e₁ (e₁ p).2).2.out := hg
      rw [branchesRest_of_ne hk.ready hf] at hg
      obtain rfl := List.mem_singleton.1 hg
      exact hsound
  · have hk := he p hp
    show Closed (branchesRest e₁ (e₁ p).2).2.out
    by_cases hf : front S (e₁ p).2 = .keyword .elseKw
    · rw [branchesRest_of_eq hk.ready hf]
      exact closed_ofChildren (hclause.closed trivial _ hk.ready hf (hk.length_le.trans hn))
    · rw [branchesRest_of_ne hk.ready hf]
      exact closed_ofChildren (h.closed trivial p hp hP hn)
  · have hk := he p₁ hat.ready₁
    have hlast : (e₁ p₁).2.out.getLast?.bind nodeKind? ≠ some .elseClause := by
      obtain ⟨k, hk, hkind⟩ := (hemit ((List.length_pos_of_ne_nil hne).trans_le hn)).getLast? hat.ready₁
      rw [hk]
      rintro ⟨⟩
      cases hkind
    show Outcome S M _ common (branchesRest e₁ (e₁ p₁).2) (branchesRest e₂ (e₂ p₂).2)
    rcases h.follows p₁ p₂ common hat hne hn trivial with hl | ⟨-, hh⟩ | ⟨-, rest, hat', hlen, -⟩
    · exact .inl (hl.kept (Kept.branchesRest he hk.ready))
    · rcases branchesRest_spent he hk.ready hh.2.1 hh.2.2.1 hlast with hl | ⟨-, hhung⟩
      · exact .inl hl
      · exact .inr (.inl ⟨trivial, hhung hh.2.2.2.1⟩)
    · have hlen : rest.length ≤ common.length := hlen
      by_cases hnil : rest = []
      · subst hnil
        rcases branchesRest_spent he hk.ready hat'.not_strict_of_nil hat'.alike.left hlast with
          hl | ⟨heq, hhung⟩
        · exact .inl hl
        by_cases hright : frontKind M.right = .keyword .elseKw
        · exact .inr (.inl ⟨trivial, hhung hright⟩)
        · have hfront : front (Supply.ofTokenList version) (e₂ p₂).2 ≠ .keyword .elseKw := by
            show frontKind (e₂ p₂).2.source.upcoming ≠ _
            rwa [hat'.alike.right]
          rw [heq, branchesRest_of_ne hat'.alike.ready₂ hfront]
          exact .inr (.inr ⟨rfl, [], hat'.enclose, Nat.zero_le _, fun ho => absurd trivial ho⟩)
      · have hfront : front S (e₁ p₁).2 = frontKind rest := hat'.alike.frontKind_left hnil
        have hfront' : front (Supply.ofTokenList version) (e₂ p₂).2 = frontKind rest :=
          hat'.alike.frontKind_right hnil
        by_cases hf : frontKind rest = .keyword .elseKw
        · rw [branchesRest_of_eq hk.ready (hfront.trans hf),
            branchesRest_of_eq hat'.alike.ready₂ (hfront'.trans hf)]
          refine (hclause.follows _ _ rest hat' hnil (hlen.trans hn) (hfront.trans hf)).enclose
            (fun hp => .enclose hp (S.fresh hp.ok) fun _ => .inl ?_) .rfl (hlen.trans (Nat.le_succ _))
          exact getLast?_elseClause _
        · rw [branchesRest_of_ne hk.ready (hfront ▸ hf),
            branchesRest_of_ne hat'.alike.ready₂ (hfront' ▸ hf)]
          exact .inr (.inr ⟨rfl, rest, hat'.enclose, hlen, fun ho => absurd trivial ho⟩)

end Meets

/-! ## Blocks -/

/-- The contract of a block in front of its opening brace. -/
def Contract.braces (W : Prop) : Contract Unit where
  pre L := frontKind L = .punct .lBrace
  taken _ := 1
  outer := True
  whole := W

theorem expect_contexts {τ : Type} [TokenSource τ] (k : TokenKind) (p : Parser τ) (cs : List ListContext) :
    expect k { p with contexts := cs } = ((), { (expect k p).2 with contexts := cs }) := by
  rw [expect_eq]
  show expectBody k (TokenSource.next p.source).1.leaf.tokenKind _ =
    ((), { (expectBody k (TokenSource.next p.source).1.leaf.tokenKind p).2 with contexts := cs })
  unfold expectBody
  split
  · rfl
  · rw [missing_apply, missing_apply]

/-- The token behind a list does not depend on whether the list is still open. -/
theorem within_expect {τ : Type} [TokenSource τ] (c : ListContext) (m : Parse τ Unit) (k : TokenKind) :
    (do within c m; expect k) = within c (do m; expect k) := by
  funext p
  exact expect_contexts k (m { p with contexts := c :: p.contexts }).2 p.contexts

namespace Meets

theorem blockList (h : Meets S M (.unit TokenKind.startsStatement true) n i₁ i₂) :
    Meets S M { outer := True } n
      (do Parse.within .block (Parse.loop (blockRound i₁)); Parse.expect (.punct .rBrace))
      (do Parse.within .block (Parse.loop (blockRound i₂)); Parse.expect (.punct .rBrace)) := by
  rw [within_expect, within_expect]
  exact within (list rfl (by decide) (fun k hk => by rintro rfl; simp at hk) h)

theorem blockOf (h : Meets S M (.unit TokenKind.startsStatement true) (n - 1) i₁ i₂) :
    Meets S M (.braces False) n (blockOf i₁) (blockOf i₂) :=
  unit_node (C := .braces True)
    (bind (expect_front rfl) (fun _ => blockList h) (fun _ => id) id trivial) trivial (by decide)

/-- A block where any token may come. -/
theorem blockOf_any (h : Meets S M (.unit TokenKind.startsStatement true) n i₁ i₂) :
    Meets S M { outer := True, whole := False } n (Parse.blockOf i₁) (Parse.blockOf i₂) :=
  unit_node (C := { outer := True }) (bind (expect rfl) (fun _ => blockList h) (fun _ => id) id trivial) trivial
    (by decide)

theorem ifStatement {k : TokenKind} (hk : k.closes = false)
    (he : Meets S M { outer := True } (n - 1) (embedded i₁) (embedded i₂))
    (hemit : 0 < n - 1 → Emits S NodeKind.isStatement (embedded i₁)) :
    Meets S M { pre := fun L => frontKind L = k ∧ P L, taken := fun _ => 1, outer := True, whole := False } n
      (ifStatement i₁) (ifStatement i₂) := by
  rw [ifStatement_eq, ifStatement_eq]
  refine scope (bind (bump_kind hk) (fun _ => ?_) (fun _ => id) id trivial)
  exact bind condition (fun _ => branches he hemit) (fun _ => id) id trivial

/-! ## Statements by their first token -/

theorem embedded (h : Meets S M (.unit TokenKind.startsStatement true) n i₁ i₂)
    (hexpr : Meets S M { pre := fun L => (frontKind L).startsStatement = false, outer := True } n
      Parse.expressionStatement Parse.expressionStatement) :
    Meets S M { outer := True } n (embedded i₁) (embedded i₂) := by
  refine peek_bind fun k => ?_
  by_cases hk : k.startsStatement = true
  · rw [if_pos hk, if_pos hk]
    exact h.mono (fun L hL _ => by rw [hL.1, hk]) (fun _ _ => id) (fun _ => Nat.zero_le _) .rfl id le_rfl
  · rw [if_neg hk, if_neg hk]
    exact hexpr.mono (fun L hL => by simpa [hL.1] using hk) (fun _ _ => id) (fun _ => le_rfl) .rfl id le_rfl

end Meets

/-- A statement whose first token is known. -/
def statementAt {τ : Type} [TokenSource τ] (i : Parse τ Unit) (k : TokenKind) : Parse τ Unit :=
  match k with
  | .punct .lBrace => blockOf i
  | .punct .semicolon => node .emptyStmt bump
  | .keyword .ifKw => ifStatement i
  | .keyword .whileKw => whileStatement i
  | .keyword .returnKw => returnStatement
  | .keyword .breakKw => jump .breakStmt
  | .keyword .continueKw => jump .continueStmt
  | .builtin _ => localDeclaration
  | .ident => do if ← atLocalDeclaration then localDeclaration else expressionStatement
  | _ => expressionStatement

theorem statementBody_eq {τ : Type} [TokenSource τ] (i : Parse τ Unit) :
    statementBody i = peek >>= statementAt i := rfl

/-- A token that begins none of the statements with a first token of their own begins an expression. -/
theorem startsExpression_of_startsStatement {k : TokenKind} (h : k.startsStatement = true)
    (hbrace : k ≠ .punct .lBrace) (hsemicolon : k ≠ .punct .semicolon) (hif : k ≠ .keyword .ifKw)
    (hwhile : k ≠ .keyword .whileKw) (hreturn : k ≠ .keyword .returnKw) (hbreak : k ≠ .keyword .breakKw)
    (hcontinue : k ≠ .keyword .continueKw) (hbuiltin : ∀ t, k ≠ .builtin t) : k.startsExpression = true := by
  unfold TokenKind.startsStatement at h
  split at h <;> simp_all

theorem statementAt_of_not_starts {τ : Type} [TokenSource τ] (i : Parse τ Unit) {k : TokenKind}
    (h : k.startsStatement = false) : statementAt i k = expressionStatement := by
  unfold statementAt
  split <;> first | rfl | simp [TokenKind.startsStatement, TokenKind.startsExpression] at h

namespace Meets

/-- A closing token of a known kind is emitted. -/
theorem bump_closing {k : TokenKind} (hk : k.closes = true) (hne : k ≠ .eof) :
    Meets S M { pre := fun L => frontKind L = k ∧ P L, taken := fun _ => 1, outer := True } n bump bump :=
  bump_of (fun L hL => ⟨hL.1.trans_ne hne, by simp [hL.1, hk], trivial⟩) rfl

/-- The flag of a contract does not matter where a token is taken anyway. -/
theorem of_unit_taken {m₁ : Parse σ Unit} {m₂ : Parse TokenList Unit}
    (h : Meets S M { pre := P, taken := fun _ => 1, outer := True, whole := False } n m₁ m₂) (b : Bool) :
    Meets S M { pre := P, taken := fun _ => b.toNat, outer := True, whole := False } n m₁ m₂ :=
  h.mono (fun _ => id) (fun _ _ => id) (fun _ => b.toNat_le) .rfl id le_rfl

theorem statementBody (b : Bool) (h : Meets S M (.unit TokenKind.startsStatement true) (n - 1) i₁ i₂)
    (hexpr : Meets S M { pre := fun L => (frontKind L).startsStatement = false, outer := True } (n - 1)
      Parse.expressionStatement Parse.expressionStatement)
    (hemit : 0 < n - 1 → Emits S NodeKind.isStatement (Parse.embedded i₁)) :
    Meets S M { Contract.unit TokenKind.startsStatement b with whole := False } n (statementBody i₁)
      (statementBody i₂) := by
  have he := embedded h hexpr
  rw [statementBody_eq, statementBody_eq]
  refine peek_bind fun k => ?_
  unfold statementAt
  split
  · exact of_unit_taken ((blockOf h).mono (fun _ => And.left) (fun _ _ => id) (fun _ => le_rfl) .rfl id le_rfl) b
  · exact of_unit_taken (unit_node (bump_closing rfl (by decide)) trivial (by decide)) b
  · exact of_unit_taken (ifStatement rfl he hemit) b
  · exact of_unit_taken (whileStatement rfl he) b
  · exact of_unit_taken (returnStatement rfl) b
  · exact of_unit_taken (jump rfl (by decide)) b
  · exact of_unit_taken (jump rfl (by decide)) b
  · exact (localDeclaration b).mono (fun L hL _ => by rw [hL.1]; rfl) (fun _ _ => id) (fun _ => le_rfl) .rfl id
      le_rfl
  · refine bind atLocalDeclaration (fun d => ?_) (fun _ => id) id trivial
    cases d with
    | true =>
      exact (localDeclaration b).mono (fun L hL _ => by rw [hL.1]; rfl) (fun _ _ => id) (fun _ => le_rfl) .rfl id
        le_rfl
    | false =>
      exact (expressionStatement b).mono (fun L hL _ => by rw [hL.1]; rfl) (fun _ _ => id) (fun _ => le_rfl)
        .rfl id le_rfl
  · refine (expressionStatement b).mono (fun L hL hb => ?_) (fun _ _ => id) (fun _ => le_rfl) .rfl id le_rfl
    rename_i hbrace hsemicolon hif hwhile hreturn hbreak hcontinue hbuiltin _
    rw [hL.1]
    exact startsExpression_of_startsStatement (hL.1 ▸ hL.2 hb) hbrace hsemicolon hif hwhile hreturn hbreak
      hcontinue hbuiltin

end Meets

end Parse

end IncrementalSyntax

import IncrementalSyntax.Proofs.Grammar.Statements

/-!
# Statements are built again

A statement is built out of statements further inside, each of them with fewer tokens to come. By induction
on their number all statements meet their contract, and those that are built are good.

## Main results

* `Parse.good_statement`: a statement that is built is good
* `Parse.Meets.statementUpTo`, `Parse.Meets.statement_any`: statements
* `Parse.Meets.block`, `Parse.Meets.block_any`: blocks
-/

namespace IncrementalSyntax

namespace Parse

open Green hiding id

variable {version : LanguageVersion} {σ : Type} [TokenSource σ] {S : Supply version σ} {M : Mode}
variable {n : Nat}

/-! ## Statements that are good -/

theorem scoped_statementBody {τ : Type} [TokenSource τ] (i : Parse τ Unit) : Scoped (statementBody i) := by
  rw [statementBody_eq]
  refine .bind (fun _ _ => rfl) fun k => ?_
  unfold statementAt
  split
  case h_9 =>
    refine .bind Silent.atLocalDeclaration fun b => ?_
    cases b <;> exact scoped_scope _
  all_goals exact scoped_scope _

/-- A token that has to come is emitted in any case. -/
theorem exists_out_expect {τ : Type} [TokenSource τ] (k : TokenKind) (p : Parser τ) :
    ∃ t, (expect k p).2.out = p.out ++ [.token t] := by
  rw [expect_eq]
  show ∃ t, (expectBody k (TokenSource.next p.source).1.leaf.tokenKind p).2.out = _
  by_cases hk : (TokenSource.next p.source).1.leaf.tokenKind = k
  · rw [expectBody, if_pos hk]
    exact ⟨_, rfl⟩
  · rw [expectBody, if_neg hk, missing_apply]
    exact ⟨_, rfl⟩

/-- A node that ends with an element that is not open-ended. -/
theorem node_out {τ : Type} [TokenSource τ] {kind : NodeKind} {body : Parse τ Unit} (hkind : kind ≠ .ifStmt)
    (h : ∀ p, ∃ cs c, (body p).2.out = cs ++ [c] ∧ c.isOpenEnded = false) (p : Parser τ) :
    ∃ g, (node kind body p).2.out = p.out ++ [g] ∧ g.nodeKind? = some kind ∧ g.isOpenEnded = false := by
  obtain ⟨cs, c, hout, hc⟩ := h { p with out := [] }
  refine ⟨.ofChildren (TokenSource.fresh (body { p with out := [] }).2.source).1 (.node kind)
    (body { p with out := [] }).2.out, rfl, rfl, ?_⟩
  rw [hout, isOpenEnded_ofChildren_concat (by simpa using hkind), hc]

/-- A block ends with a token. -/
theorem blockOf_out {τ : Type} [TokenSource τ] (i : Parse τ Unit) (p : Parser τ) :
    ∃ g, (blockOf i p).2.out = p.out ++ [g] ∧ g.nodeKind? = some .block ∧ g.isOpenEnded = false := by
  refine node_out (by decide) (fun q => ?_) p
  obtain ⟨t, ht⟩ := exists_out_expect (.punct .rBrace)
    (within .block (loop (blockRound i)) (expect (.punct .lBrace) q).2).2
  exact ⟨_, .token t, ht, rfl⟩

/-- A statement is one node. It is a block only if it begins with a brace, and then it is not open-ended. -/
theorem statementBody_out (i : Parse σ Unit) {p : Parser σ} (hp : Ready S p) :
    ∃ g k, (statementBody i p).2.out = p.out ++ [g] ∧ g.nodeKind? = some k ∧ k.isStatement = true ∧
      (k = .block → front S p = .punct .lBrace ∧ g.isOpenEnded = false) := by
  have hfront : statementBody i p = statementAt i (front S p) p := by
    rw [front, S.frontKind_upcoming hp.ok]
    rfl
  rw [hfront]
  generalize front S p = k
  unfold statementAt
  split
  case h_1 =>
    obtain ⟨g, hout, hk, hshut⟩ := blockOf_out i p
    exact ⟨g, .block, hout, hk, rfl, fun _ => ⟨rfl, hshut⟩⟩
  case h_9 =>
    show ∃ g k, ((if (atLocalDeclaration p).1 = true then localDeclaration else expressionStatement) p).2.out =
      p.out ++ [g] ∧ _
    split
    · exact ⟨_, .localDeclStmt, rfl, rfl, rfl, fun h => absurd h (by decide)⟩
    · exact ⟨_, .exprStmt, rfl, rfl, rfl, fun h => absurd h (by decide)⟩
  all_goals exact ⟨_, _, rfl, rfl, rfl, fun h => absurd h (by decide)⟩

theorem emits_statementBody (i : Parse σ Unit) : Emits S NodeKind.isStatement (statementBody i) := by
  intro p hp
  obtain ⟨g, k, hout, hk, hstmt, -⟩ := statementBody_out i hp
  exact ⟨g, hout, by simp [hk, hstmt]⟩

theorem emits_embedded {i : Parse σ Unit} (h : Emits S NodeKind.isStatement i) :
    Emits S NodeKind.isStatement (embedded i) := by
  intro p hp
  show ∃ g, ((if (TokenSource.next p.source).1.leaf.tokenKind.startsStatement = true then i
    else expressionStatement) p).2.out = p.out ++ [g] ∧ _
  split
  · exact h p hp
  · exact ⟨_, rfl, rfl⟩

theorem statementUpTo_kept (d : Nat) {p : Parser σ} (hp : Ready S p) : Kept S p (statementUpTo d p).2 := by
  induction d generalizing p with
  | zero => exact .refl hp
  | succ d ih =>
    have hinner : Meets S .whole (.unit TokenKind.startsStatement true) 0 (statementUpTo d) (statementUpTo d) :=
      .of_kept fun p hp _ => ⟨ih hp, trivial⟩
    have hexpr : Meets S .whole { pre := fun L => (frontKind L).startsStatement = false, outer := True } 0
        expressionStatement expressionStatement :=
      .of_kept fun p hp _ =>
        ⟨((Meets.expressionStatement (M := .whole) (n := 0) false).keeps p hp nofun).1, trivial⟩
    have hbody := Meets.statementBody (n := 0) false hinner hexpr fun h => absurd h (lt_irrefl 0)
    show Kept S p (reuseOr NodeKind.isStatement (statementBody (statementUpTo d)) p).2
    unfold reuseOr
    cases hr : TokenSource.reuse? NodeKind.isStatement p.source with
    | none => exact (hbody.keeps p hp nofun).1
    | some r => exact .reuse hp (fun k hk => by simp [hk]) hr

theorem emits_statementUpTo (d : Nat) : Emits S NodeKind.isStatement (statementUpTo (d + 1)) :=
  (emits_statementBody _).reuseOr

/-- On a list of tokens nothing is taken over. -/
theorem statementUpTo_succ (d : Nat) :
    (statementUpTo (d + 1) : Parse TokenList Unit) = statementBody (statementUpTo d) := rfl

theorem block_eq : (block : Parse TokenList Unit) = blockOf statement := rfl

theorem scoped_statementUpTo {d : Nat} (hd : 0 < d) : Scoped (statementUpTo d : Parse TokenList Unit) := by
  obtain ⟨d, rfl⟩ : ∃ e, d = e + 1 := ⟨d - 1, by omega⟩
  exact scoped_statementBody _

theorem Kept.blockOf {i : Parse σ Unit} {p : Parser σ} (hi : ∀ p, Ready S p → Kept S p (i p).2)
    (hp : Ready S p) : Kept S p (Parse.blockOf i p).2 := by
  have h : Meets S .whole (.unit TokenKind.startsStatement true) 0 i (Pure.pure ()) :=
    .of_kept fun p hp _ => ⟨hi p hp, trivial⟩
  exact ((Meets.blockOf_any h).keeps p hp trivial).1

/-- A statement that is built is good. -/
theorem good_statement {C D : Contract Unit} {m₁ : Parse σ Unit} {p : Parser σ} {g : Green}
    (h : ∀ M d k, k ≤ n → k ≤ d → Meets S M C k m₁ (statementUpTo d))
    (hblock : g.nodeKind?.any (· = .block) = true → D.pre (S.upcoming p.source) ∧
      ∀ M k, k ≤ n → Meets S M D k m₁ block)
    (hp : Ready S p) (hP : C.pre (S.upcoming p.source)) (hn : (S.upcoming p.source).length ≤ n)
    (hnil : p.out = []) (hout : (m₁ p).2.out = [g]) (houter : C.outer)
    (hkind : g.nodeKind?.any NodeKind.isStatement = true)
    (hshut : g.nodeKind? = some .block → g.isOpenEnded = false) : Good version g := by
  have hclosed : Closed [g] := hout ▸ (h .whole n n le_rfl le_rfl).closed houter p hp hP hn
  refine ⟨hclosed, fun hshuts => ?_, fun hf hm _ => ?_, fun hf hm hb => ?_, fun hf hm hmem => ?_⟩
  · obtain ⟨k, hk, hstmt⟩ := (Option.any_eq_true _ _).1 hkind
    rw [hk] at hshuts
    refine hshut ?_
    cases k <;> simp_all [NodeKind.isStatement, NodeKind.isMember]
  · exact replays_of_meets h (fun d hd => scoped_statementUpTo hd) (fun d q hq => statementUpTo_kept d hq) hp hP
      hn hnil hout hclosed hf hm
  · obtain ⟨hP', hblock⟩ := hblock hb
    refine replays_of_meets (fun M d k hk _ => hblock M k hk) (fun d hd => scoped_scope _) (fun d q hq => ?_) hp
      hP' hn hnil hout hclosed hf hm
    exact Kept.blockOf (fun p hp => statementUpTo_kept _ hp) hq
  · obtain ⟨k, hk, hstmt⟩ := (Option.any_eq_true _ _).1 hkind
    rw [hk] at hmem
    exact absurd hmem (by cases k <;> simp_all [NodeKind.isStatement, NodeKind.isMember])

namespace Meets

/-- Where no statement begins, an expression statement is what a statement is. -/
theorem expressionStatement_whole :
    Meets S M { pre := fun L => (frontKind L).startsStatement = false, outer := True } n
      (Parse.expressionStatement : Parse σ Unit) Parse.expressionStatement := by
  have hexpr : ∀ M n, Meets S M { pre := fun L => (frontKind L).startsStatement = false, outer := True,
                                  whole := False } n
      (Parse.expressionStatement : Parse σ Unit) Parse.expressionStatement := fun M n =>
    (expressionStatement false).mono (fun _ _ => nofun) (fun _ _ => id) (fun _ => le_rfl) .rfl id le_rfl
  have hstatement : ∀ M d k, k ≤ n → k ≤ d → Meets S M { pre := fun L => (frontKind L).startsStatement = false
                                                         outer := True
                                                         whole := False } k
      (Parse.expressionStatement : Parse σ Unit) (Parse.statementUpTo d) := by
    intro M d k _ hd
    cases d with
    | zero =>
      obtain rfl : k = 0 := Nat.le_zero.1 hd
      exact (hexpr M 0).zero
    | succ d =>
      rw [statementUpTo_succ, statementBody_eq]
      refine peek_bind (f := fun _ => Parse.expressionStatement) fun kind => ?_
      by_cases hk : kind.startsStatement = true
      · exact of_not_pre fun L hL => by simp [hL.1, hk] at hL
      · rw [statementAt_of_not_starts _ (by simpa using hk)]
        exact (hexpr M k).mono (fun _ => And.right) (fun _ _ => id) (fun _ => le_rfl) .rfl id le_rfl
  refine whole (hexpr M n) (scoped_scope _) fun p hp hP hn hnil => ?_
  obtain ⟨g, hout, hk⟩ : ∃ g, (Parse.expressionStatement p).2.out = p.out ++ [g] ∧
      g.nodeKind? = some .exprStmt := ⟨_, rfl, rfl⟩
  rw [hnil, List.nil_append] at hout
  refine ⟨g, hout, fun _ => ?_⟩
  exact good_statement (D := {}) hstatement (fun hb => by simp [hk] at hb) hp hP hn hnil hout trivial
    (by simp [hk]; rfl) (by simp [hk])

/-- Statements to a depth, given that they meet their contract with fewer tokens to come. -/
theorem statementUpTo_body (b : Bool) {n k : Nat} (hk : k ≤ n + 1)
    (ih : ∀ M d₁ d₂ j, j ≤ n → j ≤ d₁ → j ≤ d₂ →
      Meets S M (.unit TokenKind.startsStatement true) j (Parse.statementUpTo d₁) (Parse.statementUpTo d₂))
    {d₁ d₂ : Nat} (hd₁ : n ≤ d₁) (hd₂ : k ≤ d₂ + 1) :
    Meets S M { Contract.unit TokenKind.startsStatement b with whole := False } k
      (Parse.statementBody (Parse.statementUpTo d₁)) (Parse.statementBody (Parse.statementUpTo d₂)) := by
  refine statementBody b (ih M d₁ d₂ _ (by omega) (by omega) (by omega)) expressionStatement_whole fun hpos => ?_
  obtain ⟨d₁, rfl⟩ : ∃ d, d₁ = d + 1 := ⟨d₁ - 1, by omega⟩
  exact emits_embedded (emits_statementUpTo d₁)

/-- Every statement keeps to its tokens, and the statements that are built are good. -/
theorem statementUpTo (n : Nat) : ∀ M d₁ d₂ k, k ≤ n → k ≤ d₁ → k ≤ d₂ →
    Meets S M (.unit TokenKind.startsStatement true) k (Parse.statementUpTo d₁) (Parse.statementUpTo d₂) := by
  induction n with
  | zero =>
    intro M d₁ d₂ k hk _ _
    obtain rfl : k = 0 := Nat.le_zero.1 hk
    exact of_kept fun p hp _ => ⟨statementUpTo_kept d₁ hp, trivial⟩
  | succ n ih =>
    intro M d₁ d₂ k hk h₁ h₂
    by_cases hkn : k ≤ n
    · exact ih M d₁ d₂ k hkn h₁ h₂
    obtain rfl : k = n + 1 := by omega
    obtain ⟨d₁, rfl⟩ : ∃ d, d₁ = d + 1 := ⟨d₁ - 1, by omega⟩
    obtain ⟨d₂, rfl⟩ : ∃ d, d₂ = d + 1 := ⟨d₂ - 1, by omega⟩
    have hstatement : ∀ M d k, k ≤ n + 1 → k ≤ d →
        Meets S M { Contract.unit TokenKind.startsStatement true with whole := False } k
          (Parse.statementBody (Parse.statementUpTo d₁)) (Parse.statementUpTo d) := by
      intro M d k hk hd
      cases d with
      | zero =>
        obtain rfl : k = 0 := Nat.le_zero.1 hd
        exact (statementUpTo_body true (Nat.zero_le _) ih (by omega) (Nat.zero_le (0 + 1))).zero
      | succ d =>
        exact statementUpTo_body true hk ih (by omega) hd
    have hblock : ∀ M k, k ≤ n + 1 →
        Meets S M (.braces False) k (Parse.statementBody (Parse.statementUpTo d₁)) Parse.block := by
      intro M k hk
      refine peek_bind (g := fun _ => Parse.block) fun kind => ?_
      by_cases hkind : kind = .punct .lBrace
      · subst hkind
        have hinner : Meets S M (.unit TokenKind.startsStatement true) (k - 1) (Parse.statementUpTo d₁)
            Parse.statement :=
          of_deep (deep_const (by omega)) (deep_remaining _) fun d₁ d₂ j hj => ih M d₁ d₂ j (by omega)
        exact (blockOf hinner).mono (fun _ => And.left) (fun _ _ => id) (fun _ => le_rfl) .rfl id le_rfl
      · exact of_not_pre fun L hL => hkind (hL.1.symm.trans hL.2)
    have hwhole : Meets S M (.unit TokenKind.startsStatement true) (n + 1)
        (Parse.statementBody (Parse.statementUpTo d₁)) (Parse.statementUpTo (d₂ + 1)) := by
      refine whole (hstatement M _ _ le_rfl h₂) (scoped_statementBody _) fun p hp hP hn hnil => ?_
      obtain ⟨g, kind, hout, hkind, hstmt, hbrace⟩ := statementBody_out (Parse.statementUpTo d₁) hp
      rw [hnil, List.nil_append] at hout
      exact ⟨g, hout, fun _ => good_statement (D := .braces False) hstatement
        (fun hb => ⟨hbrace (by simpa [hkind] using hb) |>.1, hblock⟩) hp hP hn hnil hout trivial (by simp [hkind, hstmt])
        fun hb => (hbrace (by simpa [hkind] using hb)).2⟩
    exact hwhole.reuseOr h₂ (fun k hk => by simp [hk]) (fun g hgood hf hm hk => hgood.statement hf hm hk)
      (fun _ => trivial) le_rfl trivial

/-- Statements to any depths that are enough. -/
theorem statement_deep {f₁ : Parser σ → Nat} {f₂ : Parser TokenList → Nat} (h₁ : Deep S n f₁)
    (h₂ : Deep (Supply.ofTokenList version) n f₂) :
    Meets S M (.unit TokenKind.startsStatement true) n (fun p => Parse.statementUpTo (f₁ p) p)
      (fun p => Parse.statementUpTo (f₂ p) p) :=
  of_deep h₁ h₂ (statementUpTo n M)

/-- A statement where any token may come. -/
theorem statement_any :
    Meets S M { Contract.unit TokenKind.startsStatement false with whole := False } n Parse.statement
      Parse.statement := by
  refine of_deep (deep_remaining S) (deep_remaining _) fun d₁ d₂ k _ h₁ h₂ => ?_
  cases k with
  | zero => exact of_kept fun p hp _ => ⟨statementUpTo_kept d₁ hp, trivial⟩
  | succ k =>
    obtain ⟨d₁, rfl⟩ : ∃ d, d₁ = d + 1 := ⟨d₁ - 1, by omega⟩
    obtain ⟨d₂, rfl⟩ : ∃ d, d₂ = d + 1 := ⟨d₂ - 1, by omega⟩
    have hbody := statementUpTo_body (S := S) (M := M) false le_rfl (statementUpTo k) (Nat.le_of_succ_le_succ h₁)
      h₂
    exact hbody.reuseOr h₂ (fun k hk => by simp [hk]) (fun g hgood hf hm hk => hgood.statement hf hm hk)
      (fun _ => trivial) (Nat.zero_le _) trivial

/-- A block is built again as a block, and as a statement. -/
theorem block :
    Meets S M (.braces True) n
      Parse.block Parse.block := by
  have hblock : ∀ M k, k ≤ n →
      Meets S M (.braces False) k (Parse.blockOf Parse.statement) Parse.block := fun M k _ =>
    blockOf (statement_deep (deep_remaining S) (deep_remaining _))
  have hstatement : ∀ M d k, k ≤ n → k ≤ d →
      Meets S M (.braces False) k (Parse.blockOf Parse.statement) (Parse.statementUpTo d) := by
    intro M d k hk hd
    cases d with
    | zero =>
      obtain rfl : k = 0 := Nat.le_zero.1 hd
      exact (hblock M 0 (Nat.zero_le _)).zero
    | succ d =>
      refine peek_bind (f := fun _ => Parse.blockOf Parse.statement) fun kind => ?_
      by_cases hkind : kind = .punct .lBrace
      · subst hkind
        exact (blockOf (statement_deep (deep_remaining S) (deep_const (d := d) (by omega)))).mono (fun _ => And.left)
          (fun _ _ => id) (fun _ => le_rfl) .rfl id le_rfl
      · exact of_not_pre fun L hL => hkind (hL.1.symm.trans hL.2)
  have hwhole : Meets S M (.braces True) n
      (Parse.blockOf Parse.statement) Parse.block := by
    refine whole (hblock M n le_rfl) (scoped_scope _) fun p hp hP hn hnil => ?_
    obtain ⟨g, hout, hk, hshut⟩ := blockOf_out Parse.statement p
    rw [hnil, List.nil_append] at hout
    exact ⟨g, hout, fun _ => good_statement (D := .braces False) hstatement (fun _ => ⟨hP, hblock⟩) hp hP hn hnil hout trivial
      (by simp [hk]; rfl) fun _ => hshut⟩
  exact hwhole.reuseOr (R := fun _ => Parse.block) (d := n) le_rfl
    (fun k hk => by simp [of_decide_eq_true hk, NodeKind.isStatement])
    (fun g hgood hf hm hk => hgood.block hf hm hk) (fun _ => trivial) le_rfl trivial

/-- A block where any token may come. -/
theorem block_any : Meets S M { outer := True, whole := False } n Parse.block Parse.block :=
  (blockOf_any (statement_deep (deep_remaining S) (deep_remaining _))).reuseOr (R := fun _ => Parse.block)
    (d := n) le_rfl (fun k hk => by simp [of_decide_eq_true hk, NodeKind.isStatement])
    (fun g hgood hf hm hk => hgood.block hf hm hk) (fun _ => trivial) (Nat.zero_le _) trivial

end Meets

end Parse

end IncrementalSyntax

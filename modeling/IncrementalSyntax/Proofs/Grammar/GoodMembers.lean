import IncrementalSyntax.Proofs.Grammar.Members

/-!
# Members are built again

As for statements, all members meet their contract by induction on the number of tokens to come, and those
that are built are good. Modifiers with no member behind them are never taken over, so nothing is said of
them.

## Main definitions

* `Parse.Rimmed`: members that end with a token or a block
* `Parse.Encloses`: actions that leave one node over all that was emitted

## Main results

* `Parse.memberOf_out`: a member is one node
* `Parse.Meets.memberUpTo`, `Parse.Meets.member`, `Parse.Meets.member_any`: members
-/

namespace IncrementalSyntax

namespace Parse

open Green hiding id

variable {version : LanguageVersion} {σ : Type} [TokenSource σ] {S : Supply version σ} {M : Mode}
variable {n : Nat}

/-! ## Members that are good -/

/-- **Rimmed.** The last child is no node that could go on: it is a block, or not open-ended. -/
def Rimmed (g : Green) : Prop :=
  ∃ cs c, g.children = cs ++ [c] ∧ g.isOpenEnded = c.isOpenEnded ∧
    (c.isOpenEnded = false ∨ c.nodeKind? = some .block)

/-- **Encloses.** The action leaves one node over all that was emitted in the scope: a member that ends with a block
or a token, or one that is incomplete and carries a diagnostic. -/
def Encloses {τ : Type} [TokenSource τ] (m : Parse τ Unit) : Prop :=
  ∀ p, ∃ g k, (m p).2.out = [g] ∧ g.nodeKind? = some k ∧
    (k.isMember = true ∧ Rimmed g ∨ k = .incompleteMember ∧ Flagged [g])

theorem Encloses.bind {τ α : Type} [TokenSource τ] {m : Parse τ α} {f : α → Parse τ Unit}
    (h : ∀ a, Encloses (f a)) : Encloses (m >>= f) :=
  fun p => h (m p).1 (m p).2

theorem encloses_of_out {τ : Type} [TokenSource τ] {m : Parse τ Unit} {k : NodeKind} (hk : k.isMember = true)
    (h : ∀ p, ∃ cs c, (m p).2.out = cs ++ [c] ∧ (c.isOpenEnded = false ∨ c.nodeKind? = some .block)) :
    Encloses (do m; enclose k) := by
  intro p
  obtain ⟨cs, c, hout, hc⟩ := h p
  refine ⟨_, k, rfl, rfl, .inl ⟨hk, cs, c, hout, ?_, hc⟩⟩
  have hif : (Kind.node k) ≠ .node .ifStmt := by
    rintro ⟨⟩
    cases hk
  show (ofChildren _ _ (m p).2.out).isOpenEnded = _
  rw [hout, isOpenEnded_ofChildren_concat hif]

/-- A member that ends with a token. -/
theorem encloses_expect {τ : Type} [TokenSource τ] {k : NodeKind} (hk : k.isMember = true) (kind : TokenKind) :
    Encloses (do expect kind; enclose k : Parse τ Unit) := by
  refine encloses_of_out hk fun p => ?_
  obtain ⟨t, ht⟩ := exists_out_expect kind p
  exact ⟨p.out, .token t, ht, .inl rfl⟩

theorem encloses_memberBody {τ : Type} [TokenSource τ] (i : Parse τ Unit) (context : ListContext) {k : NodeKind}
    (hk : k.isMember = true) : Encloses (do memberBody i context; enclose k) := by
  refine encloses_of_out hk fun p => ?_
  obtain ⟨t, ht⟩ := exists_out_expect (.punct .rBrace)
    (within context (loop (memberRound i (some (.punct .rBrace)))) (expect (.punct .lBrace) p).2).2
  exact ⟨_, .token t, ht, .inl rfl⟩

/-- A member that ends with a block, which the source may have offered. -/
theorem encloses_block (S : Supply version σ) {k : NodeKind} (hk : k.isMember = true) : Encloses (do block; enclose k : Parse σ Unit) := by
  refine encloses_of_out hk fun p => ?_
  unfold block reuseOr
  cases hr : TokenSource.reuse? (· = .block) p.source with
  | some r =>
    obtain ⟨kind, hkind, hblock⟩ := (Option.any_eq_true _ _).1 (S.offered hr)
    exact ⟨p.out, r.1, rfl, .inr (by simpa [of_decide_eq_true hblock] using hkind)⟩
  | none =>
    obtain ⟨g, hout, -, hshut⟩ := blockOf_out statement p
    exact ⟨p.out, g, hout, .inl hshut⟩

theorem encloses_typeDeclaration {τ : Type} [TokenSource τ] (i : Parse τ Unit) {k : NodeKind}
    (hk : k.isMember = true) : Encloses (typeDeclaration i k) := by
  refine .bind fun _ => .bind fun _ => .bind fun b => ?_
  cases b with
  | false => exact encloses_memberBody i _ hk
  | true => exact .bind fun _ => encloses_memberBody i _ hk

theorem encloses_methodOrField (S : Supply version σ) : Encloses (methodOrField : Parse σ Unit) := by
  rw [Meets.methodOrField_eq]
  refine .bind fun b => ?_
  cases b with
  | false => exact .bind fun _ => encloses_expect rfl _
  | true =>
    refine .bind fun _ => .bind fun _ => .bind fun c => ?_
    cases c with
    | false => exact encloses_expect rfl _
    | true => exact encloses_block S rfl

theorem encloses_memberTail (S : Supply version σ) (i : Parse σ Unit) : Encloses (memberTail i) := by
  rw [memberTail_eq]
  refine .bind fun k => ?_
  unfold tailAt
  split
  · exact .bind fun _ => .bind fun _ => encloses_expect rfl _
  · exact .bind fun _ => .bind fun _ => encloses_memberBody i _ rfl
  · exact encloses_typeDeclaration i rfl
  · exact encloses_typeDeclaration i rfl
  · exact encloses_typeDeclaration i rfl
  · exact .bind fun _ => encloses_methodOrField S
  · refine .bind fun b => ?_
    cases b with
    | false => exact .bind fun _ => encloses_methodOrField S
    | true => exact encloses_typeDeclaration i rfl
  · intro p
    refine ⟨_, .incompleteMember, rfl, rfl, .inr ⟨rfl, ?_⟩⟩
    exact flagged_ofChildren.2 (flagged_missing _ _ p)

theorem memberOf_out (S : Supply version σ) (i : Parse σ Unit) (p : Parser σ) :
    ∃ g k, (memberOf i p).2.out = p.out ++ [g] ∧ g.nodeKind? = some k ∧
      (k.isMember = true ∧ Rimmed g ∨ k = .incompleteMember ∧ Flagged [g]) := by
  obtain ⟨g, k, hout, hk, hkind⟩ := (Encloses.bind (m := loop modifierRound) fun _ => encloses_memberTail S i)
    { p with out := [] }
  exact ⟨g, k, congrArg (p.out ++ ·) hout, hk, hkind⟩

/-- A member is not open-ended, since a block is not. -/
theorem Rimmed.isOpenEnded {g : Green} (h : Rimmed g) (hchildren : ∀ c ∈ g.children, c.Sound version) :
    g.isOpenEnded = false := by
  obtain ⟨cs, c, hcs, hopen, hc | hblock⟩ := h
  · exact hopen.trans hc
  · have hgood : Good version c := hchildren c (by simp [hcs]) c (.self c) (by simp [isUnit, hblock, NodeKind.isStatement])
    exact hopen.trans (hgood.shut (by simp [hblock]))

theorem memberUpTo_kept (d : Nat) {p : Parser σ} (hp : Ready S p) : Kept S p (memberUpTo d p).2 := by
  induction d generalizing p with
  | zero => exact .refl hp
  | succ d ih =>
    have hinner : Meets S .whole (.unit TokenKind.startsMember true) 0 (memberUpTo d) (memberUpTo d) :=
      .of_kept fun p hp _ => ⟨ih hp, trivial⟩
    show Kept S p (reuseOr NodeKind.isMember (memberOf (memberUpTo d)) p).2
    unfold reuseOr
    cases hr : TokenSource.reuse? NodeKind.isMember p.source with
    | none => exact ((Meets.memberOf (n := 0) false hinner).keeps p hp nofun).1
    | some r => exact .reuse hp (fun k hk => by simp [hk]) hr

theorem scoped_memberUpTo {d : Nat} (hd : 0 < d) : Scoped (memberUpTo d : Parse TokenList Unit) := by
  obtain ⟨d, rfl⟩ : ∃ e, d = e + 1 := ⟨d - 1, by omega⟩
  exact scoped_scope _

namespace Meets

theorem memberUpTo_body (b : Bool) {n k : Nat} (hk : k ≤ n + 1)
    (ih : ∀ M d₁ d₂ j, j ≤ n → j ≤ d₁ → j ≤ d₂ →
      Meets S M (.unit TokenKind.startsMember true) j (Parse.memberUpTo d₁) (Parse.memberUpTo d₂))
    {d₁ d₂ : Nat} (hd₁ : n ≤ d₁) (hd₂ : k ≤ d₂ + 1) :
    Meets S M { Contract.unit TokenKind.startsMember b with whole := False } k
      (Parse.memberOf (Parse.memberUpTo d₁)) (Parse.memberOf (Parse.memberUpTo d₂)) :=
  memberOf b (ih M d₁ d₂ _ (by omega) (by omega) (by omega))

/-- Every member keeps to its tokens, and the members that are built are good. -/
theorem memberUpTo (n : Nat) : ∀ M d₁ d₂ k, k ≤ n → k ≤ d₁ → k ≤ d₂ →
    Meets S M (.unit TokenKind.startsMember true) k (Parse.memberUpTo d₁) (Parse.memberUpTo d₂) := by
  induction n with
  | zero =>
    intro M d₁ d₂ k hk _ _
    obtain rfl : k = 0 := Nat.le_zero.1 hk
    exact of_kept fun p hp _ => ⟨memberUpTo_kept d₁ hp, trivial⟩
  | succ n ih =>
    intro M d₁ d₂ k hk h₁ h₂
    by_cases hkn : k ≤ n
    · exact ih M d₁ d₂ k hkn h₁ h₂
    obtain rfl : k = n + 1 := by omega
    obtain ⟨d₁, rfl⟩ : ∃ d, d₁ = d + 1 := ⟨d₁ - 1, by omega⟩
    obtain ⟨d₂, rfl⟩ : ∃ d, d₂ = d + 1 := ⟨d₂ - 1, by omega⟩
    have hmember : ∀ M d k, k ≤ n + 1 → k ≤ d →
        Meets S M { Contract.unit TokenKind.startsMember true with whole := False } k
          (Parse.memberOf (Parse.memberUpTo d₁)) (Parse.memberUpTo d) := by
      intro M d k hk hd
      cases d with
      | zero =>
        obtain rfl : k = 0 := Nat.le_zero.1 hd
        exact (memberUpTo_body true (Nat.zero_le _) ih (by omega) (Nat.zero_le (0 + 1))).zero
      | succ d => exact memberUpTo_body true hk ih (by omega) hd
    have hwhole : Meets S M (.unit TokenKind.startsMember true) (n + 1)
        (Parse.memberOf (Parse.memberUpTo d₁)) (Parse.memberUpTo (d₂ + 1)) := by
      refine whole (hmember M _ _ le_rfl h₂) (scoped_scope _) fun p hp hP hn hnil => ?_
      obtain ⟨g, kind, hout, hkind, hmem⟩ := memberOf_out S (Parse.memberUpTo d₁) p
      rw [hnil, List.nil_append] at hout
      have hchildren := ((hmember M _ _ le_rfl h₂).sound p hp hP hn (by simp [hnil]) g (by simp [hout])).2
      have hclosed : Closed [g] := hout ▸ (hmember M _ _ le_rfl h₂).closed trivial p hp hP hn
      have hstmt : kind.isStatement = false := by
        rcases hmem with ⟨hmem, -⟩ | ⟨rfl, -⟩
        · cases kind <;> simp_all [NodeKind.isStatement, NodeKind.isMember]
        · rfl
      refine ⟨g, hout, fun _ => ⟨hclosed, fun hshuts => ?_, fun _ _ hs => ?_, fun _ _ hb => ?_, fun hf hm _ => ?_⟩⟩
      · rcases hmem with ⟨-, hrimmed⟩ | ⟨rfl, -⟩
        · exact hrimmed.isOpenEnded hchildren
        · rw [hkind] at hshuts
          cases hshuts
      · simp [hkind, hstmt] at hs
      · obtain rfl : kind = .block := by simpa [hkind] using hb
        cases hstmt
      · exact replays_of_meets hmember (fun d hd => scoped_memberUpTo hd) (fun d q hq => memberUpTo_kept d hq)
          hp hP hn hnil hout hclosed hf hm
    exact hwhole.reuseOr h₂ (fun k hk => by simp [hk]) (fun g hgood hf hm hk => hgood.member hf hm hk)
      (fun _ => trivial) le_rfl trivial

theorem member : Meets S M (.unit TokenKind.startsMember true) n Parse.member Parse.member :=
  of_deep (deep_remaining S) (deep_remaining _) (memberUpTo n M)

/-- A member where any token may come. -/
theorem member_any :
    Meets S M { Contract.unit TokenKind.startsMember false with whole := False } n Parse.member
      Parse.member := by
  refine of_deep (deep_remaining S) (deep_remaining _) fun d₁ d₂ k _ h₁ h₂ => ?_
  cases k with
  | zero => exact of_kept fun p hp _ => ⟨memberUpTo_kept d₁ hp, trivial⟩
  | succ k =>
    obtain ⟨d₁, rfl⟩ : ∃ d, d₁ = d + 1 := ⟨d₁ - 1, by omega⟩
    obtain ⟨d₂, rfl⟩ : ∃ d, d₂ = d + 1 := ⟨d₂ - 1, by omega⟩
    have hbody := memberUpTo_body (S := S) (M := M) false le_rfl (memberUpTo k) (Nat.le_of_succ_le_succ h₁) h₂
    exact hbody.reuseOr h₂ (fun k hk => by simp [hk]) (fun g hgood hf hm hk => hgood.member hf hm hk)
      (fun _ => trivial) (Nat.zero_le _) trivial

end Meets

end Parse

end IncrementalSyntax

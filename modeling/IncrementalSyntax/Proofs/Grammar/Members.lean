import IncrementalSyntax.Proofs.Grammar.GoodStatements

/-!
# Members keep to their tokens

A member ends with a semicolon or a brace and never looks past that token. What it is depends on the first
token behind its modifiers, and for a record on the version of the language. The contracts of this module
are relative to a contract for the members further inside.

## Main definitions

* `Parse.startsTail`, `Parse.tailAt`: a member behind its modifiers
* `Parse.modifierRound`: one modifier

## Main results

* `Parse.Meets.atRecord`: whether a record comes
* `Parse.Meets.memberBody`, `Parse.Meets.methodOrField`: the parts of members
* `Parse.Meets.memberOf`: members
-/

namespace IncrementalSyntax

namespace Parse

open Green hiding id

variable {version : LanguageVersion} {σ : Type} [TokenSource σ] {S : Supply version σ} {M : Mode}
variable {n : Nat} {P : List Leaf → Prop} {i₁ : Parse σ Unit} {i₂ : Parse TokenList Unit}

/-! ## Parts of members -/

theorem peekText_eq {τ : Type} [TokenSource τ] (T : Supply version τ) {p : Parser τ} (hp : Ready T p) :
    (T.upcoming p.source).head?.map Leaf.text = some (peekText p).1 := by
  obtain ⟨rest, hrest⟩ := T.upcoming_eq_cons hp.ok
  rw [hrest]
  rfl

namespace Meets

theorem parameter : Meets S M {} n parameter parameter :=
  node (bind type (fun _ => expect rfl) (fun _ => id) id trivial) trivial (by decide) rfl

theorem parameterList : Meets S M {} n parameterList parameterList := by
  refine node (bind (expect rfl) (fun _ => peek_bind fun k => ?_) (fun _ => id) id trivial) trivial
    (by decide) rfl
  by_cases hk : k.startsType = true
  · simp only [hk, if_true]
    exact bind (commas parameter) (fun _ => expect rfl) (fun _ _ => trivial) id trivial
  · simp only [hk]
    exact (expect rfl).mono (fun _ _ => trivial) (fun _ _ => id) (fun _ => le_rfl) .rfl id le_rfl

theorem baseList : Meets S M { pre := fun L => frontKind L = .punct .colon } n baseList baseList :=
  node (bind (bump_kind (P := fun _ => True) rfl) (fun _ => commas type) (fun _ hL => ⟨hL, trivial⟩) id trivial)
    trivial (by decide) rfl

/-- Whether a record comes is seen in the version of the language and the first two tokens. -/
theorem atRecord : Meets S M { pre := fun L => frontKind L = .ident ∧ P L,
                               post := fun _ L => frontKind L = .ident ∧ P L } n atRecord atRecord := by
  refine reads (fun _ => rfl) (fun _ => rfl) (fun _ _ hP => hP) (fun p₁ p₂ common hat hne hP => ?_)
    (fun _ => rfl) id
  have hright : (Supply.ofTokenList version).upcoming p₂.source = common ++ M.right := hat.alike.right
  obtain ⟨l, rest, rfl⟩ := List.exists_cons_of_ne_nil hne
  have hl : l.tokenKind = .ident := by
    rw [← hP.1, hat.alike.left]
    rfl
  have hrest : rest ≠ [] := hat.alike.tail_ne_nil (by rw [hl]; rfl)
  have htext : (peekText p₁).1 = (peekText p₂).1 := by
    have h₁ := peekText_eq S hat.ready₁
    have h₂ := peekText_eq _ hat.alike.ready₂
    rw [hat.alike.left] at h₁
    rw [hright] at h₂
    exact Option.some.inj (h₁.symm.trans h₂)
  have hsecond : (peekSecond p₁).1 = (peekSecond p₂).1 := by
    rw [peekSecond_eq S hat.ready₁ (by rw [hat.alike.left, List.cons_append, frontKind_cons, hl]; decide),
      peekSecond_eq _ hat.alike.ready₂ (by rw [hright, List.cons_append, frontKind_cons, hl]; decide),
      hat.alike.left, hright, List.cons_append, List.cons_append, List.tail_cons, List.tail_cons,
      frontKind_append hrest, frontKind_append hrest]
  show (p₁.version.supportsRecords && decide ((peekText p₁).1 = "record".toList) &&
      decide ((peekSecond p₁).1 = .ident)) =
    (p₂.version.supportsRecords && decide ((peekText p₂).1 = "record".toList) &&
      decide ((peekSecond p₂).1 = .ident))
  rw [htext, hsecond, hat.ready₁.version, hat.alike.ready₂.version]

theorem memberBody {context : ListContext} (h : Meets S M (.unit TokenKind.startsMember true) n i₁ i₂) :
    Meets S M { outer := True } n (memberBody i₁ context) (memberBody i₂ context) := by
  have hlist : Meets S M { outer := True } n
      (do Parse.within context (Parse.loop (memberRound i₁ (some (.punct .rBrace))))
          Parse.expect (.punct .rBrace))
      (do Parse.within context (Parse.loop (memberRound i₂ (some (.punct .rBrace))))
          Parse.expect (.punct .rBrace)) := by
    rw [within_expect, within_expect]
    exact within (list rfl (by decide) (fun k hk => by rintro rfl; simp at hk) h)
  exact bind (expect rfl) (fun _ => hlist) (fun _ => id) id trivial

/-- The last part of a member, and the node around the whole of it. -/
theorem then_member {C : Contract Unit} {m₁ : Parse σ Unit} {m₂ : Parse TokenList Unit} {kind : NodeKind}
    (h : Meets S M C n m₁ m₂) (hwhole : C.whole) (hif : kind ≠ .ifStmt) :
    Meets S M { C with whole := False } n (do m₁; Parse.enclose kind) (do m₂; Parse.enclose kind) :=
  (then_enclose h hwhole hif).mono (fun _ => id) (fun _ _ => id) (fun _ => le_rfl) .rfl False.elim le_rfl

theorem typeDeclaration {k : TokenKind} {kind : NodeKind} (hk : k.closes = false) (hif : kind ≠ .ifStmt)
    (h : Meets S M (.unit TokenKind.startsMember true) (n - 1) i₁ i₂) :
    Meets S M { pre := fun L => frontKind L = k ∧ P L, taken := fun _ => 1, outer := True, whole := False } n
      (typeDeclaration i₁ kind) (typeDeclaration i₂ kind) := by
  refine bind (bump_kind hk) (fun _ => ?_) (fun _ => id) id trivial
  refine bind (expect rfl) (fun _ => ?_) (fun _ _ => trivial) id trivial
  have hbody : Meets S M { outer := True, whole := False } (n - 1)
      (do Parse.memberBody i₁ .typeBody; Parse.enclose kind)
      (do Parse.memberBody i₂ .typeBody; Parse.enclose kind) := then_member (memberBody h) trivial hif
  refine bind (isAt (P := fun _ => True) (.punct .colon)) (fun b => ?_) (fun _ => id) id trivial
  cases b with
  | false => exact hbody.mono (fun _ _ => trivial) (fun _ _ => id) (fun _ => Nat.zero_le _) .rfl id le_rfl
  | true =>
    exact bind baseList (fun _ => hbody) (fun L hL => hL.1.1 rfl) id trivial

theorem namespaceDeclaration {k : TokenKind} (hk : k.closes = false)
    (h : Meets S M (.unit TokenKind.startsMember true) (n - 1) i₁ i₂) :
    Meets S M { pre := fun L => frontKind L = k ∧ P L, taken := fun _ => 1, outer := True, whole := False } n
      (namespaceDeclaration i₁) (namespaceDeclaration i₂) := by
  refine bind (bump_kind hk) (fun _ => ?_) (fun _ => id) id trivial
  refine bind name (fun _ => ?_) (fun _ _ => trivial) id trivial
  exact then_member (memberBody h) trivial (by decide)

theorem usingDirective {k : TokenKind} (hk : k.closes = false) :
    Meets S M { pre := fun L => frontKind L = k ∧ P L, taken := fun _ => 1, outer := True, whole := False } n
      usingDirective usingDirective := by
  refine bind (bump_kind hk) (fun _ => ?_) (fun _ => id) id trivial
  refine bind name (fun _ => ?_) (fun _ _ => trivial) id trivial
  exact then_member (expect_outer rfl (by decide)) trivial (by decide)

theorem methodOrField_eq {τ : Type} [TokenSource τ] : (Parse.methodOrField : Parse τ Unit) = (do
    if ← Parse.atPair .ident (.punct .lParen) then
      bump
      Parse.parameterList
      if ← Parse.isAt (.punct .lBrace) then Parse.block else Parse.expect (.punct .semicolon)
      Parse.enclose .methodDecl
    else
      Parse.declarators
      Parse.expect (.punct .semicolon)
      Parse.enclose .fieldDecl) := rfl

theorem methodOrField : Meets S M { outer := True, whole := False } n methodOrField methodOrField := by
  rw [methodOrField_eq, methodOrField_eq]
  refine bind (atPair (P := fun _ => True) rfl) (fun b => ?_) (fun _ => id) id trivial
  cases b with
  | false =>
    refine bind declarators (fun _ => ?_) (fun _ _ => trivial) id trivial
    exact then_member (expect_outer rfl (by decide)) trivial (by decide)
  | true =>
    refine bind (bump_kind (P := fun _ => True) (k := .ident) rfl) (fun _ => ?_)
      (fun L hL => ⟨(hL.1 rfl).1, trivial⟩) id trivial
    refine bind parameterList (fun _ => ?_) (fun _ _ => trivial) id trivial
    refine bind (isAt (P := fun _ => True) (.punct .lBrace)) (fun b => ?_) (fun _ => id) id trivial
    cases b with
    | false =>
      exact (then_member (expect_outer rfl (by decide)) trivial (by decide)).mono (fun _ _ => trivial)
        (fun _ _ => id) (fun _ => Nat.zero_le _) .rfl id le_rfl
    | true =>
      exact (then_member block trivial (by decide)).mono (fun L hL => hL.1.1 rfl) (fun _ _ => id)
        (fun _ => Nat.zero_le _) .rfl id le_rfl

end Meets

/-! ## Members by their first token -/

/-- The tokens that can begin a member behind its modifiers. -/
def startsTail (k : TokenKind) : Bool := k.startsMember && !k.isModifier

theorem not_startsTail {k : TokenKind} (husing : k ≠ .keyword .usingKw)
    (hnamespace : k ≠ .keyword .namespaceKw) (hclass : k ≠ .keyword .classKw)
    (hstruct : k ≠ .keyword .structKw) (hinterface : k ≠ .keyword .interfaceKw)
    (hbuiltin : ∀ t, k ≠ .builtin t) (hident : k ≠ .ident) : startsTail k = false := by
  unfold startsTail TokenKind.startsMember
  split <;> simp_all [TokenKind.isModifier]

theorem closes_of_isModifier {k : TokenKind} (h : k.isModifier = true) : k.closes = false := by
  cases k <;> simp_all [TokenKind.isModifier, TokenKind.closes]

/-- A member behind its modifiers, whose first token is known. -/
def tailAt {τ : Type} [TokenSource τ] (i : Parse τ Unit) (k : TokenKind) : Parse τ Unit :=
  match k with
  | .keyword .usingKw => usingDirective
  | .keyword .namespaceKw => namespaceDeclaration i
  | .keyword .classKw => typeDeclaration i .classDecl
  | .keyword .structKw => typeDeclaration i .structDecl
  | .keyword .interfaceKw => typeDeclaration i .interfaceDecl
  | .builtin _ => do
    type
    methodOrField
  | .ident => do
    if ← atRecord then typeDeclaration i .recordDecl
    else
      type
      methodOrField
  | _ => do
    missing .ident .typeExpected
    enclose .incompleteMember

theorem memberTail_eq {τ : Type} [TokenSource τ] (i : Parse τ Unit) : memberTail i = peek >>= tailAt i := rfl

/-- One round of the modifiers of a member. -/
def modifierRound {τ : Type} [TokenSource τ] : Parse τ Bool := do
  if (← peek).isModifier then
    bump
    return true
  else return false

theorem memberOf_eq {τ : Type} [TokenSource τ] (i : Parse τ Unit) :
    memberOf i = scope (do loop modifierRound; memberTail i) := rfl

namespace Meets

theorem typed {k : TokenKind} (hk : k.startsType = true) :
    Meets S M { pre := fun L => frontKind L = k ∧ P L, taken := fun _ => 1, outer := True, whole := False } n
      (do Parse.type; Parse.methodOrField) (do Parse.type; Parse.methodOrField) :=
  bind (of_starting_true (P := fun L => frontKind L = k ∧ P L) (typeOf true) fun _ hL => hL.1 ▸ hk)
    (fun _ => methodOrField.mono (fun _ _ => trivial) (fun _ _ => id) (fun _ => Nat.zero_le _) .rfl id le_rfl)
    (fun _ => id) id trivial

theorem memberTail (b : Bool) (h : Meets S M (.unit TokenKind.startsMember true) (n - 1) i₁ i₂) :
    Meets S M { Contract.unit startsTail b with whole := False } n (memberTail i₁) (memberTail i₂) := by
  rw [memberTail_eq, memberTail_eq]
  refine peek_bind fun k => ?_
  unfold tailAt
  split
  · exact of_unit_taken (usingDirective rfl) b
  · exact of_unit_taken (namespaceDeclaration rfl h) b
  · exact of_unit_taken (typeDeclaration rfl (by decide) h) b
  · exact of_unit_taken (typeDeclaration rfl (by decide) h) b
  · exact of_unit_taken (typeDeclaration rfl (by decide) h) b
  · exact of_unit_taken (typed rfl) b
  · refine of_unit_taken ?_ b
    refine bind atRecord (fun r => ?_) (fun _ => id) id trivial
    cases r with
    | false => exact typed rfl
    | true => exact typeDeclaration rfl (by decide) h
  · rename_i husing hnamespace hclass hstruct hinterface hbuiltin hident
    cases b with
    | false =>
      exact then_member (C := { pre := fun L => frontKind L = k ∧ _, outer := True })
        (missing _ _ (fun _ _ => trivial) rfl) trivial (by decide)
    | true =>
      refine of_not_pre fun L hL => ?_
      have htail : startsTail k = true := hL.1 ▸ hL.2 rfl
      rw [not_startsTail husing hnamespace hclass hstruct hinterface hbuiltin hident] at htail
      cases htail

theorem memberOf (b : Bool) (h : Meets S M (.unit TokenKind.startsMember true) (n - 1) i₁ i₂) :
    Meets S M { Contract.unit TokenKind.startsMember b with whole := False } n (memberOf i₁) (memberOf i₂) := by
  have hround : ∀ b k, Meets S M { pre := fun L => b = true → (frontKind L).startsMember = true
                                   post := fun r L => r = false → b = true → startsTail (frontKind L) = true
                                   taken := fun r => if r then 1 else 0 } k
      (modifierRound : Parse σ Bool) modifierRound := by
    intro b k
    refine peek_bind fun kind => ?_
    by_cases hk : kind.isModifier = true
    · rw [if_pos hk, if_pos hk]
      refine bind (bump_kind (closes_of_isModifier hk)) (fun _ => ?_) (fun _ => id) id trivial
      exact pure (fun _ _ => nofun) rfl id
    · rw [if_neg hk, if_neg hk]
      refine pure (fun L hL _ hb => ?_) rfl id
      have hstart := hL.2 hb
      rw [hL.1] at hstart ⊢
      simpa [startsTail, hk] using hstart
  have hmodifiers : ∀ d₁ d₂ k, k ≤ d₁ → k ≤ d₂ → Meets S M {} k
      (Parse.fixUpTo (fun again => do if ← modifierRound then again) d₁ : Parse σ Unit)
      (Parse.fixUpTo (fun again => do if ← modifierRound then again) d₂) := by
    intro d₁ d₂ k h₁ h₂
    refine fixUpTo (N := k) (fun j a₁ a₂ ha => ?_) d₁ d₂ k le_rfl h₁ h₂
    refine bind (hround false _) (fun r => ?_) (fun _ _ => nofun) id trivial
    cases r with
    | false => exact pure (fun _ _ => trivial) rfl id
    | true =>
      refine ha.mono (fun _ _ => trivial) (fun _ _ => id) (fun _ => by simp) .rfl id ?_
      show min (j + 1) k - 1 ≤ j
      omega
  rw [memberOf_eq, memberOf_eq]
  let g₁ : Nat → Parse σ Unit := fun d => do
    Parse.fixUpTo (fun again => do if ← modifierRound then again) d
    Parse.memberTail i₁
  let g₂ : Nat → Parse TokenList Unit := fun d => do
    Parse.fixUpTo (fun again => do if ← modifierRound then again) d
    Parse.memberTail i₂
  have htail : ∀ b k, k ≤ n → Meets S M { Contract.unit startsTail b with whole := False } k
      (Parse.memberTail i₁) (Parse.memberTail i₂) := fun b k hk =>
    memberTail b (h.mono (fun _ => id) (fun _ _ => id) (fun _ => le_rfl) .rfl id (by omega))
  have hrest : ∀ d₁ d₂ k, k ≤ n → k ≤ d₁ → k ≤ d₂ →
      Meets S M { outer := True, whole := False } k (g₁ d₁) (g₂ d₂) := fun d₁ d₂ k hk h₁ h₂ =>
    bind (hmodifiers d₁ d₂ k h₁ h₂)
      (fun _ => (htail false k hk).mono (fun _ _ => nofun) (fun _ _ => id) (fun _ => le_rfl) .rfl id le_rfl)
      (fun _ => id) id trivial
  refine scope (of_deep (u := g₁) (v := g₂) (deep_remaining S) (deep_remaining _) fun d₁ d₂ k hk h₁ h₂ => ?_)
  cases k with
  | zero =>
    exact of_kept fun p hp _ =>
      ⟨((hrest d₁ d₂ 0 (Nat.zero_le _) (Nat.zero_le _) (Nat.zero_le _)).keeps p hp trivial).1, trivial⟩
  | succ k =>
    obtain ⟨d₁, rfl⟩ : ∃ d, d₁ = d + 1 := ⟨d₁ - 1, by omega⟩
    obtain ⟨d₂, rfl⟩ : ∃ d, d₂ = d + 1 := ⟨d₂ - 1, by omega⟩
    show Meets S M _ _ (do
        Parse.fixUpTo (fun again => do if ← modifierRound then again) (d₁ + 1)
        Parse.memberTail i₁) (do
        Parse.fixUpTo (fun again => do if ← modifierRound then again) (d₂ + 1)
        Parse.memberTail i₂)
    rw [fixUpTo_succ_bind, fixUpTo_succ_bind]
    refine bind (hround b _) (fun r => ?_) (fun _ => id) id trivial
    cases r with
    | false =>
      exact (htail b (k + 1) hk).mono (fun _ hL => hL rfl) (fun _ _ => id) (fun _ => le_rfl) .rfl id le_rfl
    | true =>
      exact (hrest d₁ d₂ k (by omega) (by omega) (by omega)).mono (fun _ _ => trivial) (fun _ _ => id)
        (fun _ => by cases b <;> simp [Contract.unit, Contract.starting]) .rfl id le_rfl

end Meets

end Parse

end IncrementalSyntax

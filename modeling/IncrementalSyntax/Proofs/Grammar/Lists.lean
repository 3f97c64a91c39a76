import IncrementalSyntax.Proofs.Grammar.Lookahead

/-!
# Lists of elements

A list goes on up to a token that closes it. A token that can begin no element is skipped, unless an open
list can use it. Which lists are open is all that the recovery reads of what stands around a list, and what
is skipped carries a diagnostic, so the recovery is out of play in what is built without one.

## Main definitions

* `ListContext.stops`: the tokens that are not skipped
* `Parse.listRound`: one round of a list
* `Mode.whole`: the mode of two runs on the same text

## Main results

* `Parse.Meets.skipToRecovery`, `Parse.skipToRecovery_cases`: skipped tokens
* `Parse.Meets.list`: the elements of a list and the token that closes it
* `Parse.Meets.list_strict`: the elements of a list that ends where the text does
-/

namespace IncrementalSyntax

/-- Whether a token is not skipped among some lists: it ends the text, or a list can use it. -/
def ListContext.stops (lists : List ListContext) (k : TokenKind) : Bool :=
  decide (k = .eof) || lists.any (·.isRecoveryPoint k)

theorem ListContext.stops_iff {lists : List ListContext} {k : TokenKind} :
    stops lists k = true ↔ k = .eof ∨ ∃ context ∈ lists, context.isRecoveryPoint k = true := by
  simp [stops]

theorem ListContext.stops_eq_false_iff {lists : List ListContext} {k : TokenKind} :
    stops lists k = false ↔ k ≠ .eof ∧ ∀ context ∈ lists, context.isRecoveryPoint k = false := by
  simp [stops]

namespace Parse

open Green hiding id
open ListContext (stops stops_iff stops_eq_false_iff)

/-! ## Rounds -/

/-- One round of a list: it stops, or an element follows, or tokens are skipped. -/
def listRound {σ : Type} [TokenSource σ] (stops starts : TokenKind → Bool) (inner : Parse σ Unit) :
    Parse σ Bool := do
  let kind ← peek
  if stops kind then return false
  else if starts kind then
    inner
    return true
  else skipToRecovery

theorem blockRound_eq {σ : Type} [TokenSource σ] (inner : Parse σ Unit) :
    blockRound inner = listRound (fun k => k = .punct .rBrace || k = .eof) TokenKind.startsStatement inner :=
  rfl

theorem memberRound_eq {σ : Type} [TokenSource σ] (inner : Parse σ Unit) (closer : Option TokenKind) :
    memberRound inner closer = listRound (fun k => k = .eof || some k = closer) TokenKind.startsMember inner :=
  rfl

variable {version : LanguageVersion} {σ : Type} [TokenSource σ] {S : Supply version σ} {M : Mode}
variable {n : Nat} {P : List Leaf → Prop}

/-- The mode in which two runs have all tokens in common. -/
def Mode.whole : Mode := ⟨True, [], [], fun _ => ⟨rfl, rfl⟩⟩

/-! ## Skipped tokens -/

theorem atRecoveryPoint_apply {p : Parser σ} (hp : Ready S p) :
    (atRecoveryPoint p).1 = stops p.contexts (front S p) := by
  have h : (atRecoveryPoint p).1 = stops p.contexts (TokenSource.next p.source).1.leaf.tokenKind := rfl
  rw [h, front, S.frontKind_upcoming hp.ok]

/-- The tokens that are skipped behind the first one. -/
def skipRest {τ : Type} [TokenSource τ] : Parse τ Unit := loop do
  if ← atRecoveryPoint then return false
  bump
  return true

namespace Meets

/-- In the strict mode there is a common token behind every action. -/
theorem of_strict {α : Type} {C : Contract α} {m₁ : Parse σ α} {m₂ : Parse TokenList α}
    (hM : M.strict) (h : Meets S M C n m₁ m₂) : Meets S M { C with outer := False } n m₁ m₂ where
  keeps := h.keeps
  sound := h.sound
  closed := False.elim
  follows p₁ p₂ common hat hne hn hP := by
    rcases h.follows p₁ p₂ common hat hne hn hP with hl | ⟨-, hh⟩ | ⟨ha, rest, hat', hlen, -⟩
    · exact .inl hl
    · exact absurd hM hh.2.1
    · exact .inr (.inr ⟨ha, rest, hat', hlen, fun _ hnil => (hnil ▸ hat').not_strict_of_nil hM⟩)

theorem bump_strict (hM : M.strict) :
    Meets S M { pre := fun L => frontKind L ≠ .eof, taken := fun _ => 1 } n bump bump := by
  refine peek_bind (f := fun _ => Parse.bump) (g := fun _ => Parse.bump) fun k => ?_
  by_cases hk : k.closes = true
  · exact of_strict hM (C := { pre := fun L => frontKind L = k ∧ frontKind L ≠ .eof
                               taken := fun _ => 1
                               outer := True })
      (bump_of (fun L hL => ⟨hL.2, by simp [hL.1, hk], trivial⟩) rfl)
  · exact bump_of (fun L hL => ⟨hL.2, by simp [hL.1, hk], trivial⟩) rfl

theorem atRecoveryPoint (hM : M.strict) :
    Meets S M { pre := P, post := fun b L => (b = false → frontKind L ≠ .eof) ∧ P L } n atRecoveryPoint
      atRecoveryPoint := by
  refine reads (fun _ => rfl) (fun _ => rfl) (fun p hp hP => ⟨fun hb => ?_, hP⟩)
    (fun p₁ p₂ common hat hne hP => ?_) (fun _ => rfl) id
  · rw [atRecoveryPoint_apply hp] at hb
    exact (stops_eq_false_iff.1 hb).1
  · show (decide ((Parse.peek p₁).1 = .eof) || p₁.contexts.any (·.isRecoveryPoint (Parse.peek p₁).1)) =
      (decide ((Parse.peek p₂).1 = .eof) || p₂.contexts.any (·.isRecoveryPoint (Parse.peek p₂).1))
    rw [(hat.alike.peek_eq hne).1, (hat.alike.peek_eq hne).2, (hat.strict hM).1]

end Meets

/-- The token at the front with the diagnostic of a token that nothing can use. -/
def unexpected (l : Leaf) : Leaf :=
  l.withDiagnostic (.ofCode .unexpectedToken l.leadingWidth l.textWidth [l.kind.describe])

theorem bare_unexpected (l : Leaf) : (unexpected l).bare = l.bare := by
  simp [unexpected, Leaf.withDiagnostic, Leaf.bare, Diagnostic.ofCode]

theorem flagged_unexpected (id : Id) (l : Leaf) : Flagged [.token ⟨id, unexpected l⟩] :=
  ⟨unexpected l, List.mem_cons_self, by simp [unexpected, Leaf.withDiagnostic]⟩

theorem bumpUnexpected_apply (p : Parser σ) :
    bumpUnexpected p = ((), { p with
      source := (TokenSource.fresh (TokenSource.next p.source).2).2
      out := p.out ++ [.token ⟨(TokenSource.fresh (TokenSource.next p.source).2).1,
        unexpected (TokenSource.next p.source).1.leaf⟩] }) := rfl

theorem flagged_bumpUnexpected (p : Parser σ) : Flagged (bumpUnexpected p).2.out := by
  rw [bumpUnexpected_apply]
  exact flagged_append.2 (.inr (flagged_unexpected _ _))

theorem Kept.bumpUnexpected {p : Parser σ} (hp : Ready S p) (hne : front S p ≠ .eof) :
    Kept S p (bumpUnexpected p).2 := by
  rw [bumpUnexpected_apply]
  refine Kept.take hp hne (fun h => S.fresh h) rfl (bare_unexpected _) fun h => ?_
  simp [unexpected, Leaf.withDiagnostic] at h

namespace Meets

theorem bumpUnexpected (hM : M.strict) :
    Meets S M { pre := fun L => frontKind L ≠ .eof, taken := fun _ => 1 } n bumpUnexpected
      bumpUnexpected where
  keeps p hp hP := by
    obtain ⟨hok, hcons⟩ := S.next_of_ne hp.ok (by rwa [← S.frontKind_upcoming hp.ok])
    refine ⟨.bumpUnexpected hp hP, trivial, fun _ => ?_⟩
    show (S.upcoming (TokenSource.fresh (TokenSource.next p.source).2).2).length + 1 ≤ _
    rw [(S.fresh hok).2, hcons]
    exact le_rfl
  sound _ _ _ _ := sound_emit
  closed := False.elim
  follows p₁ p₂ common hat hne hn hP := by
    obtain ⟨l, rest, rfl⟩ := List.exists_cons_of_ne_nil hne
    have hP : frontKind (S.upcoming p₁.source) ≠ .eof := hP
    rw [hat.alike.frontKind_left hne, frontKind_cons] at hP
    obtain ⟨hl, hl', hok, hok', hup, hup'⟩ := hat.alike.next hP
    obtain ⟨hfresh, hfup⟩ := S.fresh hok
    obtain ⟨hfresh', hfup'⟩ := (Supply.ofTokenList version).fresh hok'
    have hat' : At S M (Parse.bumpUnexpected p₁).2 (Parse.bumpUnexpected p₂).2 rest := by
      rw [bumpUnexpected_apply, bumpUnexpected_apply]
      refine hat.emit [l] hfresh hfresh' (hfup.trans hup)
        (hfup'.trans hup') ?_ fun hs => (hat.strict hs).2
      simp [shape, hl, hl']
    exact .inr (.inr ⟨rfl, rest, hat', le_rfl, fun _ hnil => (hnil ▸ hat').not_strict_of_nil hM⟩)

theorem skipRest (hM : M.strict) : Meets S M {} n skipRest skipRest := by
  refine loop (bind (atRecoveryPoint (P := fun _ => True) hM) (fun b => ?_) (fun _ => id) id trivial)
  cases b with
  | true => exact pure (fun _ _ => trivial) rfl id
  | false =>
    refine bind (bump_strict hM) (fun _ => ?_) (fun L hL => hL.1 rfl) id trivial
    exact pure (fun _ _ => trivial) rfl id

theorem skipToRecovery (hM : M.strict) :
    Meets S M { taken := fun b => if b then 1 else 0 } n skipToRecovery skipToRecovery := by
  refine bind (atRecoveryPoint (P := fun _ => True) hM) (fun b => ?_) (fun _ => id) id trivial
  cases b with
  | true => exact pure (fun _ _ => trivial) rfl id
  | false =>
    refine bind (C := { pre := fun L => frontKind L ≠ .eof, taken := fun _ => 1 }) ?_ (fun _ => ?_)
      (fun L hL => hL.1 rfl) id trivial
    · exact node (followed (bumpUnexpected hM) (skipRest hM) (fun _ => trivial) id trivial) trivial
        (by decide) rfl
    · exact pure (fun _ _ => trivial) rfl id

end Meets

theorem skipToRecovery_apply (p : Parser σ) :
    skipToRecovery p = (if (atRecoveryPoint p).1 = true then (Pure.pure false : Parse σ Bool) else do
      node .skippedTokens do
        bumpUnexpected
        skipRest
      return true) p := rfl

/-- Either the token at the front can be used, or some tokens are skipped. -/
theorem skipToRecovery_cases {p : Parser σ} (hp : Ready S p) :
    skipToRecovery p = (false, p) ∨ Flagged (skipToRecovery p).2.out := by
  rw [skipToRecovery_apply]
  by_cases hb : (atRecoveryPoint p).1 = true
  · rw [if_pos hb]
    exact .inl rfl
  · right
    rw [if_neg hb]
    have hne : front S p ≠ .eof := fun he => hb ((atRecoveryPoint_apply hp).trans (stops_iff.2 (.inl he)))
    have hready : Ready S { p with out := [] } := ⟨hp.ok, hp.version⟩
    have hk := (Meets.skipRest (S := S) (M := .whole) (n := 0) trivial).keeps _
      (Kept.bumpUnexpected hready hne).ready trivial
    refine flagged_append.2 (.inr (flagged_ofChildren.2 (hk.1.flagged ?_)))
    exact flagged_bumpUnexpected _

/-! ## Lists up to a closing token -/

theorem expect_of_eq {k : TokenKind} {p : Parser σ} (hp : Ready S p) (h : front S p = k) :
    expect k p = bump p := by
  have hk : (TokenSource.next p.source).1.leaf.tokenKind = k := (S.frontKind_upcoming hp.ok).symm.trans h
  rw [expect_eq]
  show expectBody k (TokenSource.next p.source).1.leaf.tokenKind p = _
  rw [expectBody, if_pos hk]

theorem expect_of_ne {k : TokenKind} {p : Parser σ} (hp : Ready S p) (h : front S p ≠ k) :
    expect k p = missing k (if k = .ident then .identifierExpected else .tokenExpected) p := by
  have hk : (TokenSource.next p.source).1.leaf.tokenKind ≠ k := by
    rwa [← S.frontKind_upcoming hp.ok]
  rw [expect_eq]
  show expectBody k (TokenSource.next p.source).1.leaf.tokenKind p = _
  rw [expectBody, if_neg hk]

theorem Demanding.expect {k : TokenKind} (hk : k ≠ .eof) : Demanding S (expect k) := by
  intro p hp
  by_cases h : front S p = k
  · have hne : front S p ≠ .eof := h ▸ hk
    rw [expect_of_eq hp h]
    refine ⟨.bump hp hne, .inl ?_⟩
    obtain ⟨-, hcons⟩ := S.next_of_ne hp.ok (by rwa [← S.frontKind_upcoming hp.ok])
    rw [hcons]
    exact Nat.lt_succ_self _
  · rw [expect_of_ne hp h]
    refine ⟨?_, .inr (flagged_missing _ _ _)⟩
    rw [missing_apply]
    exact .missing hp (S.fresh hp.ok)

namespace Meets

variable {i₁ : Parse σ Unit} {i₂ : Parse TokenList Unit} {closer : TokenKind}

/-- Tokens are skipped in a list. In front of a token that stays where it is the closing token is missing. -/
theorem recover {a₁ : Parse σ Unit} {a₂ : Parse TokenList Unit} (hcl : closer.closes = true)
    (hne : closer ≠ .eof) (ha : Meets S M { outer := True } (n - 1) a₁ a₂) :
    Meets S M { pre := fun L => frontKind L ≠ closer, outer := True } n
      (do if ← Parse.skipToRecovery then a₁ else Parse.expect closer)
      (do if ← Parse.skipToRecovery then a₂ else Parse.expect closer) := by
  have hf : ∀ b : Bool, Meets S M { outer := True, taken := fun _ => 0 - (if b then 1 else 0) }
      (n - (if b then 1 else 0)) (if b then a₁ else Parse.expect closer)
      (if b then a₂ else Parse.expect closer) := by
    intro b
    cases b with
    | true => exact ha.mono (fun _ => id) (fun _ _ => id) (fun _ => by simp) .rfl id le_rfl
    | false => exact expect_outer hcl hne
  refine ⟨(skipToRecovery (M := .whole) trivial).toActs.bind (fun b => (hf b).toActs) (fun _ _ => trivial)
    trivial, fun p₁ p₂ common hat hnil hn hP => ?_⟩
  by_cases hM : M.strict
  · exact (bind (skipToRecovery hM) hf (fun _ _ => trivial) id trivial).follows p₁ p₂ common hat hnil hn
      hP
  · left
    show Lost S M ((if (Parse.skipToRecovery p₁).1 = true then a₁ else Parse.expect closer)
      (Parse.skipToRecovery p₁).2).2
    rcases skipToRecovery_cases hat.ready₁ with h | h
    · rw [h]
      show Lost S M (Parse.expect closer p₁).2
      have hk := (Demanding.expect hne p₁ hat.ready₁).1
      refine ⟨hk.ready, .inr (.inr ⟨hM, ?_⟩)⟩
      rw [expect_of_ne hat.ready₁ hP]
      exact flagged_missing _ _ _
    · have hk := ((skipToRecovery (S := S) (M := .whole) (n := 0) trivial).keeps p₁ hat.ready₁ trivial).1
      have hlost : Lost S M (Parse.skipToRecovery p₁).2 := ⟨hk.ready, .inr (.inr ⟨hM, h⟩)⟩
      exact hlost.kept ((hf _).keeps _ hk.ready trivial).1

end Meets

/-- A list behind which something else comes, one round at a time. -/
theorem fixUpTo_succ_bind {τ : Type} [TokenSource τ] (round : Parse τ Bool) (f : Parse τ Unit) (d : Nat) :
    (do fixUpTo (fun again => do if ← round then again) (d + 1); f : Parse τ Unit) =
      (do if ← round then (do fixUpTo (fun again => do if ← round then again) d; f) else f) := by
  funext p
  show f ((if (round p).1 = true then _ else (Pure.pure () : Parse τ Unit)) (round p).2).2 =
    (if (round p).1 = true then _ else f) (round p).2
  cases (round p).1 <;> rfl

theorem Kept.listRound {stops starts : TokenKind → Bool} {i : Parse σ Unit}
    (h : ∀ p, Ready S p → starts (front S p) = true → Kept S p (i p).2) {p : Parser σ} (hp : Ready S p) :
    Kept S p (Parse.listRound stops starts i p).2 := by
  have hround : Parse.listRound stops starts i p = (if stops (front S p) then (Pure.pure false : Parse σ Bool)
      else if starts (front S p) then (do i; return true) else skipToRecovery) p := by
    rw [front, S.frontKind_upcoming hp.ok]
    rfl
  rw [hround]
  split
  · exact .refl hp
  · split
    next hs => exact h p hp hs
    next => exact ((Meets.skipToRecovery (S := S) (M := .whole) (n := 0) trivial).keeps p hp trivial).1

namespace Meets

variable {i₁ : Parse σ Unit} {i₂ : Parse TokenList Unit} {closer : TokenKind}
variable {stops starts : TokenKind → Bool}

/-- The elements of a list and the token that closes it. -/
theorem list (hcl : closer.closes = true) (hne : closer ≠ .eof)
    (hstops : ∀ k, stops k = false → k ≠ closer) (h : Meets S M (.unit starts true) n i₁ i₂) :
    Meets S M { outer := True } n (do Parse.loop (listRound stops starts i₁); Parse.expect closer)
      (do Parse.loop (listRound stops starts i₂); Parse.expect closer) := by
  have hround : ∀ k a₁ a₂, Demanding S a₁ → Meets S M { outer := True } k a₁ a₂ →
      Meets S M { outer := True } (min (k + 1) n)
        (do if ← listRound stops starts i₁ then a₁ else Parse.expect closer)
        (do if ← listRound stops starts i₂ then a₂ else Parse.expect closer) := by
    intro k a₁ a₂ hd ha
    have ha : Meets S M { outer := True } (min (k + 1) n - 1) a₁ a₂ :=
      ha.mono (fun _ => id) (fun _ _ => id) (fun _ => le_rfl) .rfl id (by omega)
    refine peek_bind
      (f := fun kind => do
        if ← (if stops kind then (return false) else if starts kind then (do i₁; return true)
          else Parse.skipToRecovery) then a₁ else Parse.expect closer)
      (g := fun kind => do
        if ← (if stops kind then (return false) else if starts kind then (do i₂; return true)
          else Parse.skipToRecovery) then a₂ else Parse.expect closer) fun kind => ?_
    by_cases hstop : stops kind = true
    · rw [if_pos hstop, if_pos hstop]
      exact (expect_outer hcl hne).mono (fun _ _ => trivial) (fun _ _ => id) (fun _ => le_rfl) .rfl id le_rfl
    rw [if_neg hstop, if_neg hstop]
    by_cases hstart : starts kind = true
    · rw [if_pos hstart, if_pos hstart]
      have hi : Meets S M (.unit starts true) (min (k + 1) n) i₁ i₂ :=
        h.mono (fun _ => id) (fun _ _ => id) (fun _ => le_rfl) .rfl id (Nat.min_le_right _ _)
      exact bind_demanding (f := fun _ => a₁) (g := fun _ => a₂) hi
        (fun _ => ha.mono (fun _ _ => trivial) (fun _ _ => id) (fun _ => Nat.zero_le _) .rfl id le_rfl)
        (fun _ => hd) (fun L hL _ => by rw [hL.1, hstart]) trivial
    · rw [if_neg hstart, if_neg hstart]
      have hkind : kind ≠ closer := hstops kind (by simpa using hstop)
      exact (recover hcl hne ha).mono (fun L hL => hL.1.trans_ne hkind) (fun _ _ => id) (fun _ => le_rfl) .rfl
        id le_rfl
  have hdem : ∀ d, Demanding S (do
      Parse.fixUpTo (fun again => do if ← listRound stops starts i₁ then again) d
      Parse.expect closer) := by
    intro d
    induction d with
    | zero => exact Demanding.expect hne
    | succ d ih =>
      rw [fixUpTo_succ_bind]
      refine .bind (fun p hp => .listRound (fun p hp hs => (h.keeps p hp fun _ => hs).1) hp) fun b => ?_
      cases b with
      | true => exact ih
      | false => exact Demanding.expect hne
  let g₁ : Nat → Parse σ Unit := fun d => do
    Parse.fixUpTo (fun again => do if ← listRound stops starts i₁ then again) d
    Parse.expect closer
  let g₂ : Nat → Parse TokenList Unit := fun d => do
    Parse.fixUpTo (fun again => do if ← listRound stops starts i₂ then again) d
    Parse.expect closer
  refine of_deep (u := g₁) (v := g₂) (deep_remaining S) (deep_remaining _) fun d₁ d₂ k hk h₁ h₂ => ?_
  refine iterate (u := g₁) (v := g₂) (N := n) (expect_outer hcl hne) (fun k d₁ d₂ ih => ?_) d₁ d₂ k hk h₁ h₂
  show Meets S M _ _ (do
    Parse.fixUpTo (fun again => do if ← listRound stops starts i₁ then again) (d₁ + 1)
    Parse.expect closer) (do
    Parse.fixUpTo (fun again => do if ← listRound stops starts i₂ then again) (d₂ + 1)
    Parse.expect closer)
  rw [fixUpTo_succ_bind, fixUpTo_succ_bind]
  exact hround k _ _ (hdem d₁) ih

/-- The elements of a list that ends where the text does. -/
theorem list_strict (hM : M.strict) (h : Meets S M (.unit starts true) n i₁ i₂) :
    Meets S M {} n (Parse.loop (listRound stops starts i₁)) (Parse.loop (listRound stops starts i₂)) := by
  refine loop (peek_bind fun kind => ?_)
  by_cases hstop : stops kind = true
  · rw [if_pos hstop, if_pos hstop]
    exact pure (fun _ _ => trivial) rfl id
  rw [if_neg hstop, if_neg hstop]
  by_cases hstart : starts kind = true
  · rw [if_pos hstart, if_pos hstart]
    refine bind (of_strict hM h) (fun _ => ?_) (fun L hL _ => by rw [hL.1, hstart]) id trivial
    exact pure (fun _ _ => trivial) rfl id
  · rw [if_neg hstart, if_neg hstart]
    exact (skipToRecovery hM).mono (fun _ _ => trivial) (fun _ _ => id) (fun _ => le_rfl) .rfl id le_rfl

end Meets

end Parse

end IncrementalSyntax

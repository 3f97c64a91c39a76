import IncrementalSyntax.Proofs.Grammar.Contract

/-!
# Looking ahead

The parser looks at no more than the first token of what comes, except in two places. It looks at a second
token behind a first one that is no closing one. And it passes over a type, to see whether a statement
declares variables. Both depend on the common tokens alone.

## Main definitions

* `Parse.atPair`: whether two tokens of given kinds come
* `Parse.Sees`: what two runs of an action that looks ahead have in common
* `Parse.Looks`: actions made of looking and passing over
* `Parse.Silent`: actions that do not touch the elements emitted

## Main results

* `Parse.Meets.pair_round`: one round over pairs of tokens
* `Parse.Sees.skipType`, `Parse.Meets.atLocalDeclaration`: passing over a type
-/

namespace IncrementalSyntax

namespace Parse

variable {version : LanguageVersion} {σ : Type} [TokenSource σ] {S : Supply version σ} {M : Mode}
variable {n : Nat} {P : List Leaf → Prop}

/-! ## Two tokens ahead -/

/-- The kind of the second token, unless the first one ends the text. -/
theorem peekSecond_eq {τ : Type} [TokenSource τ] (T : Supply version τ) {p : Parser τ}
    (hp : Ready T p) (hne : frontKind (T.upcoming p.source) ≠ .eof) :
    (peekSecond p).1 = frontKind (T.upcoming p.source).tail := by
  obtain ⟨hok, hcons⟩ := T.next_of_ne hp.ok (by rwa [← T.frontKind_upcoming hp.ok])
  rw [hcons, List.tail_cons, T.frontKind_upcoming hok]
  rfl

/-- Whether a token of one kind and one of another kind come. -/
def atPair (k₁ k₂ : TokenKind) : Parse σ Bool := do
  return (← peek) = k₁ && (← peekSecond) = k₂

/-- Passes over two tokens of given kinds; says whether they came. -/
def skipPair (k₁ k₂ : TokenKind) : Parse σ Bool := do
  if ← atPair k₁ k₂ then
    skip
    skip
    return true
  else return false

theorem atPair_apply {τ : Type} [TokenSource τ] (T : Supply version τ) {p : Parser τ} {k₁ k₂ : TokenKind}
    (hp : Ready T p) (hk : k₁.closes = false) :
    atPair k₁ k₂ p = (decide (frontKind (T.upcoming p.source) = k₁ ∧
      frontKind (T.upcoming p.source).tail = k₂), p) := by
  have h : atPair k₁ k₂ p =
      (decide ((peek p).1 = k₁) && decide ((peekSecond p).1 = k₂), p) := rfl
  have hpeek : (peek p).1 = frontKind (T.upcoming p.source) := (T.frontKind_upcoming hp.ok).symm
  rw [h, hpeek, Bool.decide_and]
  by_cases hf : frontKind (T.upcoming p.source) = k₁
  · rw [peekSecond_eq T hp]
    rintro he
    rw [← hf, he] at hk
    cases hk
  · simp [hf]

theorem Alike.atPair_eq {p₁ : Parser σ} {p₂ : Parser TokenList} {common : List Leaf}
    {k₁ k₂ : TokenKind} (h : Alike S M p₁ p₂ common) (hne : common ≠ []) (hk : k₁.closes = false) :
    (atPair k₁ k₂ p₁).1 = decide (frontKind common = k₁ ∧ frontKind common.tail = k₂) ∧
      (atPair k₁ k₂ p₂).1 = decide (frontKind common = k₁ ∧ frontKind common.tail = k₂) := by
  have hright : (Supply.ofTokenList version).upcoming p₂.source = common ++ M.right := h.right
  rw [atPair_apply S h.ready₁ hk, atPair_apply (Supply.ofTokenList version) h.ready₂ hk, hright, h.left]
  obtain ⟨l, rest, rfl⟩ := List.exists_cons_of_ne_nil hne
  by_cases hl : l.tokenKind = k₁
  · have hrest : rest ≠ [] := h.tail_ne_nil (hl ▸ hk)
    by_cases hl' : frontKind rest = k₂ <;> simp [frontKind_append hrest, hl, hl']
  · simp [hl]

theorem Meets.atPair {k₁ k₂ : TokenKind} (hk : k₁.closes = false) :
    Meets S M { pre := P, post := fun b L => (b = true → frontKind L = k₁ ∧ frontKind L.tail = k₂) ∧ P L } n
      (atPair k₁ k₂) (atPair k₁ k₂) := by
  refine Meets.reads (fun _ => rfl) (fun _ => rfl) (fun p hp hP => ⟨fun h => ?_, hP⟩)
    (fun _ _ _ hat hne _ => (hat.alike.atPair_eq hne hk).1.trans (hat.alike.atPair_eq hne hk).2.symm)
    (fun _ => rfl) id
  rw [atPair_apply S hp hk] at h
  simpa using h

theorem ne_eof_of_closes {k : TokenKind} (hk : k.closes = false) : k ≠ .eof := by
  rintro rfl
  cases hk

/-- A token that is known to come, and is no closing one, is taken. -/
theorem Meets.bump_front {k : TokenKind} (hk : k.closes = false) :
    Meets S M { pre := fun L => frontKind L = k ∧ P L.tail, post := fun _ L => P L, taken := fun _ => 1 } n
      bump bump := by
  refine bump_of (fun L hL => ?_) rfl
  rw [show frontKind L = k from hL.1]
  exact ⟨ne_eof_of_closes hk, by simp [hk], hL.2⟩

/-- Two tokens are taken if they are of the right kinds. -/
theorem Meets.pair_round {k₁ k₂ : TokenKind} {r : Parse σ Unit} {s : Parse TokenList Unit}
    (h₁ : k₁.closes = false) (h₂ : k₂.closes = false) (h : Meets S M {} n r s) :
    Meets S M { taken := fun b => if b then 1 else 0 } n
      (do if ← Parse.atPair k₁ k₂ then bump; bump; r; return true else return false)
      (do if ← Parse.atPair k₁ k₂ then bump; bump; s; return true else return false) := by
  refine bind (atPair (P := fun _ => True) h₁) (fun b => ?_) (fun _ _ => trivial) id trivial
  cases b with
  | false => exact pure (fun _ _ => trivial) rfl id
  | true =>
    refine bind (bump_front (P := fun L => frontKind L = k₂) h₁) (fun _ => ?_) (fun L hL => hL.1 rfl) id
      trivial
    refine bind (bump_front (P := fun _ => True) h₂) (fun _ => ?_) (fun L hL => ⟨hL, trivial⟩) id trivial
    refine bind (C := {}) (h.mono (fun _ => id) (fun _ _ => id) (fun _ => le_rfl) .rfl id ?_) (fun _ => ?_)
      (fun _ _ => trivial) id trivial
    · exact (Nat.sub_le _ _).trans (Nat.sub_le _ _)
    · exact pure (fun _ _ => trivial) rfl id

theorem Meets.nothing : Meets S M { pre := P, post := fun _ => P } n (Pure.pure ()) (Pure.pure ()) :=
  pure (fun _ => id) rfl id

/-! ## Types passed over

Looking ahead takes tokens without emitting them, so only the tokens to come can be compared. -/

/-- Two instances of an action see the same: they give the same result, and stay alike after taking as many
tokens as the contract says. -/
def Sees {α : Type} (S : Supply version σ) (C : Contract α) (n : Nat) (m₁ : Parse σ α)
    (m₂ : Parse TokenList α) : Prop :=
  ∀ M p₁ p₂ common, Alike S M p₁ p₂ common → common ≠ [] → common.length ≤ n → C.pre common →
    (m₁ p₁).1 = (m₂ p₂).1 ∧ ∃ rest, Alike S M (m₁ p₁).2 (m₂ p₂).2 rest ∧ rest ≠ [] ∧
      rest.length + C.taken (m₁ p₁).1 ≤ common.length ∧ C.post (m₁ p₁).1 rest

theorem closes_of_startsType {k : TokenKind} (h : k.startsType = true) : k.closes = false := by
  cases k <;> simp_all [TokenKind.startsType, TokenKind.closes]

namespace Sees

variable {α β : Type} {C : Contract α} {E : Contract β} {m₁ : Parse σ α} {m₂ : Parse TokenList α}

theorem pure {a : α} (hpre : ∀ L, C.pre L → C.post a L) (htaken : C.taken a = 0) :
    Sees S C n (Pure.pure a) (Pure.pure a) := fun _ _ _ common h hne _ hP =>
  ⟨rfl, common, h, hne, by simp [Pure.pure, StateT.pure, htaken], hpre _ hP⟩

theorem bind {f₁ : α → Parse σ β} {f₂ : α → Parse TokenList β} (h : Sees S C n m₁ m₂)
    (hf : ∀ a, Sees S { E with pre := C.post a, taken := fun b => E.taken b - C.taken a }
      (n - C.taken a) (f₁ a) (f₂ a))
    (hpre : ∀ L, E.pre L → C.pre L) : Sees S E n (m₁ >>= f₁) (m₂ >>= f₂) := by
  intro M p₁ p₂ common halike hne hn hP
  obtain ⟨ha, rest, halike', hne', hlen, hQ⟩ := h M p₁ p₂ common halike hne hn (hpre _ hP)
  obtain ⟨hb, rest', halike'', hne'', hlen', hQ'⟩ :=
    hf (m₁ p₁).1 M _ _ rest halike' hne' (by omega) hQ
  have hlen'' : _ + (E.taken _ - _) ≤ _ := hlen'
  show (f₁ (m₁ p₁).1 (m₁ p₁).2).1 = (f₂ (m₂ p₂).1 (m₂ p₂).2).1 ∧ ∃ rest,
    Alike S M (f₁ (m₁ p₁).1 (m₁ p₁).2).2 (f₂ (m₂ p₂).1 (m₂ p₂).2).2 rest ∧ rest ≠ [] ∧
      rest.length + E.taken (f₁ (m₁ p₁).1 (m₁ p₁).2).1 ≤ _ ∧ E.post (f₁ (m₁ p₁).1 (m₁ p₁).2).1 rest
  rw [← ha]
  exact ⟨hb, rest', halike'', hne'', by omega, hQ'⟩

theorem mono {D : Contract α} {k : Nat} (h : Sees S C n m₁ m₂) (hpre : ∀ L, D.pre L → C.pre L)
    (hpost : ∀ a L, C.post a L → D.post a L) (htaken : ∀ a, D.taken a ≤ C.taken a) (hk : k ≤ n) :
    Sees S D k m₁ m₂ := by
  intro M p₁ p₂ common halike hne hn hP
  obtain ⟨ha, rest, halike', hne', hlen, hQ⟩ := h M p₁ p₂ common halike hne (hn.trans hk) (hpre _ hP)
  exact ⟨ha, rest, halike', hne', (Nat.add_le_add_left (htaken _) _).trans hlen, hpost _ _ hQ⟩

theorem peek : Sees S { pre := P, post := fun k L => frontKind L = k ∧ P L } n peek peek := by
  intro M p₁ p₂ common halike hne hn hP
  obtain ⟨h₁, h₂⟩ := halike.peek_eq hne
  exact ⟨h₁.trans h₂.symm, common, halike, hne, le_rfl, h₁.symm, hP⟩

theorem peek_bind {f₁ : TokenKind → Parse σ α} {f₂ : TokenKind → Parse TokenList α}
    (h : ∀ k, Sees S { C with pre := fun L => frontKind L = k ∧ C.pre L } n (f₁ k) (f₂ k)) :
    Sees S C n (Parse.peek >>= f₁) (Parse.peek >>= f₂) :=
  bind peek h fun _ => id

theorem atPair {k₁ k₂ : TokenKind} (hk : k₁.closes = false) :
    Sees S { pre := P, post := fun b L => (b = true → frontKind L = k₁ ∧ frontKind L.tail = k₂) ∧ P L } n
      (atPair k₁ k₂) (atPair k₁ k₂) := by
  intro M p₁ p₂ common halike hne hn hP
  obtain ⟨h₁, h₂⟩ := halike.atPair_eq hne hk
  refine ⟨h₁.trans h₂.symm, common, halike, hne, le_rfl, fun h => ?_, hP⟩
  rw [h₁] at h
  simpa using h

/-- A token that is known not to be a closing one is passed over. -/
theorem skip {C : Contract Unit} (hpre : ∀ L, C.pre L → (frontKind L).closes = false ∧ C.post () L.tail)
    (htaken : C.taken () ≤ 1) : Sees S C n skip skip := by
  intro M p₁ p₂ common halike hne hn hP
  obtain ⟨l, rest, rfl⟩ := List.exists_cons_of_ne_nil hne
  obtain ⟨hcl, hpost⟩ := hpre _ hP
  have hl : l.tokenKind ≠ .eof := ne_eof_of_closes hcl
  have hskip : ∀ {τ : Type} [TokenSource τ] (q : Parser τ), (Parse.peek q).1 = l.tokenKind →
      Parse.skip q = ((), { q with source := (TokenSource.next q.source).2 }) := by
    intro τ _ q hq
    have h : Parse.skip q = (if (Parse.peek q).1 = .eof then Pure.pure () else do
      let _ ← take
      Pure.pure () : Parse τ Unit) q := rfl
    rw [h, hq, if_neg hl]
    rfl
  obtain ⟨h₁, h₂⟩ := halike.peek_eq hne
  obtain ⟨-, -, hok, hok', hup, hup'⟩ := halike.next hl
  rw [hskip p₁ h₁, hskip p₂ h₂]
  refine ⟨rfl, rest, halike.move [l] hok hok' hup hup' rfl rfl, halike.tail_ne_nil hcl, ?_,
    hpost⟩
  simpa using htaken

theorem fixUpTo {F₁ : Parse σ Unit → Parse σ Unit} {F₂ : Parse TokenList Unit → Parse TokenList Unit}
    (h : ∀ k a₁ a₂, Sees S {} k a₁ a₂ → Sees S {} (k + 1) (F₁ a₁) (F₂ a₂)) :
    ∀ d₁ d₂ n, n ≤ d₁ → n ≤ d₂ → Sees S {} n (Parse.fixUpTo F₁ d₁) (Parse.fixUpTo F₂ d₂) := by
  intro d₁ d₂ n
  induction n generalizing d₁ d₂ with
  | zero =>
    intro _ _ M p₁ p₂ common _ hne hn
    exact absurd (List.length_eq_zero_iff.1 (Nat.le_zero.1 hn)) hne
  | succ n ih =>
    intro h₁ h₂
    obtain ⟨d₁, rfl⟩ : ∃ d, d₁ = d + 1 := ⟨d₁ - 1, by omega⟩
    obtain ⟨d₂, rfl⟩ : ∃ d, d₂ = d + 1 := ⟨d₂ - 1, by omega⟩
    exact h n _ _ (ih d₁ d₂ (by omega) (by omega))

/-- Repetition, if every round but the last takes a token. -/
theorem loop {r₁ : Parse σ Bool} {r₂ : Parse TokenList Bool}
    (h : ∀ n, Sees S { taken := fun b => if b then 1 else 0 } n r₁ r₂) :
    Sees S {} n (Parse.loop r₁) (Parse.loop r₂) := by
  have hround : ∀ k a₁ a₂, Sees S {} k a₁ a₂ → Sees S {} (k + 1)
      (do if ← r₁ then a₁) (do if ← r₂ then a₂) := by
    intro k a₁ a₂ ha
    refine bind (h (k + 1)) (fun b => ?_) fun _ => id
    cases b with
    | false => exact pure (fun _ => id) rfl
    | true => exact ha.mono (fun _ => id) (fun _ _ => id) (fun _ => by simp) le_rfl
  intro M p₁ p₂ common halike hne hn hP
  refine fixUpTo hround _ _ common.length ?_ ?_ M p₁ p₂ common halike hne le_rfl hP
  · have := S.remaining halike.ready₁.ok
    rw [halike.left, List.length_append] at this
    omega
  · have := (Supply.ofTokenList version).remaining halike.ready₂.ok
    have hright : (Supply.ofTokenList version).upcoming p₂.source = common ++ M.right := halike.right
    rw [hright, List.length_append] at this
    omega

/-- Two tokens are passed over if they are of the right kinds. -/
theorem skipPair {k₁ k₂ : TokenKind} (h₁ : k₁.closes = false) (h₂ : k₂.closes = false) (n : Nat) :
    Sees S { taken := fun b => if b then 1 else 0 } n (Parse.skipPair k₁ k₂) (Parse.skipPair k₁ k₂) := by
  refine bind (atPair (P := fun _ => True) h₁) (fun b => ?_) (fun _ _ => trivial)
  cases b with
  | false => exact pure (fun _ _ => trivial) rfl
  | true =>
    refine bind (C := { pre := fun L => frontKind L = k₁ ∧ frontKind L.tail = k₂
                        post := fun _ L => frontKind L = k₂
                        taken := fun _ => 1 })
      (skip (fun L hL => ⟨by rw [hL.1, h₁], hL.2⟩) le_rfl) (fun _ => ?_) (fun L hL => hL.1 rfl)
    refine bind (C := { pre := fun L => frontKind L = k₂ })
      (skip (fun L hL => ⟨by rw [show frontKind L = k₂ from hL, h₂], trivial⟩) (Nat.zero_le _))
      (fun _ => ?_) (fun _ => id)
    exact pure (fun _ _ => trivial) rfl

/-- Where a type ends depends on its own tokens and on the two behind it. -/
theorem skipType : Sees S {} n skipType skipType := by
  have hbrackets : Sees S {} n
      (do Parse.loop (Parse.skipPair (.punct .lBracket) (.punct .rBracket)); return true : Parse σ Bool)
      (do Parse.loop (Parse.skipPair (.punct .lBracket) (.punct .rBracket)); return true) :=
    bind (loop (skipPair rfl rfl)) (fun _ => pure (fun _ => id) rfl) fun _ => id
  refine peek_bind fun k => ?_
  by_cases hk : k.startsType = true
  · rw [if_pos hk, if_pos hk]
    refine bind (C := { pre := fun L => frontKind L = k })
      (skip (fun L hL => ⟨?_, trivial⟩) (Nat.zero_le _)) (fun _ => ?_) fun _ => And.left
    · rw [show frontKind L = k from hL, closes_of_startsType hk]
    by_cases hb : k.isBuiltin = true
    · simp only [hb, if_true]
      exact hbrackets
    · rw [if_neg hb, if_neg hb]
      exact bind (loop (skipPair rfl rfl)) (fun _ => hbrackets) fun _ => id
  · rw [if_neg hk, if_neg hk]
    exact pure (fun _ _ => trivial) rfl

end Sees

/-- Whether a declaration of variables comes. -/
theorem Meets.atLocalDeclaration :
    Meets S M { pre := P, post := fun _ => P } n atLocalDeclaration atLocalDeclaration := by
  refine reads (fun _ => rfl) (fun _ => rfl) (fun _ _ => id) (fun p₁ p₂ common hat hne _ => ?_)
    (fun _ => rfl) id
  have h : Sees S {} common.length
      (do if ← Parse.skipType then Parse.isAt .ident else return false : Parse σ Bool)
      (do if ← Parse.skipType then Parse.isAt .ident else return false) := by
    refine Sees.bind Sees.skipType (fun b => ?_) fun _ => id
    cases b with
    | false => exact Sees.pure (fun _ => id) rfl
    | true => exact Sees.peek_bind fun k => Sees.pure (fun _ _ => trivial) rfl
  exact (h M p₁ p₂ common hat.alike hne le_rfl trivial).1

/-! ## Actions that look and pass over -/

/-- **Looks.** The action is made of looking at the source and passing over tokens. -/
inductive Looks {σ : Type} [TokenSource σ] : {α : Type} → Parse σ α → Prop
  | read {α : Type} (f : σ → α) : Looks fun p => (f p.source, p)
  | skip : Looks skip
  | bind {α β : Type} {m : Parse σ α} {f : α → Parse σ β} (h : Looks m) (hf : ∀ a, Looks (f a)) : Looks (m >>= f)
  | loop {r : Parse σ Bool} (h : Looks r) : Looks (loop r)

/-- Passes over a type; says whether there is one and an identifier comes behind it. -/
def passDeclared {σ : Type} [TokenSource σ] : Parse σ Bool := do
  if ← skipType then isAt .ident else return false

namespace Looks

variable {σ : Type} [TokenSource σ]

theorem pure {α : Type} (a : α) : Looks (Pure.pure a : Parse σ α) := .read fun _ => a

theorem peek : Looks (peek : Parse σ TokenKind) := .read fun s => (TokenSource.next s).1.leaf.tokenKind

theorem peekSecond : Looks (peekSecond : Parse σ TokenKind) :=
  .read fun s => (TokenSource.next (TokenSource.next s).2).1.leaf.tokenKind

theorem skipPair {k₁ k₂ : TokenKind} : Looks (skipPair k₁ k₂ : Parse σ Bool) := by
  have hpair : Looks (Parse.atPair k₁ k₂ : Parse σ Bool) := .bind .peek fun _ => .bind .peekSecond fun _ => .pure _
  refine .bind hpair fun b => ?_
  cases b with
  | false => exact .pure false
  | true => exact .bind .skip fun _ => .bind .skip fun _ => .pure true

theorem skipType : Looks (skipType : Parse σ Bool) := by
  have hbrackets : Looks (do
      Parse.loop (Parse.skipPair (.punct .lBracket) (.punct .rBracket))
      return true : Parse σ Bool) := .bind (.loop .skipPair) fun _ => .pure true
  refine .bind .peek fun k => ?_
  split
  · refine .bind .skip fun _ => ?_
    split
    · exact hbrackets
    · exact .bind (.loop .skipPair) fun _ => hbrackets
  · exact .pure false

theorem passDeclared : Looks (passDeclared : Parse σ Bool) := by
  refine .bind .skipType fun b => ?_
  cases b with
  | false => exact .pure false
  | true => exact .bind .peek fun _ => .pure _

end Looks

/-- **Silent.** The action emits nothing, and does not look at the elements emitted before. -/
def Silent {σ α : Type} (m : Parse σ α) : Prop :=
  ∀ p o, m { p with out := o } = ((m p).1, { (m p).2 with out := o })

theorem Silent.out_eq {σ α : Type} {m : Parse σ α} (h : Silent m) (p : Parser σ) : (m p).2.out = p.out :=
  congrArg (fun r => r.2.out) (h p p.out)

theorem Silent.bind {σ α β : Type} {m : Parse σ α} {f : α → Parse σ β} (h : Silent m) (hf : ∀ a, Silent (f a)) :
    Silent (m >>= f) := by
  intro p o
  show f (m { p with out := o }).1 (m { p with out := o }).2 = _
  rw [h p o]
  exact hf _ _ o

theorem Looks.silent {σ α : Type} [TokenSource σ] {m : Parse σ α} (h : Looks m) : Silent m := by
  induction h with
  | read f => exact fun _ _ => rfl
  | skip =>
    refine .bind (fun _ _ => rfl) fun k => ?_
    split <;> exact fun _ _ => rfl
  | bind _ _ hm hf => exact hm.bind hf
  | @loop r _ hr =>
    have hup : ∀ d, Silent (fixUpTo (fun again => do if ← r then again) d) := by
      intro d
      induction d with
      | zero => exact fun _ _ => rfl
      | succ d ih =>
        refine hr.bind fun b => ?_
        cases b with
        | false => exact fun _ _ => rfl
        | true => exact ih
    exact fun p o => hup (TokenSource.remaining p.source + 1) p o

theorem Silent.atLocalDeclaration {σ : Type} [TokenSource σ] : Silent (atLocalDeclaration : Parse σ Bool) := by
  intro p o
  have hfst := congrArg Prod.fst (Looks.passDeclared.silent p o)
  exact Prod.ext hfst rfl

end Parse

end IncrementalSyntax

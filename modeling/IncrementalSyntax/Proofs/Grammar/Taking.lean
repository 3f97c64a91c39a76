import IncrementalSyntax.Proofs.Grammar.Lists

/-!
# What is taken without a diagnostic

An action on a list of tokens either emits a diagnostic or takes tokens that meet some condition. Once
emitted, a diagnostic stays, so only what an action does on a good course has to be looked at. The condition
may also speak of the elements that are there behind the action. The rules below follow the ways in which
actions are put together.

## Main definitions

* `Parse.Takes`: an action that takes tokens which meet a condition, or emits a diagnostic

## Main results

* `Parse.Takes.bind`, `Parse.Takes.look`, `Parse.Takes.fix`, `Parse.Takes.loop`: the rules
-/

namespace IncrementalSyntax

namespace Parse

open Green hiding id

/-- No condition on the tokens to come. -/
def anything : List Leaf → Prop := fun _ => True

/-- The token at the front is of a kind. -/
def FrontIs (k : TokenKind) : List Leaf → Prop := fun L => frontKind L = k

/-- **Takes.** Where at most `n` tokens are to come that meet `pre`, the action emits a diagnostic or takes
tokens that meet `D`, which also knows the result and the elements behind the action. In any case it keeps the
state good and diagnostics in place. -/
structure Takes {α : Type} (v : LanguageVersion) (n : Nat) (pre : List Leaf → Prop) (m : Parse TokenList α)
    (D : α → List Green → List Leaf → Prop) : Prop where
  keeps : ∀ p, Ready (.ofTokenList v) p →
    Ready (.ofTokenList v) (m p).2 ∧ (Flagged p.out → Flagged (m p).2.out)
  takes : ∀ p, Ready (.ofTokenList v) p → pre p.source.upcoming → p.source.upcoming.length ≤ n →
    Flagged (m p).2.out ∨
      ∃ taken, p.source.upcoming = taken ++ (m p).2.source.upcoming ∧ D (m p).1 (m p).2.out taken

namespace Takes

variable {α β : Type} {v : LanguageVersion} {n : Nat} {pre : List Leaf → Prop} {m : Parse TokenList α}
variable {D : α → List Green → List Leaf → Prop}

/-! ## Actions in a row -/

theorem mono {pre' : List Leaf → Prop} {D' : α → List Green → List Leaf → Prop} {k : Nat}
    (h : Takes v n pre m D) (hpre : ∀ L, pre' L → pre L) (hD : ∀ a o w, D a o w → D' a o w) (hk : k ≤ n) :
    Takes v k pre' m D' where
  keeps := h.keeps
  takes p hp hpre' hn := by
    rcases h.takes p hp (hpre _ hpre') (hn.trans hk) with hf | ⟨taken, htaken, hd⟩
    · exact .inl hf
    · exact .inr ⟨taken, htaken, hD _ _ _ hd⟩

theorem pure {a : α} (h : ∀ o, D a o []) : Takes v n pre (Pure.pure a) D where
  keeps _ hp := ⟨hp, id⟩
  takes _ _ _ _ := .inr ⟨[], rfl, h _⟩

/-- Actions in a row. There are fewer tokens to come for the second one. -/
theorem bind {f : α → Parse TokenList β} {E : α → β → List Green → List Leaf → Prop}
    {F : β → List Green → List Leaf → Prop} (k : α → Nat) (h : Takes v n pre m D)
    (hf : ∀ a, Takes v (n - k a) anything (f a) (E a))
    (hF : ∀ a b o o' w w', D a o w → E a b o' w' → F b o' (w ++ w')) (hk : ∀ a o w, D a o w → k a ≤ w.length) :
    Takes v n pre (m >>= f) F where
  keeps p hp := by
    obtain ⟨hready, hflag⟩ := h.keeps p hp
    obtain ⟨hready', hflag'⟩ := (hf (m p).1).keeps (m p).2 hready
    exact ⟨hready', hflag' ∘ hflag⟩
  takes p hp hP hn := by
    obtain ⟨hready, -⟩ := h.keeps p hp
    obtain ⟨-, hflag⟩ := (hf (m p).1).keeps (m p).2 hready
    rcases h.takes p hp hP hn with hfl | ⟨taken, htaken, hd⟩
    · exact .inl (hflag hfl)
    have hlen : (m p).2.source.upcoming.length ≤ n - k (m p).1 := by
      have := hk _ _ _ hd
      rw [htaken, List.length_append] at hn
      omega
    rcases (hf (m p).1).takes (m p).2 hready trivial hlen with hfl | ⟨taken', htaken', he⟩
    · exact .inl hfl
    · refine .inr ⟨taken ++ taken', ?_, hF _ _ _ _ _ _ hd he⟩
      rw [htaken, htaken', List.append_assoc]
      rfl

/-- Two things in a row. -/
theorem seq {m : Parse TokenList Unit} {f : Parse TokenList β} {A : List Leaf → Prop}
    {E F : β → List Green → List Leaf → Prop} (h : Takes v n pre m fun _ _ => A) (h' : Takes v n anything f E)
    (hF : ∀ b o w w', A w → E b o w' → F b o (w ++ w')) : Takes v n pre (do m; f) F :=
  bind (fun _ => 0) h (fun _ => h') (fun _ b _ o => hF b o) fun _ _ _ _ => Nat.zero_le _

/-- A token, and what stands behind it. -/
theorem token_then {m : Parse TokenList Unit} {f : Parse TokenList β} {P : Leaf → Prop}
    {E F : β → List Green → List Leaf → Prop} (h : Takes v n pre m fun _ _ w => ∃ l, w = [l] ∧ P l)
    (h' : Takes v (n - 1) anything f E) (hF : ∀ b o l w, P l → E b o w → F b o (l :: w)) :
    Takes v n pre (do m; f) F := by
  refine bind (fun _ => 1) h (fun _ => h') ?_ ?_
  · rintro _ b _ o _ w ⟨l, rfl, hl⟩ hw
    exact hF b o l w hl hw
  · rintro _ _ _ ⟨l, rfl, -⟩
    exact le_rfl

/-! ## Tokens -/

/-- An action that changes nothing decides how to go on, by the tokens to come. -/
theorem look {c : Parse TokenList α} {f : α → Parse TokenList β} {D : β → List Green → List Leaf → Prop}
    {Q : α → List Leaf → Prop}
    (hc : ∀ p, Ready (.ofTokenList v) p → (c p).2 = p ∧ Q (c p).1 p.source.upcoming)
    (h : ∀ a, Takes v n (fun L => pre L ∧ Q a L) (f a) D) : Takes v n pre (c >>= f) D where
  keeps p hp := by
    have hbind : (c >>= f) p = f (c p).1 p := congrArg (f (c p).1) (hc p hp).1
    rw [hbind]
    exact (h (c p).1).keeps p hp
  takes p hp hP hn := by
    have hbind : (c >>= f) p = f (c p).1 p := congrArg (f (c p).1) (hc p hp).1
    rw [hbind]
    exact (h (c p).1).takes p hp ⟨hP, (hc p hp).2⟩ hn

theorem front_eq {p : Parser TokenList} (hp : p.source.WellFormed) :
    frontKind p.source.upcoming = (TokenSource.next p.source).1.leaf.tokenKind :=
  (Supply.ofTokenList .latest).frontKind_upcoming hp

/-- What comes next decides how to go on. -/
theorem peek_bind {f : TokenKind → Parse TokenList α}
    (h : ∀ k, Takes v n (fun L => pre L ∧ frontKind L = k) (f k) D) : Takes v n pre (peek >>= f) D :=
  look (Q := fun k L => frontKind L = k) (fun _ hp => ⟨rfl, front_eq hp.ok⟩) h

/-- Whether a token comes decides how to go on. -/
theorem isAt_bind {k : TokenKind} {f : Bool → Parse TokenList α}
    (h : ∀ b, Takes v n (fun L => pre L ∧ decide (frontKind L = k) = b) (f b) D) :
    Takes v n pre (isAt k >>= f) D :=
  peek_bind fun k' => (h (decide (k' = k))).mono (fun _ hL => ⟨hL.1, by rw [hL.2]⟩) (fun _ _ _ => id) le_rfl

/-- Whether two tokens come decides how to go on. -/
theorem atPair_bind {k₁ k₂ : TokenKind} {f : Bool → Parse TokenList α} (h₁ : k₁.closes = false)
    (h : ∀ b, Takes v n (fun L => pre L ∧ (b = true → frontKind L = k₁ ∧ frontKind L.tail = k₂)) (f b) D) :
    Takes v n pre (atPair k₁ k₂ >>= f) D := by
  refine look (Q := fun b L => b = true → frontKind L = k₁ ∧ frontKind L.tail = k₂)
    (fun p hp => ⟨rfl, fun hb => ?_⟩) h
  rw [atPair_apply (Supply.ofTokenList v) hp h₁] at hb
  exact of_decide_eq_true hb

theorem wellFormed_next {s : TokenList} (h : s.WellFormed) : (TokenSource.next s).2.WellFormed := by
  by_cases hk : (TokenSource.next s).1.leaf.tokenKind = .eof
  · rcases s with ⟨ts, last, id⟩
    cases ts with
    | nil => exact h
    | cons t ts => exact absurd hk (h.tokens t List.mem_cons_self)
  · exact ((Supply.ofTokenList .latest).next_of_ne h hk).1

/-- A token of which something is known is taken, and what comes behind it is known too. -/
theorem bump_then {P : Leaf → Prop} {pre' : List Leaf → Prop} {f : Parse TokenList β}
    {E F : β → List Green → List Leaf → Prop} (hne : ∀ L, pre L → frontKind L ≠ .eof)
    (hpre : ∀ l L, pre (l :: L) → P l ∧ pre' L) (h : Takes v (n - 1) pre' f E)
    (hF : ∀ b o l w, P l → E b o w → F b o (l :: w)) :
    Takes v n pre (do Parse.bump; f) F where
  keeps p hp := by
    obtain ⟨hready, hflag⟩ := h.keeps (Parse.bump p).2 ⟨wellFormed_next hp.ok, hp.version⟩
    exact ⟨hready, fun hf => hflag (flagged_append.2 (.inl hf))⟩
  takes p hp hL hn := by
    have hfront := hne _ hL
    rw [front_eq hp.ok] at hfront
    have hcons : p.source.upcoming = (TokenSource.next p.source).1.leaf :: (Parse.bump p).2.source.upcoming :=
      ((Supply.ofTokenList .latest).next_of_ne hp.ok hfront).2
    rw [hcons] at hL hn
    obtain ⟨hl, hL'⟩ := hpre _ _ hL
    rcases h.takes (Parse.bump p).2 ⟨wellFormed_next hp.ok, hp.version⟩ hL' (Nat.le_sub_one_of_lt hn) with
      hf | ⟨taken, ht, he⟩
    · exact .inl hf
    · refine .inr ⟨(TokenSource.next p.source).1.leaf :: taken, ?_, hF _ _ _ _ hl he⟩
      rw [hcons, ht]
      rfl

/-- A missing token is a diagnostic. -/
theorem missing (k : TokenKind) (c : Code) {D : Unit → List Green → List Leaf → Prop} :
    Takes v n pre (missing k c) D where
  keeps p hp := by
    rw [missing_apply]
    exact ⟨⟨⟨hp.ok.last, hp.ok.tokens, hp.ok.present⟩, hp.version⟩, fun hf => flagged_append.2 (.inl hf)⟩
  takes p _ _ _ := .inl (flagged_missing k c p)

/-- Nothing is taken where nothing is skipped. -/
theorem skipToRecovery : Takes v n pre skipToRecovery fun b _ w => b = false ∧ w = [] where
  keeps p hp := by
    obtain ⟨hk, -⟩ := (Meets.skipToRecovery (S := Supply.ofTokenList v) (M := .whole) (n := 0)
      trivial).keeps p hp trivial
    exact ⟨hk.ready, hk.flagged⟩
  takes p hp _ _ := by
    rcases skipToRecovery_cases (S := Supply.ofTokenList v) hp with h | h
    · exact .inr ⟨[], by rw [h]; rfl, by rw [h], rfl⟩
    · exact .inl h

/-! ## Nodes -/

/-- What an action emits in a scope of its own stands behind the elements emitted before. -/
theorem scope {D' : α → List Green → List Leaf → Prop} (h : Takes v n pre m D)
    (hD : ∀ a o o' w, D a o w → D' a (o' ++ o) w) : Takes v n pre (scope m) D' where
  keeps p hp := by
    obtain ⟨hready, -⟩ := h.keeps { p with out := [] } ⟨hp.ok, hp.version⟩
    exact ⟨⟨hready.ok, hready.version⟩, fun hf => flagged_append.2 (.inl hf)⟩
  takes p hp hP hn := by
    rcases h.takes { p with out := [] } ⟨hp.ok, hp.version⟩ hP hn with hf | ⟨taken, htaken, hd⟩
    · exact .inl (flagged_append.2 (.inr hf))
    · exact .inr ⟨taken, htaken, hD _ _ _ _ hd⟩

/-- One node is left over all elements. -/
theorem enclose {kind : NodeKind} :
    Takes v n pre (enclose kind) fun _ o w => w = [] ∧ ∃ g, o = [g] ∧ g.nodeKind? = some kind where
  keeps _ hp := ⟨⟨⟨hp.ok.last, hp.ok.tokens, hp.ok.present⟩, hp.version⟩, fun hf => flagged_ofChildren.2 hf⟩
  takes _ _ _ _ := .inr ⟨[], rfl, rfl, _, rfl, rfl⟩

theorem within {context : ListContext} {m : Parse TokenList Unit} {D : Unit → List Green → List Leaf → Prop}
    (h : Takes v n pre m D) : Takes v n pre (within context m) D where
  keeps p hp := by
    obtain ⟨hready, hflag⟩ := h.keeps { p with contexts := context :: p.contexts } ⟨hp.ok, hp.version⟩
    exact ⟨⟨hready.ok, hready.version⟩, hflag⟩
  takes p hp := h.takes { p with contexts := context :: p.contexts } ⟨hp.ok, hp.version⟩

/-! ## Recursion -/

section Recursion

variable {body : Parse TokenList Unit → Parse TokenList Unit} {D : Unit → List Green → List Leaf → Prop}

/-- Without tokens to come there is nothing to show. -/
theorem fixUpTo_zero (hn : n ≤ 0) : Takes v n pre (fixUpTo body 0) D where
  keeps _ hp := ⟨hp, id⟩
  takes _ hp _ hlen := absurd (hlen.trans hn) ((Supply.ofTokenList .latest).not_length_le_zero hp.ok)

/-- Recursion is recursion to a depth that the tokens to come do not exceed. -/
theorem of_fixUpTo (h : ∀ d, ∀ k ≤ n, k ≤ d → Takes v k anything (fixUpTo body d) D) :
    Takes v n pre (fix body) D where
  keeps p := (h (TokenSource.remaining p.source + 1) 0 (Nat.zero_le _) (Nat.zero_le _)).keeps p
  takes p hp _ hn :=
    (h (TokenSource.remaining p.source + 1) _ hn ((Supply.ofTokenList .latest).remaining hp.ok)).takes p hp trivial
      le_rfl

theorem fixUpTo (h : ∀ k ≤ n, ∀ i, Takes v (k - 1) anything i D → Takes v k anything (body i) D) :
    ∀ d, ∀ k ≤ n, k ≤ d → Takes v k anything (fixUpTo body d) D := by
  intro d
  induction d with
  | zero => exact fun k _ hk => fixUpTo_zero hk
  | succ d ih => exact fun k hkn hk => h k hkn _ (ih (k - 1) (by omega) (by omega))

/-- Recursion in which every call comes after a token. -/
theorem fix (h : ∀ k ≤ n, ∀ i, Takes v (k - 1) anything i D → Takes v k anything (body i) D) :
    Takes v n pre (fix body) D :=
  of_fixUpTo (fixUpTo h)

/-- Repetition, where every round but the last takes a token. -/
theorem loop {round : Parse TokenList Bool} {R : Bool → List Leaf → Prop} {A : List Leaf → Prop}
    (h : Takes v n anything round fun b _ => R b) (hne : ∀ w, R true w → w ≠ []) (hstop : ∀ w, R false w → A w)
    (hmore : ∀ w w', R true w → A w' → A (w ++ w')) : Takes v n pre (loop round) fun _ _ => A := by
  refine fix fun k hk i hi => ?_
  refine bind (fun b => b.toNat) (h.mono (fun _ => id) (fun _ _ _ => id) hk)
    (E := fun b _ _ w => if b then A w else w = []) (fun b => ?_) (fun b _ _ _ w w' hw hw' => ?_)
    fun b _ w hw => ?_
  · cases b with
    | false => exact pure fun _ => rfl
    | true => exact hi
  · cases b with
    | false =>
      rw [show w' = [] from hw', List.append_nil]
      exact hstop w hw
    | true => exact hmore w w' hw hw'
  · cases b with
    | false => exact Nat.zero_le _
    | true => exact List.length_pos_iff.2 (hne w hw)

end Recursion

end Takes

end Parse

end IncrementalSyntax

import IncrementalSyntax.Proofs.Grammar.Kept

/-!
# Contracts of productions

A production of the grammar runs on any source of tokens. Its contract says what it keeps, and what two
runs of it have in common: one on a supply, which may offer whole nodes, and one on a list of tokens. As
long as both have the same tokens in front of them, they go the same way and emit the same elements. The
last of the common tokens is one that closes a statement or a member, so a production inside never looks
past it.

The rules below follow the ways in which productions are put together, one rule for each of them.

## Main definitions

* `Parse.Mode`, `Parse.At`: two runs side by side
* `Parse.Lost`, `Parse.Hung`: what may keep two runs from staying side by side
* `Parse.Contract`, `Parse.Meets`: what a production promises

## Main results

* `Parse.Meets.bind`, `Parse.Meets.scope`, `Parse.Meets.node`, `Parse.Meets.within`: actions put together
* `Parse.Meets.fix`, `Parse.Meets.loop`: recursion and repetition
* `Parse.Meets.expect`, `Parse.Meets.eat`, `Parse.Meets.missing`: single tokens
-/

namespace IncrementalSyntax

namespace Parse

open Green hiding id

variable {version : LanguageVersion} {σ : Type} [TokenSource σ] (S : Supply version σ)

/-! ## Two runs side by side -/

/-- **Mode.** What comes behind the tokens that two runs have in common, on the left and on the right. In
the strict mode nothing does, and the runs agree in everything but identities. -/
structure Mode where
  strict : Prop
  left : List Leaf
  right : List Leaf
  nil_of_strict : strict → left = [] ∧ right = []

/-- **Alike.** Two runs with the same tokens in front of them, the last of which is a closing one. -/
structure Alike (M : Mode) (p₁ : Parser σ) (p₂ : Parser TokenList) (common : List Leaf) : Prop where
  ready₁ : Ready S p₁
  ready₂ : Ready (Supply.ofTokenList version) p₂
  left : S.upcoming p₁.source = common ++ M.left
  right : p₂.source.upcoming = common ++ M.right
  closes : ∀ l ∈ common.getLast?, l.tokenKind.closes = true

/-- **Side by side.** Two runs that are alike and have emitted the same elements. -/
structure At (M : Mode) (p₁ : Parser σ) (p₂ : Parser TokenList) (common : List Leaf) : Prop where
  alike : Alike S M p₁ p₂ common
  shapes : p₁.out.map shape = p₂.out.map shape
  strict : M.strict → p₂.contexts = p₁.contexts ∧ p₂.status = p₁.status

/-- **Lost.** The run on the left cannot be compared any more: it has missed an `else` among the common
tokens, it has taken more than them, or, unless the mode is strict, it has emitted a diagnostic. -/
def Lost (M : Mode) (p : Parser σ) : Prop :=
  Ready S p ∧ (Torn S M.left.length p ∨ (S.upcoming p.source).length < M.left.length ∨
    ¬ M.strict ∧ Flagged p.out)

/-- **Hung.** All common tokens are taken, and the run on the left ends with an open-ended node, while an
`else` comes on the right. -/
def Hung (M : Mode) (p : Parser σ) : Prop :=
  Ready S p ∧ ¬ M.strict ∧ S.upcoming p.source = M.left ∧ frontKind M.right = .keyword .elseKw ∧
    lastIsOpenEnded p.out = true

/-! ## Contracts -/

/-- **Contract.** What an action asks for and promises, in terms of the leaves to come before and behind
it. It takes at least `taken` tokens. An `outer` action ends with a closing token, and any other action
takes no such token. If the contract is `whole`, all statements and members that are emitted are good. -/
structure Contract (α : Type) where
  pre : List Leaf → Prop := fun _ => True
  post : α → List Leaf → Prop := fun _ _ => True
  taken : α → Nat := fun _ => 0
  outer : Prop := False
  whole : Prop := True

/-- The contract of a production that takes a token where one comes that can begin it. It asks for such a
token if the flag is set. -/
def Contract.starting (starts : TokenKind → Bool) (b : Bool) : Contract Unit where
  pre L := b = true → starts (frontKind L) = true
  taken _ := b.toNat

/-- The contract of a production of statements or members. -/
def Contract.unit (starts : TokenKind → Bool) (b : Bool) : Contract Unit :=
  { Contract.starting starts b with outer := True }

/-- What two runs that were side by side in front of some common tokens may come to. -/
def Outcome {α : Type} (M : Mode) (C : Contract α) (common : List Leaf) (r₁ : α × Parser σ)
    (r₂ : α × Parser TokenList) : Prop :=
  Lost S M r₁.2 ∨ (C.outer ∧ Hung S M r₁.2) ∨
    (r₁.1 = r₂.1 ∧ ∃ rest, At S M r₁.2 r₂.2 rest ∧ rest.length + C.taken r₁.1 ≤ common.length ∧
      (¬ C.outer → rest ≠ []))

/-- **Acts.** An action keeps its promises in a single run, as long as no more than `n` tokens are to come
where the depth of recursion matters. -/
structure Acts {α : Type} (C : Contract α) (n : Nat) (m : Parse σ α) : Prop where
  keeps : ∀ p, Ready S p → C.pre (S.upcoming p.source) →
    Kept S p (m p).2 ∧ C.post (m p).1 (S.upcoming (m p).2.source) ∧
      ((S.upcoming p.source).length ≤ n →
        (S.upcoming (m p).2.source).length + C.taken (m p).1 ≤ (S.upcoming p.source).length)
  sound : ∀ p, Ready S p → C.pre (S.upcoming p.source) → (S.upcoming p.source).length ≤ n →
    (∀ g ∈ p.out, g.Sound version) →
    ∀ g ∈ (m p).2.out, (C.whole → g.Sound version) ∧ ∀ c ∈ g.children, c.Sound version
  closed : C.outer → ∀ p, Ready S p → C.pre (S.upcoming p.source) →
    (S.upcoming p.source).length ≤ n → Closed (m p).2.out

/-- **Meets.** Two instances of an action meet a contract: the one on the left keeps its promises, and the
two stay side by side. -/
structure Meets {α : Type} (M : Mode) (C : Contract α) (n : Nat) (m₁ : Parse σ α)
    (m₂ : Parse TokenList α) : Prop extends Acts S C n m₁ where
  follows : ∀ p₁ p₂ common, At S M p₁ p₂ common → common ≠ [] → common.length ≤ n →
    C.pre (S.upcoming p₁.source) → Outcome S M C common (m₁ p₁) (m₂ p₂)

/-- **Demanding.** The action takes a token or reports that one is missing. -/
def Demanding (m : Parse σ Unit) : Prop :=
  ∀ p, Ready S p → Kept S p (m p).2 ∧
    ((S.upcoming (m p).2.source).length < (S.upcoming p.source).length ∨ Flagged (m p).2.out)

variable {S} {α β : Type} {M : Mode} {p₁ p₁' : Parser σ} {p₂ : Parser TokenList} {common : List Leaf}

theorem Lost.kept {p p' : Parser σ} (h : Lost S M p) (hk : Kept S p p') : Lost S M p' := by
  refine ⟨hk.ready, ?_⟩
  rcases h.2 with ht | hlt | ⟨hs, hf⟩
  · by_cases hle : M.left.length ≤ (S.upcoming p'.source).length
    · exact .inl (hk.torn _ hle ht)
    · exact .inr (.inl (Nat.lt_of_not_le hle))
  · exact .inr (.inl (hk.length_le.trans_lt hlt))
  · exact .inr (.inr ⟨hs, hk.flagged hf⟩)

/-- What comes behind the common tokens is not enough for a demanding action. -/
theorem Demanding.lost {m : Parse σ Unit} {p : Parser σ} (h : Demanding S m) (hp : Ready S p)
    (hs : ¬ M.strict) (hle : (S.upcoming p.source).length ≤ M.left.length) : Lost S M (m p).2 := by
  obtain ⟨hk, hlt | hf⟩ := h p hp
  · exact ⟨hk.ready, .inr (.inl (hlt.trans_le hle))⟩
  · exact ⟨hk.ready, .inr (.inr ⟨hs, hf⟩)⟩

theorem Demanding.bind {m : Parse σ α} {f : α → Parse σ Unit} (h : ∀ p, Ready S p → Kept S p (m p).2)
    (hf : ∀ a, Demanding S (f a)) : Demanding S (m >>= f) := by
  intro p hp
  have hk := h p hp
  obtain ⟨hk', hd⟩ := hf (m p).1 (m p).2 hk.ready
  exact ⟨hk.trans hk', hd.imp (fun hlt => hlt.trans_le hk.length_le) id⟩

/-- A second action goes on from where the first one has left the two runs side by side. -/
theorem Outcome.step {C : Contract α} {E : Contract β} {rest : List Leaf} {m₁ : Parse σ α}
    {m₂ : Parse TokenList α} {f₁ : α → Parse σ β} {f₂ : α → Parse TokenList β} {P : List Leaf → Prop}
    (h : Outcome S M { E with pre := P, taken := fun b => E.taken b - C.taken (m₁ p₁).1 } rest
      (f₁ (m₁ p₁).1 (m₁ p₁).2) (f₂ (m₁ p₁).1 (m₂ p₂).2))
    (ha : (m₁ p₁).1 = (m₂ p₂).1) (hrest : rest.length + C.taken (m₁ p₁).1 ≤ common.length) :
    Outcome S M E common ((m₁ >>= f₁) p₁) ((m₂ >>= f₂) p₂) := by
  show Outcome S M E common (f₁ (m₁ p₁).1 (m₁ p₁).2) (f₂ (m₂ p₂).1 (m₂ p₂).2)
  rw [← ha]
  rcases h with hl | hh | ⟨hb, rest', hat, hrest', hne⟩
  · exact .inl hl
  · exact .inr (.inl hh)
  · refine .inr (.inr ⟨hb, rest', hat, ?_, hne⟩)
    have hrest'' : _ + (E.taken _ - _) ≤ _ := hrest'
    omega

/-- Actions in a row. -/
theorem Acts.bind {C : Contract α} {E : Contract β} {n : Nat} {m : Parse σ α} {f : α → Parse σ β}
    (h : Acts S C n m)
    (hf : ∀ a, Acts S { E with pre := C.post a, taken := fun b => E.taken b - C.taken a }
      (n - C.taken a) (f a))
    (hpre : ∀ L, E.pre L → C.pre L) (hwhole : C.whole) : Acts S E n (m >>= f) where
  keeps p hp hP := by
    obtain ⟨hk, hQ, hlen⟩ := h.keeps p hp (hpre _ hP)
    obtain ⟨hk', hQ', hlen'⟩ := (hf (m p).1).keeps (m p).2 hk.ready hQ
    refine ⟨hk.trans hk', hQ', fun hn => ?_⟩
    have hlen := hlen hn
    have hlen'' : _ + (E.taken _ - _) ≤ _ := hlen' (by omega)
    show (S.upcoming (f (m p).1 (m p).2).2.source).length + E.taken (f (m p).1 (m p).2).1 ≤ _
    omega
  sound p hp hP hn hs := by
    obtain ⟨hk, hQ, hlen⟩ := h.keeps p hp (hpre _ hP)
    have hlen := hlen hn
    refine (hf (m p).1).sound (m p).2 hk.ready hQ (by omega) fun g hg => ?_
    exact (h.sound p hp (hpre _ hP) hn hs g hg).1 hwhole
  closed ho p hp hP hn := by
    obtain ⟨hk, hQ, hlen⟩ := h.keeps p hp (hpre _ hP)
    have hlen := hlen hn
    exact (hf (m p).1).closed ho (m p).2 hk.ready hQ (by omega)

namespace Alike

theorem frontKind_left (h : Alike S M p₁ p₂ common) (hne : common ≠ []) :
    frontKind (S.upcoming p₁.source) = frontKind common := by
  rw [h.left, frontKind_append hne]

theorem frontKind_right (h : Alike S M p₁ p₂ common) (hne : common ≠ []) :
    frontKind p₂.source.upcoming = frontKind common := by
  rw [h.right, frontKind_append hne]

/-- Both runs show a token of the same kind. -/
theorem peek_eq (h : Alike S M p₁ p₂ common) (hne : common ≠ []) :
    (peek p₁).1 = frontKind common ∧ (peek p₂).1 = frontKind common :=
  ⟨(S.frontKind_upcoming h.ready₁.ok).symm.trans (h.frontKind_left hne),
    ((Supply.ofTokenList version).frontKind_upcoming h.ready₂.ok).symm.trans (h.frontKind_right hne)⟩

/-- A token that is not a closing one is not the last of the common tokens. -/
theorem tail_ne_nil {l : Leaf} {rest : List Leaf} (h : Alike S M p₁ p₂ (l :: rest))
    (hl : l.tokenKind.closes = false) : rest ≠ [] := by
  rintro rfl
  have := h.closes l rfl
  rw [hl] at this
  cases this

/-- The source behind the token at the front. -/
theorem next {l : Leaf} {rest : List Leaf} (h : Alike S M p₁ p₂ (l :: rest))
    (hne : l.tokenKind ≠ .eof) :
    (TokenSource.next p₁.source).1.leaf = l ∧ (TokenSource.next p₂.source).1.leaf = l ∧
      S.Ok (TokenSource.next p₁.source).2 ∧ (TokenSource.next p₂.source).2.WellFormed ∧
      S.upcoming (TokenSource.next p₁.source).2 = rest ++ M.left ∧
      (TokenSource.next p₂.source).2.upcoming = rest ++ M.right := by
  have hfront : ∀ {τ : Type} [TokenSource τ] (T : Supply version τ) {s : τ} {ls : List Leaf}, T.Ok s →
      T.upcoming s = l :: ls → (TokenSource.next s).1.leaf = l ∧ T.Ok (TokenSource.next s).2 ∧
        T.upcoming (TokenSource.next s).2 = ls := by
    intro τ _ T s ls hs hls
    have hk : (TokenSource.next s).1.leaf.tokenKind ≠ .eof := by
      rwa [← T.frontKind_upcoming hs, hls, frontKind_cons]
    obtain ⟨hok, hcons⟩ := T.next_of_ne hs hk
    rw [hls] at hcons
    obtain ⟨hleaf, hrest⟩ := List.cons.inj hcons
    exact ⟨hleaf.symm, hok, hrest.symm⟩
  obtain ⟨hl, hok, hup⟩ := hfront S h.ready₁.ok h.left
  obtain ⟨hl', hok', hup'⟩ := hfront (Supply.ofTokenList version) h.ready₂.ok h.right
  exact ⟨hl, hl', hok, hok', hup, hup'⟩

/-- Some of the common tokens are taken in both runs. -/
theorem move {q₁ : Parser σ} {q₂ : Parser TokenList} (taken : List Leaf) {rest : List Leaf}
    (h : Alike S M p₁ p₂ (taken ++ rest)) (hok₁ : S.Ok q₁.source) (hok₂ : q₂.source.WellFormed)
    (hup₁ : S.upcoming q₁.source = rest ++ M.left) (hup₂ : q₂.source.upcoming = rest ++ M.right)
    (hv₁ : q₁.version = p₁.version) (hv₂ : q₂.version = p₂.version) : Alike S M q₁ q₂ rest where
  ready₁ := ⟨hok₁, hv₁.trans h.ready₁.version⟩
  ready₂ := ⟨hok₂, hv₂.trans h.ready₂.version⟩
  left := hup₁
  right := hup₂
  closes l hl := h.closes l (List.mem_getLast?_append_of_mem_getLast? hl)

end Alike

namespace At

theorem ready₁ (h : At S M p₁ p₂ common) : Ready S p₁ := h.alike.ready₁

/-- In the strict mode there always is a common token, the one that ends the text. -/
theorem not_strict_of_nil (h : At S M p₁ p₂ []) : ¬ M.strict := by
  intro hs
  have := S.upcoming_ne_nil h.ready₁.ok
  rw [h.alike.left, (M.nil_of_strict hs).1] at this
  exact this rfl

/-- Elements of the same shape are emitted in both runs, while some common tokens are taken. -/
theorem emit {s₁ : σ} {s₂ : TokenList} (taken : List Leaf) {rest : List Leaf} {es₁ es₂ : List Green}
    {status₁ status₂ : ParseStatus} (h : At S M p₁ p₂ (taken ++ rest)) (hok₁ : S.Ok s₁)
    (hok₂ : s₂.WellFormed) (hup₁ : S.upcoming s₁ = rest ++ M.left)
    (hup₂ : s₂.upcoming = rest ++ M.right) (hes : es₁.map shape = es₂.map shape)
    (hstatus : M.strict → status₂ = status₁) :
    At S M { p₁ with source := s₁, out := p₁.out ++ es₁, status := status₁ }
      { p₂ with source := s₂, out := p₂.out ++ es₂, status := status₂ } rest where
  alike := h.alike.move taken hok₁ hok₂ hup₁ hup₂ rfl rfl
  shapes := by simp [h.shapes, hes]
  strict hs := ⟨(h.strict hs).1, hstatus hs⟩

end At

/-! ## Rules -/

namespace Meets

variable {C : Contract α} {E : Contract β} {n : Nat} {m₁ : Parse σ α} {m₂ : Parse TokenList α}

/-- A contract that asks for more or promises less. -/
theorem mono {D : Contract α} {k : Nat} (h : Meets S M C n m₁ m₂)
    (hpre : ∀ L, D.pre L → C.pre L) (hpost : ∀ a L, C.post a L → D.post a L)
    (htaken : ∀ a, D.taken a ≤ C.taken a) (houter : D.outer ↔ C.outer) (hwhole : D.whole → C.whole)
    (hk : k ≤ n) : Meets S M D k m₁ m₂ where
  keeps p hp hP := by
    obtain ⟨hkept, hQ, hlen⟩ := h.keeps p hp (hpre _ hP)
    exact ⟨hkept, hpost _ _ hQ, fun hn => (Nat.add_le_add_left (htaken _) _).trans (hlen (hn.trans hk))⟩
  sound p hp hP hn hs g hg := by
    obtain ⟨hwh, hch⟩ := h.sound p hp (hpre _ hP) (hn.trans hk) hs g hg
    exact ⟨fun hw => hwh (hwhole hw), hch⟩
  closed ho p hp hP hn := h.closed (houter.1 ho) p hp (hpre _ hP) (hn.trans hk)
  follows p₁ p₂ common hat hne hn hP := by
    rcases h.follows p₁ p₂ common hat hne (hn.trans hk) (hpre _ hP) with
      hl | ⟨ho, hh⟩ | ⟨ha, rest, hat', hlen, hrest⟩
    · exact .inl hl
    · exact .inr (.inl ⟨houter.2 ho, hh⟩)
    · exact .inr (.inr ⟨ha, rest, hat', (Nat.add_le_add_left (htaken _) _).trans hlen,
        fun ho => hrest fun ho' => ho (houter.2 ho')⟩)

/-- A contract that takes a token just if a flag is set. -/
theorem of_taken {P : List Leaf → Prop} {m₁ : Parse σ Unit} {m₂ : Parse TokenList Unit}
    (h : Meets S M { pre := P, taken := fun _ => 1 } n m₁ m₂) (b : Bool) :
    Meets S M { pre := P, taken := fun _ => b.toNat } n m₁ m₂ :=
  h.mono (fun _ => id) (fun _ _ => id) (fun _ => b.toNat_le) .rfl id le_rfl

theorem of_starting {starts : TokenKind → Bool} {m₁ : Parse σ Unit} {m₂ : Parse TokenList Unit}
    (h : Meets S M (.starting starts false) n m₁ m₂) : Meets S M {} n m₁ m₂ :=
  h.mono (fun _ _ hb => absurd hb Bool.false_ne_true) (fun _ _ => id) (fun _ => le_rfl) .rfl id le_rfl

/-- A production in front of a token that can begin it. -/
theorem of_starting_true {starts : TokenKind → Bool} {P : List Leaf → Prop} {m₁ : Parse σ Unit}
    {m₂ : Parse TokenList Unit} (h : Meets S M (.starting starts true) n m₁ m₂)
    (hP : ∀ L, P L → starts (frontKind L) = true) :
    Meets S M { pre := P, taken := fun _ => 1 } n m₁ m₂ :=
  h.mono (fun L hL _ => hP L hL) (fun _ _ => id) (fun _ => le_rfl) .rfl id le_rfl

theorem pure {a : α} (hpre : ∀ L, C.pre L → C.post a L) (htaken : C.taken a = 0) (houter : ¬ C.outer) :
    Meets S M C n (Pure.pure a) (Pure.pure a) where
  keeps p hp hP := ⟨.refl hp, hpre _ hP, fun _ => by simp [Pure.pure, StateT.pure, htaken]⟩
  sound p hp hP hn hs g hg := ⟨fun _ => hs g hg, fun c hc => (hs g hg).of_sub (.of_mem_children hc)⟩
  closed ho := absurd ho houter
  follows p₁ p₂ common hat hne hn hP :=
    .inr (.inr ⟨rfl, common, hat, by simp [Pure.pure, StateT.pure, htaken], fun _ => hne⟩)

/-- Actions in a row. If the first one may take all common tokens, the second one has to be demanding, so
that it takes one too many. -/
theorem bind_demanding {E : Contract Unit} {f : α → Parse σ Unit} {g : α → Parse TokenList Unit}
    (h : Meets S M C n m₁ m₂)
    (hf : ∀ a, Meets S M { E with pre := C.post a, taken := fun b => E.taken b - C.taken a }
      (n - C.taken a) (f a) (g a))
    (hd : ∀ a, Demanding S (f a)) (hpre : ∀ L, E.pre L → C.pre L) (hwhole : C.whole) :
    Meets S M E n (m₁ >>= f) (m₂ >>= g) where
  toActs := h.toActs.bind (fun a => (hf a).toActs) hpre hwhole
  follows p₁ p₂ common hat hne hn hP := by
    obtain ⟨hk, hQ, -⟩ := h.keeps p₁ hat.ready₁ (hpre _ hP)
    have hspent : ¬ M.strict → (S.upcoming (m₁ p₁).2.source).length ≤ M.left.length →
        Lost S M (f (m₁ p₁).1 (m₁ p₁).2).2 := (hd (m₁ p₁).1).lost hk.ready
    rcases h.follows p₁ p₂ common hat hne hn (hpre _ hP) with hl | ⟨-, hh⟩ | ⟨ha, rest, hat', hrest, -⟩
    · exact .inl (hl.kept ((hd (m₁ p₁).1) _ hk.ready).1)
    · exact .inl (hspent hh.2.1 (congrArg List.length hh.2.2.1).le)
    · by_cases hnil : rest = []
      · subst hnil
        exact .inl (hspent hat'.not_strict_of_nil (by rw [hat'.alike.left]; simp))
      · exact ((hf (m₁ p₁).1).follows _ _ rest hat' hnil (by omega) hQ).step ha hrest

/-- Actions in a row. The first one leaves a common token for the second. -/
theorem bind {f₁ : α → Parse σ β} {f₂ : α → Parse TokenList β} (h : Meets S M C n m₁ m₂)
    (hf : ∀ a, Meets S M { E with pre := C.post a, taken := fun b => E.taken b - C.taken a }
      (n - C.taken a) (f₁ a) (f₂ a))
    (hpre : ∀ L, E.pre L → C.pre L) (houter : ¬ C.outer) (hwhole : C.whole) :
    Meets S M E n (m₁ >>= f₁) (m₂ >>= f₂) where
  toActs := h.toActs.bind (fun a => (hf a).toActs) hpre hwhole
  follows p₁ p₂ common hat hne hn hP := by
    obtain ⟨hk, hQ, -⟩ := h.keeps p₁ hat.ready₁ (hpre _ hP)
    obtain ⟨hk', -, -⟩ := (hf (m₁ p₁).1).keeps (m₁ p₁).2 hk.ready hQ
    rcases h.follows p₁ p₂ common hat hne hn (hpre _ hP) with
      hl | ⟨ho, -⟩ | ⟨ha, rest, hat', hrest, hne'⟩
    · exact .inl (hl.kept hk')
    · exact absurd ho houter
    · exact ((hf (m₁ p₁).1).follows _ _ rest hat' (hne' houter) (by omega) hQ).step ha hrest

/-- An action that promises enough may be followed by any other one. -/
theorem followed {C : Contract Unit} {m₁ f₁ : Parse σ Unit} {m₂ f₂ : Parse TokenList Unit}
    (h : Meets S M C n m₁ m₂) (hf : Meets S M {} n f₁ f₂) (hpost : ∀ L, C.post () L)
    (houter : ¬ C.outer) (hwhole : C.whole) : Meets S M C n (do m₁; f₁) (do m₂; f₂) :=
  bind h (fun _ => hf.mono (fun _ _ => trivial) (fun _ _ _ => hpost _) (fun _ => by simp)
    ⟨houter, False.elim⟩ (fun _ => trivial) (Nat.sub_le _ _)) (fun _ => id) houter hwhole

/-- An action that only looks ahead, and sees the same in both runs. -/
theorem reads (hm₁ : ∀ p, (m₁ p).2 = p) (hm₂ : ∀ p, (m₂ p).2 = p)
    (hpost : ∀ p, Ready S p → C.pre (S.upcoming p.source) →
      C.post (m₁ p).1 (S.upcoming p.source))
    (hsame : ∀ p₁ p₂ common, At S M p₁ p₂ common → common ≠ [] → C.pre (S.upcoming p₁.source) →
      (m₁ p₁).1 = (m₂ p₂).1)
    (htaken : ∀ a, C.taken a = 0) (houter : ¬ C.outer) : Meets S M C n m₁ m₂ where
  keeps p hp hP := by
    rw [hm₁, htaken]
    exact ⟨.refl hp, hpost p hp hP, fun _ => le_rfl⟩
  sound p hp hP hn hs g hg := by
    rw [hm₁] at hg
    exact ⟨fun _ => hs g hg, fun c hc => (hs g hg).of_sub (.of_mem_children hc)⟩
  closed ho := absurd ho houter
  follows p₁ p₂ common hat hne hn hP := by
    refine .inr (.inr ⟨hsame p₁ p₂ common hat hne hP, common, ?_, by simp [htaken], fun _ => hne⟩)
    rw [hm₁, hm₂]
    exact hat

/-! ### Tokens -/

variable {P : List Leaf → Prop}

theorem peek : Meets S M { pre := P, post := fun k L => frontKind L = k ∧ P L } n peek peek :=
  reads (fun _ => rfl) (fun _ => rfl) (fun _ hp hP => ⟨S.frontKind_upcoming hp.ok, hP⟩)
    (fun _ _ _ hat hne _ => (hat.alike.peek_eq hne).1.trans (hat.alike.peek_eq hne).2.symm)
    (fun _ => rfl) id

/-- What follows may depend on the kind of the token at the front. -/
theorem peek_bind {f : TokenKind → Parse σ α} {g : TokenKind → Parse TokenList α}
    (h : ∀ k, Meets S M { C with pre := fun L => frontKind L = k ∧ C.pre L } n (f k) (g k)) :
    Meets S M C n (Parse.peek >>= f) (Parse.peek >>= g) :=
  bind peek h (fun _ => id) id trivial

theorem isAt (k : TokenKind) :
    Meets S M { pre := P, post := fun b L => (b = true ↔ frontKind L = k) ∧ P L } n (isAt k) (isAt k) :=
  bind peek (fun _ => pure (fun L hL => ⟨by simp [hL.1], hL.2⟩) rfl id) (fun _ => id) id trivial

end Meets

theorem bump_apply (p : Parser σ) :
    bump p = ((), { p with
      source := (TokenSource.next p.source).2
      out := p.out ++ [.token (TokenSource.next p.source).1] }) := rfl

theorem Kept.bump {p : Parser σ} (hp : Ready S p) (hne : front S p ≠ .eof) : Kept S p (bump p).2 :=
  Kept.take hp hne (fun h => ⟨h, rfl⟩) rfl rfl fun _ => rfl

theorem At.bump {l : Leaf} {rest : List Leaf} (h : At S M p₁ p₂ (l :: rest)) (hne : l.tokenKind ≠ .eof) :
    At S M (bump p₁).2 (bump p₂).2 rest := by
  obtain ⟨hl, hl', hok, hok', hup, hup'⟩ := h.alike.next hne
  refine h.emit [l] hok hok' hup hup' ?_ fun hs => (h.strict hs).2
  simp [shape, hl, hl']

namespace Meets

variable {C : Contract α} {E : Contract β} {n : Nat} {m₁ : Parse σ α} {m₂ : Parse TokenList α}
variable {P : List Leaf → Prop}

/-- Tokens are sound. -/
theorem sound_emit {out : List Green} {t : Token} {W : Prop} (hs : ∀ g ∈ out, g.Sound version) :
    ∀ g ∈ out ++ [.token t], (W → g.Sound version) ∧ ∀ c ∈ g.children, c.Sound version := by
  intro g hg
  rcases List.mem_append.1 hg with hg | hg
  · exact ⟨fun _ => hs g hg, fun c hc => (hs g hg).of_sub (.of_mem_children hc)⟩
  · obtain rfl := List.mem_singleton.1 hg
    exact ⟨fun _ => sound_token _, by simp [children]⟩

/-- A token that does not end the text is emitted. It is a closing one just if the contract is for an outer
action. -/
theorem bump_of {C : Contract Unit} (hpre : ∀ L, C.pre L → frontKind L ≠ .eof ∧
      ((frontKind L).closes = true ↔ C.outer) ∧ C.post () L.tail)
    (htaken : C.taken () = 1) : Meets S M C n bump bump where
  keeps p hp hP := by
    obtain ⟨hne, -, hpost⟩ := hpre _ hP
    obtain ⟨hok, hcons⟩ := S.next_of_ne hp.ok (by rwa [← S.frontKind_upcoming hp.ok])
    refine ⟨.bump hp hne, ?_, ?_⟩
    · rw [hcons] at hpost
      exact hpost
    · intro _
      show _ + C.taken () ≤ _
      rw [htaken, hcons]
      exact le_rfl
  sound _ _ _ _ := sound_emit
  closed ho p hp hP hn := by
    obtain ⟨hne, hcl, -⟩ := hpre _ hP
    refine .append_left (.inr ⟨(TokenSource.next p.source).1.leaf, by simp, ?_⟩) _
    rw [← S.frontKind_upcoming hp.ok]
    exact hcl.2 ho
  follows p₁ p₂ common hat hne hn hP := by
    obtain ⟨l, rest, rfl⟩ := List.exists_cons_of_ne_nil hne
    obtain ⟨hne', hcl, -⟩ := hpre _ hP
    rw [hat.alike.frontKind_left hne, frontKind_cons] at hne' hcl
    refine .inr (.inr ⟨rfl, rest, hat.bump hne', ?_, fun ho => hat.alike.tail_ne_nil ?_⟩)
    · show _ + C.taken () ≤ _
      simp [htaken]
    · exact Bool.eq_false_iff.2 fun h => ho (hcl.1 h)

end Meets

theorem missing_apply (kind : TokenKind) (code : Code) (p : Parser σ) :
    missing kind code p = ((), { p with
      source := (TokenSource.fresh p.source).2
      out := p.out ++ [.token ⟨(TokenSource.fresh p.source).1, .absent kind
        (.ofCode code 0 0 (if code = .tokenExpected then [Kind.describe kind] else []))⟩]
      status := if (TokenSource.next p.source).1.leaf.tokenKind = .eof then .unexpectedEnd
        else p.status }) := by
  have h : missing kind code p = ((), { (noteMissing p).2 with
      source := (TokenSource.fresh (noteMissing p).2.source).2
      out := (noteMissing p).2.out ++ [.token ⟨(TokenSource.fresh (noteMissing p).2.source).1,
        .absent kind (.ofCode code 0 0
          (if code = .tokenExpected then [Kind.describe kind] else []))⟩] }) := rfl
  rw [h]
  unfold noteMissing
  dsimp only
  split <;> rfl

theorem flagged_missing (kind : TokenKind) (code : Code) (p : Parser σ) :
    Flagged (missing kind code p).2.out := by
  rw [missing_apply]
  refine flagged_append.2 (.inr ⟨_, List.mem_cons_self, ?_⟩)
  simp [Leaf.absent]

namespace Meets

variable {C : Contract α} {E : Contract β} {n : Nat} {m₁ : Parse σ α} {m₂ : Parse TokenList α}
variable {P : List Leaf → Prop}

/-- A missing token is emitted in both runs. -/
theorem missing {C : Contract Unit} (kind : TokenKind) (code : Code)
    (hpost : ∀ L, C.pre L → C.post () L) (htaken : C.taken () = 0) :
    Meets S M C n (missing kind code) (missing kind code) where
  keeps p hp hP := by
    rw [missing_apply]
    obtain ⟨hok, hup⟩ := S.fresh hp.ok
    refine ⟨.missing hp ⟨hok, hup⟩, ?_, ?_⟩
    · show C.post () (S.upcoming (TokenSource.fresh p.source).2)
      rw [hup]
      exact hpost _ hP
    · intro _
      show (S.upcoming (TokenSource.fresh p.source).2).length + C.taken () ≤ _
      rw [hup, htaken]
      exact le_rfl
  sound p _ _ _ := by
    rw [missing_apply]
    exact sound_emit
  closed _ p _ _ _ := .inl (flagged_missing kind code p)
  follows p₁ p₂ common hat hne hn hP := by
    refine .inr (.inr ⟨rfl, common, ?_, ?_, fun _ => hne⟩)
    · rw [missing_apply, missing_apply]
      obtain ⟨hok, hup⟩ := S.fresh hat.ready₁.ok
      obtain ⟨hok', hup'⟩ := (Supply.ofTokenList version).fresh hat.alike.ready₂.ok
      have hkind : (TokenSource.next p₂.source).1.leaf.tokenKind =
          (TokenSource.next p₁.source).1.leaf.tokenKind :=
        (hat.alike.peek_eq hne).2.trans (hat.alike.peek_eq hne).1.symm
      refine hat.emit [] hok hok' (hup.trans hat.alike.left)
        (hup'.trans hat.alike.right) (by simp [shape]) fun hs => ?_
      rw [hkind, (hat.strict hs).2]
    · show _ + C.taken () ≤ _
      simp [htaken]

/-! ### Tokens that are asked for -/

/-- A contract that asks for what cannot be is met by everything. -/
theorem of_not_pre (h : ∀ L, ¬ C.pre L) : Meets S M C n m₁ m₂ where
  keeps _ _ hP := absurd hP (h _)
  sound _ _ hP := absurd hP (h _)
  closed _ _ _ hP := absurd hP (h _)
  follows _ _ _ _ _ _ hP := absurd hP (h _)

/-- A token that is no closing one is emitted if it comes. -/
theorem eat {k : TokenKind} (hk : k.closes = false) :
    Meets S M { pre := P, post := fun b L => b = false → frontKind L ≠ k ∧ P L,
                taken := fun b => if b then 1 else 0 } n (eat k) (eat k) := by
  refine bind (isAt (P := P) k) (fun b => ?_) (fun _ => id) id trivial
  cases b with
  | false => exact pure (fun L hL _ => ⟨fun h => by simpa using hL.1.2 h, hL.2⟩) rfl id
  | true =>
    refine bind (C := { pre := fun L => frontKind L = k, taken := fun _ => 1 })
      (bump_of (fun L (hL : frontKind L = k) => ?_) rfl) (fun _ => ?_) ?_ id trivial
    · rw [hL]
      refine ⟨?_, by simp [hk], trivial⟩
      rintro rfl
      cases hk
    · exact pure (fun _ _ h => by cases h) rfl id
    · exact fun L hL => hL.1.1 rfl

/-- A token that is no closing one is emitted if it comes, and is missing otherwise. -/
theorem expect {k : TokenKind} (hk : k.closes = false) : Meets S M {} n (expect k) (expect k) := by
  refine bind (eat (P := fun _ => True) hk) (fun b => ?_) (fun _ => id) id trivial
  cases b with
  | false => exact missing _ _ (fun _ _ => trivial) rfl
  | true => exact pure (fun _ _ => trivial) rfl id

/-- A token that is known to come is taken. -/
theorem expect_front {k : TokenKind} (hk : k.closes = false) :
    Meets S M { pre := fun L => frontKind L = k, taken := fun _ => 1 } n (Parse.expect k)
      (Parse.expect k) := by
  refine bind (eat (P := fun L => frontKind L = k) hk) (fun b => ?_) (fun _ => id) id trivial
  cases b with
  | false => exact of_not_pre fun L hL => (hL rfl).1 (hL rfl).2
  | true => exact pure (fun _ _ => trivial) rfl id

end Meets

theorem eat_apply (k : TokenKind) (p : Parser σ) : eat k p =
    if (TokenSource.next p.source).1.leaf.tokenKind = k then (true, (bump p).2) else (false, p) := by
  have h : eat k p = (if decide ((TokenSource.next p.source).1.leaf.tokenKind = k) = true then
      (do bump; Pure.pure true) else Pure.pure false : Parse σ Bool) p := rfl
  rw [h]
  by_cases hk : (TokenSource.next p.source).1.leaf.tokenKind = k
  · rw [if_pos (by simpa using hk), if_pos hk]
    rfl
  · rw [if_neg (by simpa using hk), if_neg hk]
    rfl

/-- How a token is asked for, as one look at the token at the front. -/
def expectBody (k kind : TokenKind) : Parse σ Unit :=
  if kind = k then bump else missing k (if k = .ident then .identifierExpected else .tokenExpected)

theorem expect_eq (k : TokenKind) : (expect k : Parse σ Unit) = peek >>= expectBody k := by
  funext p
  have h : expect k p = (if (eat k p).1 = true then Pure.pure () else
      missing k (if k = .ident then .identifierExpected else .tokenExpected) : Parse σ Unit)
      (eat k p).2 := rfl
  have h' : (peek >>= expectBody k : Parse σ Unit) p =
      expectBody k (TokenSource.next p.source).1.leaf.tokenKind p := rfl
  rw [h, h', eat_apply, expectBody]
  by_cases hk : (TokenSource.next p.source).1.leaf.tokenKind = k
  · rw [if_pos hk, if_pos hk, if_pos rfl]
    rfl
  · rw [if_neg hk, if_neg hk, if_neg (by simp)]

theorem enclose_apply {τ : Type} [TokenSource τ] (kind : NodeKind) (p : Parser τ) :
    Parse.enclose kind p = ((), { p with
      source := (TokenSource.fresh p.source).2
      out := [.ofChildren (TokenSource.fresh p.source).1 (.node kind) p.out] }) := rfl

/-- A node is made of what is emitted in both runs. -/
theorem At.enclose {kind : NodeKind} {rest : List Leaf} (h : At S M p₁ p₂ rest) :
    At S M (enclose kind p₁).2 (enclose kind p₂).2 rest := by
  obtain ⟨hok, hup⟩ := S.fresh h.ready₁.ok
  obtain ⟨hok', hup'⟩ := (Supply.ofTokenList version).fresh h.alike.ready₂.ok
  refine ⟨h.alike.move [] hok hok' (hup.trans h.alike.left) (hup'.trans h.alike.right) rfl rfl, ?_,
    h.strict⟩
  show [shape _] = [shape _]
  simp [ofChildren, shape, h.shapes]

theorem Outcome.enclose {C D : Contract Unit} {kind : NodeKind} {rest : List Leaf} {r₁ : Unit × Parser σ}
    {r₂ : Unit × Parser TokenList} (h : Outcome S M C rest r₁ r₂)
    (hk : Ready S r₁.2 → Kept S r₁.2 (Parse.enclose kind r₁.2).2) (houter : D.outer ↔ C.outer)
    (hlen : rest.length + D.taken () ≤ common.length + C.taken ()) :
    Outcome S M D common (Parse.enclose kind r₁.2) (Parse.enclose kind r₂.2) := by
  rcases h with hl | ⟨ho, hh⟩ | ⟨-, rest', hat, hrest, hne⟩
  · exact .inl (hl.kept (hk hl.1))
  · refine .inr (.inl ⟨houter.2 ho, (hk hh.1).ready, hh.2.1, (S.fresh hh.1.ok).2.trans hh.2.2.1,
      hh.2.2.2.1, ?_⟩)
    show lastIsOpenEnded [_] = true
    simpa [lastIsOpenEnded] using isOpenEnded_ofChildren hh.2.2.2.2
  · have hrest : rest'.length + C.taken () ≤ rest.length := hrest
    refine .inr (.inr ⟨rfl, rest', hat.enclose, ?_, fun ho => hne fun ho' => ho (houter.2 ho')⟩)
    show rest'.length + D.taken () ≤ _
    omega

namespace Meets

variable {C : Contract α} {E : Contract β} {n : Nat} {m₁ : Parse σ α} {m₂ : Parse TokenList α}
variable {P : List Leaf → Prop}

/-- A closing token is emitted if it comes, and is missing otherwise. -/
theorem expect_outer {k : TokenKind} (hk : k.closes = true) (hne : k ≠ .eof) :
    Meets S M { outer := True } n (Parse.expect k) (Parse.expect k) := by
  rw [expect_eq, expect_eq]
  refine peek_bind fun k' => ?_
  unfold expectBody
  by_cases h : k' = k
  · subst h
    rw [if_pos rfl, if_pos rfl]
    refine mono (C := { pre := fun L => frontKind L = k', taken := fun _ => 1, outer := True })
      (bump_of (fun L (hL : frontKind L = k') => ?_) rfl) (fun L => And.left) (fun _ _ => id)
      (fun _ => Nat.zero_le _) .rfl id le_rfl
    rw [hL]
    exact ⟨hne, by simp [hk], trivial⟩
  · rw [if_neg h, if_neg h]
    exact missing _ _ (fun _ _ => trivial) rfl

/-! ### Nodes -/

/-- An action in a scope of its own. -/
theorem scope (h : Meets S M C n m₁ m₂) : Meets S M C n (Parse.scope m₁) (Parse.scope m₂) where
  keeps p hp hP := by
    obtain ⟨hk, hQ, hlen⟩ := h.keeps { p with out := [] } ⟨hp.ok, hp.version⟩ hP
    exact ⟨hk.scope, hQ, hlen⟩
  sound p hp hP hn hs g hg := by
    rcases List.mem_append.1 hg with hg | hg
    · exact ⟨fun _ => hs g hg, fun c hc => (hs g hg).of_sub (.of_mem_children hc)⟩
    · exact h.sound { p with out := [] } ⟨hp.ok, hp.version⟩ hP hn (by simp) g hg
  closed ho p hp hP hn :=
    (h.closed ho { p with out := [] } ⟨hp.ok, hp.version⟩ hP hn).append_left p.out
  follows p₁ p₂ common hat hne hn hP := by
    have hat' : At S M { p₁ with out := [] } { p₂ with out := [] } common :=
      ⟨hat.alike.move [] hat.ready₁.ok hat.alike.ready₂.ok hat.alike.left hat.alike.right
        rfl rfl, rfl, hat.strict⟩
    obtain ⟨hk, -, -⟩ := h.keeps { p₁ with out := [] } ⟨hat.ready₁.ok, hat.ready₁.version⟩ hP
    rcases h.follows _ _ common hat' hne hn hP with hl | ⟨ho, hh⟩ | ⟨ha, rest, hat'', hlen, hrest⟩
    · refine .inl ⟨hk.scope.ready, ?_⟩
      rcases hl.2 with ht | hlt | ⟨hs, hf⟩
      · refine .inl ?_
        show missesElseAll (p₁.out ++ _) _ = true
        rw [missesElseAll_append, Bool.or_eq_true]
        exact .inr ht
      · exact .inr (.inl hlt)
      · exact .inr (.inr ⟨hs, flagged_append.2 (.inr hf)⟩)
    · refine .inr (.inl ⟨ho, hk.scope.ready, hh.2.1, hh.2.2.1, hh.2.2.2.1, ?_⟩)
      have hopen := hh.2.2.2.2
      rw [lastIsOpenEnded_eq] at hopen ⊢
      obtain ⟨g, hg, hgo⟩ := (Option.any_eq_true _ _).1 hopen
      refine (Option.any_eq_true _ _).2 ⟨g, ?_, hgo⟩
      show (p₁.out ++ _).getLast? = some g
      rw [List.getLast?_append, hg]
      rfl
    · refine .inr (.inr ⟨ha, rest, ⟨hat''.alike.move [] hat''.ready₁.ok hat''.alike.ready₂.ok
        hat''.alike.left hat''.alike.right rfl rfl, ?_, hat''.strict⟩, hlen, hrest⟩)
      show (p₁.out ++ _).map shape = (p₂.out ++ _).map shape
      rw [List.map_append, List.map_append, hat.shapes, hat''.shapes]

/-- Whether a node can be reused by the parser. -/
theorem not_isUnit {id : Id} {kind : NodeKind} {cs : List Green}
    (h : (kind.isStatement || kind.isMember) = false) :
    (ofChildren id (.node kind) cs).isUnit = false := h

/-- A node is made of all that an action emits. Statements and members need more to be good. -/
theorem then_enclose {C : Contract Unit} {m₁ : Parse σ Unit} {m₂ : Parse TokenList Unit}
    {kind : NodeKind} (h : Meets S M C n m₁ m₂) (hC : C.whole) (hif : kind ≠ .ifStmt) :
    Meets S M { C with whole := (kind.isStatement || kind.isMember) = false } n
      (do m₁; Parse.enclose kind) (do m₂; Parse.enclose kind) := by
  have henclose : ∀ {p : Parser σ}, Ready S p → Kept S p (Parse.enclose kind p).2 := fun hp =>
    .enclose hp (S.fresh hp.ok) fun h => absurd h hif
  refine ⟨⟨fun p hp hP => ?_, fun p hp hP hn hs g hg => ?_, fun ho p hp hP hn => ?_⟩,
    fun p₁ p₂ common hat hne hn hP => ?_⟩
  · obtain ⟨hk, hQ, hlen⟩ := h.keeps p hp hP
    have hup : S.upcoming (Parse.enclose kind (m₁ p).2).2.source = S.upcoming (m₁ p).2.source :=
      (S.fresh hk.ready.ok).2
    refine ⟨hk.trans (henclose hk.ready), ?_, ?_⟩
    · show C.post () (S.upcoming (Parse.enclose kind (m₁ p).2).2.source)
      rw [hup]
      exact hQ
    · show _ → (S.upcoming (Parse.enclose kind (m₁ p).2).2.source).length + C.taken () ≤ _
      rw [hup]
      exact hlen
  · obtain rfl : g = .ofChildren _ (.node kind) (m₁ p).2.out := List.mem_singleton.1 hg
    have hcs : ∀ c ∈ (m₁ p).2.out, c.Sound version := fun c hc =>
      (h.sound p hp hP hn hs c hc).1 hC
    refine ⟨fun hw => sound_ofChildren hcs fun hu => ?_, hcs⟩
    rw [not_isUnit hw] at hu
    cases hu
  · exact closed_ofChildren (h.closed ho p hp hP hn)
  · exact (h.follows p₁ p₂ common hat hne hn hP).enclose henclose .rfl le_rfl

section Nodes

variable {C : Contract Unit} {m₁ : Parse σ Unit} {m₂ : Parse TokenList Unit} {kind : NodeKind}

/-- A node of a kind that is not built again as a whole. -/
theorem node (h : Meets S M C n m₁ m₂) (hC : C.whole) (hif : kind ≠ .ifStmt)
    (hk : (kind.isStatement || kind.isMember) = false) :
    Meets S M C n (Parse.node kind m₁) (Parse.node kind m₂) :=
  scope ((then_enclose h hC hif).mono (fun _ => id) (fun _ _ => id) (fun _ => le_rfl) .rfl
    (fun _ => hk) le_rfl)

/-- A node of any kind but that of an `if`; it is left open whether it is good. -/
theorem unit_node (h : Meets S M C n m₁ m₂) (hC : C.whole) (hif : kind ≠ .ifStmt) :
    Meets S M { C with whole := False } n (Parse.node kind m₁) (Parse.node kind m₂) :=
  scope ((then_enclose h hC hif).mono (fun _ => id) (fun _ _ => id) (fun _ => le_rfl) .rfl
    False.elim le_rfl)

/-- A node is made of all that stands in the scope. -/
theorem enclose (hif : kind ≠ .ifStmt) (hk : (kind.isStatement || kind.isMember) = false) :
    Meets S M { pre := P, post := fun _ => P } n (Parse.enclose kind) (Parse.enclose kind) :=
  (then_enclose (pure (fun _ => id) rfl id :
    Meets S M { pre := P, post := fun _ => P } n (Pure.pure ()) (Pure.pure ())) trivial hif).mono (fun _ => id) (fun _ _ => id) (fun _ => le_rfl) .rfl
    (fun _ => hk) le_rfl

/-- One more list is open while an action runs. -/
theorem within {context : ListContext} (h : Meets S M C n m₁ m₂) :
    Meets S M C n (Parse.within context m₁) (Parse.within context m₂) where
  keeps p hp hP := by
    obtain ⟨hk, hQ, hlen⟩ := h.keeps { p with contexts := context :: p.contexts } ⟨hp.ok, hp.version⟩ hP
    exact ⟨hk.within, hQ, hlen⟩
  sound p hp hP := h.sound { p with contexts := context :: p.contexts } ⟨hp.ok, hp.version⟩ hP
  closed ho p hp hP := h.closed ho { p with contexts := context :: p.contexts } ⟨hp.ok, hp.version⟩ hP
  follows p₁ p₂ common hat hne hn hP := by
    have hat' : At S M { p₁ with contexts := context :: p₁.contexts }
        { p₂ with contexts := context :: p₂.contexts } common :=
      ⟨hat.alike.move [] hat.ready₁.ok hat.alike.ready₂.ok hat.alike.left hat.alike.right
        rfl rfl, hat.shapes, fun hs => ⟨by simp [(hat.strict hs).1], (hat.strict hs).2⟩⟩
    rcases h.follows _ _ common hat' hne hn hP with hl | ⟨ho, hh⟩ | ⟨ha, rest, hat'', hlen, hrest⟩
    · exact .inl ⟨⟨hl.1.ok, hl.1.version⟩, hl.2⟩
    · exact .inr (.inl ⟨ho, ⟨hh.1.ok, hh.1.version⟩, hh.2⟩)
    · exact .inr (.inr ⟨ha, rest, ⟨hat''.alike.move [] hat''.ready₁.ok hat''.alike.ready₂.ok
        hat''.alike.left hat''.alike.right rfl rfl, hat''.shapes,
        fun hs => ⟨(hat.strict hs).1, (hat''.strict hs).2⟩⟩, hlen, hrest⟩)

end Nodes

/-! ### Recursion -/

section Recursion

variable (S) in
/-- **Deep.** A depth of recursion that is enough for the tokens to come, or for `n` of them. -/
def Deep (n : Nat) (f : Parser σ → Nat) : Prop :=
  ∀ p, Ready S p → ∀ k ≤ n, k ≤ (S.upcoming p.source).length → k ≤ f p

variable (S) in
theorem deep_remaining : Deep S n fun p => TokenSource.remaining p.source + 1 :=
  fun _ hp _ _ hk => hk.trans (S.remaining hp.ok)

theorem deep_const {d : Nat} (h : n ≤ d) : Deep S n fun _ => d := fun _ _ _ hk _ => hk.trans h

variable {C : Contract Unit} {u : Nat → Parse σ Unit} {v : Nat → Parse TokenList Unit}

/-- Where no tokens are left to come, only what is kept matters. -/
theorem of_kept {m₁ : Parse σ Unit} {m₂ : Parse TokenList Unit}
    (h : ∀ p, Ready S p → C.pre (S.upcoming p.source) →
      Kept S p (m₁ p).2 ∧ C.post () (S.upcoming (m₁ p).2.source)) : Meets S M C 0 m₁ m₂ where
  keeps p hp hP := ⟨(h p hp hP).1, (h p hp hP).2, fun h0 => absurd h0 (S.not_length_le_zero hp.ok)⟩
  sound _ hp _ h0 := absurd h0 (S.not_length_le_zero hp.ok)
  closed _ _ hp _ h0 := absurd h0 (S.not_length_le_zero hp.ok)
  follows _ _ _ _ hne h0 := absurd (List.length_eq_zero_iff.1 (Nat.le_zero.1 h0)) hne

theorem zero {m₁ : Parse σ Unit} {m₂ m₂' : Parse TokenList Unit} {k : Nat} (h : Meets S M C k m₁ m₂) :
    Meets S M C 0 m₁ m₂' :=
  of_kept fun p hp hP => ⟨(h.keeps p hp hP).1, (h.keeps p hp hP).2.1⟩

theorem done (hpost : ∀ L, C.pre L → C.post () L) {m₂ : Parse TokenList Unit} :
    Meets S M C 0 (Pure.pure ()) m₂ :=
  of_kept fun _ hp hP => ⟨.refl hp, hpost _ hP⟩

/-- Actions to a depth that the tokens to come do not exceed, if every level comes after a token. -/
theorem iterate {N : Nat} (hzero : Meets S M C 0 (u 0) (v 0))
    (h : ∀ k d₁ d₂, Meets S M C k (u d₁) (v d₂) →
      Meets S M C (min (k + 1) N) (u (d₁ + 1)) (v (d₂ + 1))) :
    ∀ d₁ d₂ n, n ≤ N → n ≤ d₁ → n ≤ d₂ → Meets S M C n (u d₁) (v d₂) := by
  have hnone : ∀ d₁ d₂, Meets S M C 0 (u d₁) (v d₂) := by
    intro d₁
    induction d₁ with
    | zero => exact fun _ => hzero.zero
    | succ d ih => exact fun _ => (h 0 _ _ (ih 0)).zero
  intro d₁
  induction d₁ with
  | zero =>
    intro d₂ n _ hn _
    obtain rfl : n = 0 := Nat.le_zero.1 hn
    exact hnone 0 d₂
  | succ d ih =>
    intro d₂ n hN hn hn'
    cases n with
    | zero => exact hnone (d + 1) d₂
    | succ n =>
      obtain ⟨d', rfl⟩ : ∃ d', d₂ = d' + 1 := ⟨d₂ - 1, by omega⟩
      have := h n _ _ (ih d' n (by omega) (by omega) (by omega))
      rwa [Nat.min_eq_left hN] at this

/-- Actions to the depth that the tokens to come allow for. -/
theorem of_deep {α : Type} {C : Contract α} {u : Nat → Parse σ α} {v : Nat → Parse TokenList α}
    {f₁ : Parser σ → Nat} {f₂ : Parser TokenList → Nat} (hf₁ : Deep S n f₁)
    (hf₂ : Deep (Supply.ofTokenList version) n f₂)
    (h : ∀ d₁ d₂ k, k ≤ n → k ≤ d₁ → k ≤ d₂ → Meets S M C k (u d₁) (v d₂)) :
    Meets S M C n (fun p => u (f₁ p) p) (fun p => v (f₂ p) p) where
  keeps p hp hP := by
    obtain ⟨hk, hQ, -⟩ := (h (f₁ p) 0 0 (Nat.zero_le _) (Nat.zero_le _) le_rfl).keeps p hp hP
    refine ⟨hk, hQ, fun hn => ?_⟩
    exact ((h _ (S.upcoming p.source).length _ hn (hf₁ p hp _ hn le_rfl) le_rfl).keeps p hp hP).2.2 le_rfl
  sound p hp hP hn :=
    (h _ (S.upcoming p.source).length _ hn (hf₁ p hp _ hn le_rfl) le_rfl).sound p hp hP le_rfl
  closed ho p hp hP hn :=
    (h _ (S.upcoming p.source).length _ hn (hf₁ p hp _ hn le_rfl) le_rfl).closed ho p hp hP le_rfl
  follows p₁ p₂ common hat hne hn hP := by
    have hright : (Supply.ofTokenList version).upcoming p₂.source = common ++ M.right := hat.alike.right
    refine (h _ _ common.length hn (hf₁ p₁ hat.ready₁ _ hn ?_)
      (hf₂ p₂ hat.alike.ready₂ _ hn ?_)).follows p₁ p₂ common hat hne le_rfl hP
    · rw [hat.alike.left, List.length_append]
      exact Nat.le_add_right _ _
    · rw [hright, List.length_append]
      exact Nat.le_add_right _ _

variable {F₁ : Parse σ Unit → Parse σ Unit} {F₂ : Parse TokenList Unit → Parse TokenList Unit}

theorem fixUpTo {N : Nat}
    (h : ∀ k a₁ a₂, Meets S M {} k a₁ a₂ → Meets S M {} (min (k + 1) N) (F₁ a₁) (F₂ a₂)) :
    ∀ d₁ d₂ n, n ≤ N → n ≤ d₁ → n ≤ d₂ →
      Meets S M {} n (Parse.fixUpTo F₁ d₁) (Parse.fixUpTo F₂ d₂) :=
  iterate (done fun _ => id) fun k _ _ => h k _ _

/-- Recursion in which every call comes after a token. The first call may promise more than the others. -/
theorem fix_first (hpost : ∀ L, C.pre L → C.post () L)
    (h : ∀ k a₁ a₂, Meets S M {} k a₁ a₂ → Meets S M {} (min (k + 1) n) (F₁ a₁) (F₂ a₂))
    (hC : ∀ k a₁ a₂, Meets S M {} k a₁ a₂ → Meets S M C (min (k + 1) n) (F₁ a₁) (F₂ a₂)) :
    Meets S M C n (Parse.fix F₁) (Parse.fix F₂) := by
  refine of_deep (deep_remaining S) (deep_remaining _) fun d₁ d₂ k hk h₁ h₂ => ?_
  cases k with
  | zero =>
    cases d₁ with
    | zero =>
      exact done hpost
    | succ d => exact zero (hC 0 _ _ (fixUpTo h d 0 0 (Nat.zero_le _) (Nat.zero_le _) le_rfl))
  | succ k =>
    obtain ⟨d₁, rfl⟩ : ∃ d, d₁ = d + 1 := ⟨d₁ - 1, by omega⟩
    obtain ⟨d₂, rfl⟩ : ∃ d, d₂ = d + 1 := ⟨d₂ - 1, by omega⟩
    have := hC k _ _ (fixUpTo h d₁ d₂ k (by omega) (by omega) (by omega))
    rwa [Nat.min_eq_left hk] at this

theorem fix (h : ∀ k a₁ a₂, Meets S M {} k a₁ a₂ → Meets S M {} (min (k + 1) n) (F₁ a₁) (F₂ a₂)) :
    Meets S M {} n (Parse.fix F₁) (Parse.fix F₂) :=
  fix_first (fun _ => id) h h

/-- Repetition, if every round but the last takes a token. -/
theorem loop {r₁ : Parse σ Bool} {r₂ : Parse TokenList Bool}
    (h : Meets S M { taken := fun b => if b then 1 else 0 } n r₁ r₂) :
    Meets S M {} n (Parse.loop r₁) (Parse.loop r₂) := by
  refine fix fun k a₁ a₂ ha => ?_
  refine bind (h.mono (fun _ => id) (fun _ _ => id) (fun _ => le_rfl) .rfl id (Nat.min_le_right _ _))
    (fun b => ?_) (fun _ => id) id trivial
  cases b with
  | false => exact pure (fun _ => id) rfl id
  | true =>
    refine ha.mono (fun _ => id) (fun _ _ => id) (fun _ => by simp) .rfl id ?_
    show min (k + 1) n - 1 ≤ k
    omega

end Recursion

end Meets

end Parse

end IncrementalSyntax

import IncrementalSyntax.Proofs.Grammar.Lists

/-!
# Courses of actions

On a list of tokens an action takes one course, which is told here step by step: which tokens come before
and behind it, and which trees have been emitted in its scope. A course that is told this way emits no
token that is missing, and the status stays.

## Main definitions

* `Parse.Reads`: the course of an action
* `Parse.Rounds`: the courses of the rounds of a repetition

## Main results

* `Parse.Reads.bind`, `Parse.Reads.scope`, `Parse.Reads.node`: actions put together
* `Parse.Reads.fix`, `Parse.Rounds.reads`: recursion and repetition
-/

namespace IncrementalSyntax

/-- The shape of a node without annotations. -/
def Shape.branch (kind : NodeKind) (children : List Shape) : Shape := .node (.node kind) [] children

namespace Parse

open Green hiding id

variable {α β : Type}

/-- **Reads.** With the leaves `L` to come, and trees `o` emitted in the scope so far, the action gives `a`,
leaves the leaves `L'`, and then the trees `o'` are emitted. Nothing else changes. -/
def Reads (version : LanguageVersion) (m : Parse TokenList α) (L : List Leaf) (o : List Shape) (a : α)
    (L' : List Leaf) (o' : List Shape) : Prop :=
  ∀ p, Ready (Supply.ofTokenList version) p → p.source.upcoming = L → p.out.map shape = o →
    ∃ s out, m p = (a, { p with source := s, out := out }) ∧ s.WellFormed ∧ s.upcoming = L' ∧
      out.map shape = o'

namespace Reads

variable {v : LanguageVersion} {m : Parse TokenList α} {f : α → Parse TokenList β}
variable {L L' L₁ : List Leaf} {o o' o₁ : List Shape} {a : α} {b : β} {l : Leaf} {k : TokenKind}

theorem pure : Reads v (Pure.pure a) L o a L o := fun p hp hL ho => ⟨p.source, p.out, rfl, hp.ok, hL, ho⟩

theorem bind (h : Reads v m L o a L₁ o₁) (h' : Reads v (f a) L₁ o₁ b L' o') :
    Reads v (m >>= f) L o b L' o' := by
  intro p hp hL ho
  obtain ⟨s, out, hm, hs, hup, hout⟩ := h p hp hL ho
  obtain ⟨s', out', hf, hs', hup', hout'⟩ := h' { p with source := s, out := out } ⟨hs, hp.version⟩ hup hout
  refine ⟨s', out', ?_, hs', hup', hout'⟩
  show f (m p).1 (m p).2 = _
  rw [hm]
  exact hf

theorem ite_pos {c : Prop} [Decidable c] {m' : Parse TokenList α} (hc : c) (h : Reads v m L o a L' o') :
    Reads v (if c then m else m') L o a L' o' := by
  rwa [if_pos hc]

theorem ite_neg {c : Prop} [Decidable c] {m' : Parse TokenList α} (hc : ¬ c) (h : Reads v m L o a L' o') :
    Reads v (if c then m' else m) L o a L' o' := by
  rwa [if_neg hc]

/-- The token that ends the text is always to come. -/
theorem of_nil : Reads v m [] o a L' o' := fun _ hp hL _ =>
  absurd hL ((Supply.ofTokenList v).upcoming_ne_nil hp.ok)

/-! ## Tokens -/

theorem peek_bind {f : TokenKind → Parse TokenList β} (h : Reads v (f (frontKind L)) L o b L' o') :
    Reads v (peek >>= f) L o b L' o' := by
  intro p hp hL ho
  have hkind : (TokenSource.next p.source).1.leaf.tokenKind = frontKind L :=
    hL ▸ ((Supply.ofTokenList v).frontKind_upcoming hp.ok).symm
  show ∃ s out, f (TokenSource.next p.source).1.leaf.tokenKind p = _ ∧ _
  rw [hkind]
  exact h p hp hL ho

theorem isAt_bind {f : Bool → Parse TokenList β} (h : Reads v (f (decide (frontKind L = k))) L o b L' o') :
    Reads v (isAt k >>= f) L o b L' o' :=
  peek_bind (f := fun k' => f (decide (k' = k))) h

/-- The source behind the token at the front. -/
theorem next_eq {s : TokenList} (hs : s.WellFormed) (hL : s.upcoming = l :: L) (hl : l.tokenKind ≠ .eof) :
    (TokenSource.next s).1.leaf = l ∧ (TokenSource.next s).2.WellFormed ∧
      (TokenSource.next s).2.upcoming = L := by
  have hkind : (TokenSource.next s).1.leaf.tokenKind ≠ .eof := by
    rwa [← (Supply.ofTokenList .latest).frontKind_upcoming hs, show (Supply.ofTokenList .latest).upcoming s = _
      from hL]
  obtain ⟨hok, hcons⟩ := (Supply.ofTokenList .latest).next_of_ne hs hkind
  obtain ⟨hleaf, hrest⟩ := List.cons.inj (hcons.symm.trans hL)
  exact ⟨hleaf, hok, hrest⟩

theorem bump (hl : l.tokenKind ≠ .eof) : Reads v bump (l :: L) o () L (o ++ [.leaf l]) := by
  intro p hp hL ho
  obtain ⟨hleaf, hok, hup⟩ := next_eq hp.ok hL hl
  exact ⟨_, _, bump_apply p, hok, hup, by simp [shape, ho, hleaf]⟩

theorem skip (hl : l.tokenKind ≠ .eof) : Reads v skip (l :: L) o () L o := by
  refine peek_bind ?_
  rw [frontKind_cons, if_neg hl]
  intro p hp hL ho
  obtain ⟨-, hok, hup⟩ := next_eq hp.ok hL hl
  exact ⟨_, _, rfl, hok, hup, ho⟩

theorem expect (hl : l.tokenKind = k) (hk : k ≠ .eof) : Reads v (expect k) (l :: L) o () L (o ++ [.leaf l]) := by
  rw [expect_eq]
  refine peek_bind ?_
  rw [expectBody, if_pos (by exact hl)]
  exact bump (hl ▸ hk)

theorem eat (hl : l.tokenKind = k) (hk : k ≠ .eof) : Reads v (eat k) (l :: L) o true L (o ++ [.leaf l]) := by
  refine isAt_bind ?_
  rw [frontKind_cons, if_pos (by simpa using hl)]
  exact bind (bump (hl ▸ hk)) pure

theorem eat_of_ne (h : frontKind L ≠ k) : Reads v (Parse.eat k) L o false L o := by
  refine isAt_bind ?_
  rw [if_neg (by simpa using h)]
  exact pure

theorem atPair {k₁ k₂ : TokenKind} (h : k₁.closes = false) :
    Reads v (atPair k₁ k₂) L o (decide (frontKind L = k₁ ∧ frontKind L.tail = k₂)) L o := by
  intro p hp hL ho
  refine ⟨p.source, p.out, ?_, hp.ok, hL, ho⟩
  rw [atPair_apply (Supply.ofTokenList v) hp h, show (Supply.ofTokenList v).upcoming p.source = L from hL]

/-! ## Nodes -/

theorem scope (h : Reads v m L [] a L' o') : Reads v (scope m) L o a L' (o ++ o') := by
  intro p hp hL ho
  obtain ⟨s, out, hm, hs, hup, hout⟩ := h { p with out := [] } ⟨hp.ok, hp.version⟩ hL rfl
  refine ⟨s, p.out ++ out, ?_, hs, hup, by rw [List.map_append, ho, hout]⟩
  show ((m { p with out := [] }).1, { (m { p with out := [] }).2 with
    out := p.out ++ (m { p with out := [] }).2.out }) = _
  rw [hm]

theorem enclose {kind : NodeKind} : Reads v (enclose kind) L o () L [.branch kind o] := by
  intro p hp hL ho
  obtain ⟨hok, hup⟩ := (Supply.ofTokenList v).fresh hp.ok
  exact ⟨_, _, enclose_apply kind p, hok, hup.trans hL, by simp [ofChildren, shape, Shape.branch, ho]⟩

theorem node {kind : NodeKind} {m : Parse TokenList Unit} (h : Reads v m L [] () L' o') :
    Reads v (node kind m) L o () L' (o ++ [.branch kind o']) :=
  scope (bind h enclose)

theorem within {context : ListContext} {m : Parse TokenList Unit} (h : Reads v m L o () L' o') :
    Reads v (within context m) L o () L' o' := by
  intro p hp hL ho
  obtain ⟨s, out, hm, hs, hup, hout⟩ :=
    h { p with contexts := context :: p.contexts } ⟨hp.ok, hp.version⟩ hL ho
  refine ⟨s, out, ?_, hs, hup, hout⟩
  show ((m { p with contexts := context :: p.contexts }).1,
    { (m { p with contexts := context :: p.contexts }).2 with contexts := p.contexts }) = _
  rw [hm]

theorem speculate (h : Reads v m L o a L' o') : Reads v (speculate m) L o a L o := by
  intro p hp hL ho
  obtain ⟨s, out, hm, -⟩ := h p hp hL ho
  refine ⟨p.source, p.out, ?_, hp.ok, hL, ho⟩
  show ((m p).1, p) = _
  rw [hm]

/-! ## Recursion -/

/-- The tokens to come are the depth of a recursion. -/
theorem fix {body : Parse TokenList Unit → Parse TokenList Unit}
    (h : Reads v (fixUpTo body L.length) L o () L' o') : Reads v (fix body) L o () L' o' := by
  intro p hp hL ho
  have hlen : TokenSource.remaining p.source + 1 = L.length := by
    rw [← hL]
    simp [TokenSource.remaining, TokenList.upcoming]
  show ∃ s out, fixUpTo body (TokenSource.remaining p.source + 1) p = _ ∧ _
  rw [hlen]
  exact h p hp hL ho

end Reads

/-- **Rounds.** The course of a repetition: every round but the last takes a token and asks for another
one. -/
inductive Rounds (v : LanguageVersion) (round : Parse TokenList Bool) :
    List Leaf → List Shape → List Leaf → List Shape → Prop
  | stop {L L' : List Leaf} {o o' : List Shape} (h : Reads v round L o false L' o') : Rounds v round L o L' o'
  | more {L L₁ L' : List Leaf} {o o₁ o' : List Shape} (h : Reads v round L o true L₁ o₁)
      (hlt : L₁.length < L.length) (h' : Rounds v round L₁ o₁ L' o') : Rounds v round L o L' o'

theorem Rounds.reads {v : LanguageVersion} {round : Parse TokenList Bool} {L L' : List Leaf}
    {o o' : List Shape} (h : Rounds v round L o L' o') : Reads v (loop round) L o () L' o' := by
  have hdeep : ∀ d, L.length ≤ d →
      Reads v (fixUpTo (fun again => do if ← round then again) d) L o () L' o' := by
    induction h with
    | stop h =>
      intro d hlen
      cases d with
      | zero => exact List.length_eq_zero_iff.1 (Nat.le_zero.1 hlen) ▸ .of_nil
      | succ d => exact .bind h .pure
    | more h hlt h' ih =>
      intro d hlen
      cases d with
      | zero => exact absurd (hlt.trans_le hlen) (Nat.not_lt_zero _)
      | succ d => exact .bind h (ih d (Nat.le_of_lt_succ (hlt.trans_le hlen)))
  exact .fix (hdeep _ le_rfl)

end Parse

end IncrementalSyntax

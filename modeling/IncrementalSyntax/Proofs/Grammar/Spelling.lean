import IncrementalSyntax.Proofs.Grammar.Phrases
import IncrementalSyntax.Proofs.Grammar.Taking

/-!
# The kinds of what is taken

A production either emits a diagnostic or takes tokens that the grammar derives for it. For statements and
expressions the kinds of the tokens say all, whatever the version of the language.

## Main definitions

* `Parse.Spells`: an action that takes tokens of certain kinds, or emits a diagnostic

## Main results

* `Parse.Spells.bind`, `Parse.Spells.node`, `Parse.Spells.fix`, `Parse.Spells.loop`: the rules
* `Parse.Spells.expression`, `Parse.Spells.statement`: what is read is derived
-/

namespace IncrementalSyntax

namespace Parse

open Green hiding id

/-- **Spells.** Where at most `n` tokens are to come that meet `pre`, the action emits a diagnostic or takes
tokens whose kinds meet `D`, which also knows the result. In any case it keeps the tokens well-formed and
diagnostics in place. -/
def Spells {α : Type} (n : Nat) (pre : List Leaf → Prop) (m : Parse TokenList α)
    (D : α → List TokenKind → Prop) : Prop :=
  ∀ v, Takes v n pre m fun a _ w => D a (w.map Leaf.tokenKind)

namespace Spells

variable {α β : Type} {n : Nat} {pre : List Leaf → Prop} {m : Parse TokenList α}
variable {D : α → List TokenKind → Prop} {D' : Unit → List TokenKind → Prop}

/-! ## Rules -/

theorem mono {pre' : List Leaf → Prop} {D' : α → List TokenKind → Prop} {k : Nat} (h : Spells n pre m D)
    (hpre : ∀ L, pre' L → pre L) (hD : ∀ a w, D a w → D' a w) (hk : k ≤ n) : Spells k pre' m D' :=
  fun v => (h v).mono hpre (fun a _ _ => hD a _) hk

theorem imp {D' : α → List TokenKind → Prop} (h : Spells n anything m D) (hD : ∀ a w, D a w → D' a w) :
    Spells n pre m D' :=
  h.mono (fun _ _ => trivial) hD le_rfl

theorem pure {a : α} (h : D a []) : Spells n pre (Pure.pure a) D := fun _ => .pure fun _ => h

/-- Actions in a row. There are fewer tokens to come for the second one. -/
theorem bind {f : α → Parse TokenList β} {E : α → β → List TokenKind → Prop}
    {F : β → List TokenKind → Prop} (k : α → Nat) (h : Spells n pre m D)
    (hf : ∀ a, Spells (n - k a) anything (f a) (E a))
    (hF : ∀ a b v w, D a v → E a b w → F b (v ++ w)) (hk : ∀ a v, D a v → k a ≤ v.length) :
    Spells n pre (m >>= f) F := by
  refine fun v => Takes.bind k (h v) (fun a => hf a v) (fun a b _ _ w w' hw hw' => ?_) fun a _ w hw => ?_
  · rw [List.map_append]
    exact hF a b _ _ hw hw'
  · exact (hk a _ hw).trans (List.length_map _).le

/-- A token, and what stands behind it. -/
theorem token_then {k : TokenKind} {m' : Parse TokenList β} {E F : β → List TokenKind → Prop}
    (h : Spells n pre m fun _ w => w = [k]) (h' : Spells (n - 1) anything m' E)
    (hF : ∀ b w, E b w → F b (k :: w)) : Spells n pre (do let _ ← m; m') F := by
  refine bind (fun _ => 1) h (fun _ => h') (fun _ b v w hv hw => ?_) fun _ v hv => ?_
  · rw [hv]
    exact hF b w hw
  · rw [hv]
    rfl

/-- Something, and a token behind it. -/
theorem then_token {k : TokenKind} {m : Parse TokenList Unit} {m' : Parse TokenList β}
    {A : List TokenKind → Prop} {F : β → List TokenKind → Prop} (h : Spells n pre m fun _ => A)
    (h' : Spells n anything m' fun _ w => w = [k]) (hF : ∀ b w, A w → F b (w ++ [k])) :
    Spells n pre (do m; m') F := by
  refine bind (fun _ => 0) h (fun _ => h') (fun _ b v w hv hw => ?_) fun _ _ _ => Nat.zero_le _
  rw [hw]
  exact hF b v hv

/-- Two things in a row. -/
theorem seq {m : Parse TokenList Unit} {m' : Parse TokenList β} {A : List TokenKind → Prop}
    {E F : β → List TokenKind → Prop} (h : Spells n pre m fun _ => A) (h' : Spells n anything m' E)
    (hF : ∀ b v w, A v → E b w → F b (v ++ w)) : Spells n pre (do m; m') F :=
  bind (fun _ => 0) h (fun _ => h') (fun _ => hF) fun _ _ _ => Nat.zero_le _

/-! ### Tokens -/

/-- What comes next decides how to go on. -/
theorem peek_bind {f : TokenKind → Parse TokenList α}
    (h : ∀ k, Spells n (fun L => pre L ∧ frontKind L = k) (f k) D) : Spells n pre (peek >>= f) D :=
  fun v => .peek_bind fun k => h k v

/-- A token of a known kind is taken, and what comes behind it is known too. -/
theorem bump_then {k : TokenKind} {pre' : List Leaf → Prop} {m' : Parse TokenList β}
    {E F : β → List TokenKind → Prop} (hk : k ≠ .eof) (hpre : ∀ L, pre L → frontKind L = k ∧ pre' L.tail)
    (h : Spells (n - 1) pre' m' E) (hF : ∀ b w, E b w → F b (k :: w)) :
    Spells n pre (do Parse.bump; m') F := by
  refine fun v => Takes.bump_then (fun L hL => (hpre L hL).1 ▸ hk) (fun l L hL => ?_) (h v) ?_
    (P := fun l => l.tokenKind = k)
  · exact hpre _ hL
  · rintro b _ l w rfl hw
    exact hF b _ hw

theorem bump {k : TokenKind} (hk : k ≠ .eof) (hpre : ∀ L, pre L → frontKind L = k) :
    Spells n pre bump fun _ w => w = [k] := by
  have hnothing : Spells (n - 1) anything (Pure.pure ()) fun _ w => w = [] := pure rfl
  exact bump_then hk (fun L hL => ⟨hpre L hL, trivial⟩) hnothing (by rintro _ _ rfl; rfl)

/-- A missing token is a diagnostic. -/
theorem missing (k : TokenKind) (c : Code) : Spells n pre (missing k c) D' := fun _ => .missing k c

theorem expect {k : TokenKind} (hk : k ≠ .eof) : Spells n pre (expect k) fun _ w => w = [k] := by
  rw [expect_eq]
  refine peek_bind fun k' => ?_
  unfold expectBody
  by_cases h : k' = k
  · rw [if_pos h]
    exact bump hk fun L hL => hL.2.trans h
  · rw [if_neg h]
    exact missing _ _

/-- Whether a token comes decides how to go on. -/
theorem isAt_bind {k : TokenKind} {f : Bool → Parse TokenList α}
    (h : ∀ b, Spells n (fun L => pre L ∧ decide (frontKind L = k) = b) (f b) D) :
    Spells n pre (isAt k >>= f) D :=
  fun v => .isAt_bind fun b => h b v

theorem eat {k : TokenKind} (hk : k ≠ .eof) :
    Spells n pre (eat k) fun b w => w = if b then [k] else [] := by
  refine isAt_bind fun b => ?_
  cases b with
  | false => exact pure rfl
  | true =>
    exact token_then (bump hk fun _ hL => of_decide_eq_true hL.2) (pure (D := fun b w => b = true ∧ w = []) ⟨rfl, rfl⟩)
      (by rintro _ _ ⟨rfl, rfl⟩; rfl)

/-- Whether two tokens come decides how to go on. -/
theorem atPair_bind {k₁ k₂ : TokenKind} {f : Bool → Parse TokenList α} (h₁ : k₁.closes = false)
    (h : ∀ b, Spells n (fun L => pre L ∧ (b = true → frontKind L = k₁ ∧ frontKind L.tail = k₂)) (f b) D) :
    Spells n pre (atPair k₁ k₂ >>= f) D :=
  fun v => .atPair_bind h₁ fun b => h b v

/-- Two tokens are taken if they come. -/
theorem pair_round {k₁ k₂ : TokenKind} {r : Parse TokenList Unit} (h₁ : k₁.closes = false) (h₂ : k₂ ≠ .eof)
    (h : ∀ n, Spells n anything r fun _ w => w = []) :
    Spells n pre
      (do if ← Parse.atPair k₁ k₂ then Parse.bump; Parse.bump; r; return true else return false)
      fun b w => w = if b then [k₁, k₂] else [] := by
  refine atPair_bind h₁ fun b => ?_
  cases b with
  | false => exact pure rfl
  | true =>
    have hrest : Spells (n - 1 - 1) anything (do r; return true) fun b w => b = true ∧ w = [] :=
      seq (h _) (pure (D := fun b w => b = true ∧ w = []) ⟨rfl, rfl⟩) (by rintro _ _ _ rfl ⟨rfl, rfl⟩; exact ⟨rfl, rfl⟩)
    have hsecond : Spells (n - 1) (FrontIs k₂) (do Parse.bump; r; return true) fun b w => b = true ∧ w = [k₂] :=
      bump_then h₂ (fun L hL => ⟨hL, trivial⟩) hrest (by rintro _ _ ⟨rfl, rfl⟩; exact ⟨rfl, rfl⟩)
    exact bump_then (ne_eof_of_closes h₁) (fun L hL => hL.2 rfl) hsecond (by rintro _ _ ⟨rfl, rfl⟩; rfl)

/-! ### Nodes -/

theorem scope (h : Spells n pre m D) : Spells n pre (scope m) D := fun v => (h v).scope fun _ _ _ _ => id

theorem enclose {kind : NodeKind} : Spells n pre (enclose kind) fun _ w => w = [] :=
  fun _ => Takes.enclose.mono (fun _ => id) (fun _ _ _ hw => by rw [hw.1, List.map_nil]) le_rfl

theorem then_enclose {kind : NodeKind} {m : Parse TokenList Unit} {D : Unit → List TokenKind → Prop}
    (h : Spells n pre m D) : Spells n pre (do m; Parse.enclose kind) D :=
  bind (fun _ => 0) h (fun _ => enclose) (by rintro ⟨⟩ ⟨⟩ v w hv rfl; simpa using hv) fun _ _ _ => Nat.zero_le _

theorem node {kind : NodeKind} {m : Parse TokenList Unit} {D : Unit → List TokenKind → Prop}
    (h : Spells n pre m D) : Spells n pre (node kind m) D :=
  scope (then_enclose h)

theorem within {context : ListContext} {m : Parse TokenList Unit}
    {D : Unit → List TokenKind → Prop} (h : Spells n pre m D) : Spells n pre (within context m) D :=
  fun v => (h v).within

theorem speculate_bind {c : Parse TokenList α} {f : α → Parse TokenList β} {D : β → List TokenKind → Prop}
    (h : ∀ a, Spells n pre (f a) D) : Spells n pre (speculate c >>= f) D :=
  fun v => Takes.look (Q := fun _ _ => True) (fun _ _ => ⟨rfl, trivial⟩)
    fun a => (h a v).mono (fun _ hL => hL.1) (fun _ _ _ => id) le_rfl

theorem skipToRecovery : Spells n pre skipToRecovery fun b w => b = false ∧ w = [] :=
  fun _ => Takes.skipToRecovery.mono (fun _ => id) (fun _ _ _ hw => ⟨hw.1, by rw [hw.2, List.map_nil]⟩) le_rfl

/-! ### Recursion -/

/-- Recursion in which every call comes after a token. -/
theorem fix {body : Parse TokenList Unit → Parse TokenList Unit} {D : Unit → List TokenKind → Prop}
    (h : ∀ k ≤ n, ∀ i, Spells (k - 1) anything i D → Spells k anything (body i) D) :
    Spells n pre (fix body) D := by
  have hupTo : ∀ d, ∀ k ≤ n, k ≤ d → Spells k anything (fixUpTo body d) D := by
    intro d
    induction d with
    | zero => exact fun k _ hk v => .fixUpTo_zero hk
    | succ d ih => exact fun k hkn hk => h k hkn _ (ih (k - 1) (by omega) (by omega))
  exact fun v => .of_fixUpTo fun d k hkn hk => hupTo d k hkn hk v

/-- Repetition, where every round but the last takes a token. -/
theorem loop {round : Parse TokenList Bool} {R : Bool → List TokenKind → Prop} {A : List TokenKind → Prop}
    (h : Spells n anything round R) (hne : ∀ w, R true w → w ≠ []) (hstop : ∀ w, R false w → A w)
    (hmore : ∀ v w, R true v → A w → A (v ++ w)) : Spells n pre (loop round) fun _ => A :=
  fun v => Takes.loop (A := fun w => A (w.map Leaf.tokenKind)) (h v) (fun _ hw => by simpa using hne _ hw)
    (fun _ => hstop _) fun w w' hw hw' => by simpa using hmore _ _ hw hw'

end Spells

end Parse

end IncrementalSyntax

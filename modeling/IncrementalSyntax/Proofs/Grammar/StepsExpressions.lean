import IncrementalSyntax.Proofs.Grammar.Root
import IncrementalSyntax.Proofs.Grammar.Steps
import IncrementalSyntax.View.Basic

/-!
# Expressions are made of steps

Every production of names, types and expressions is made of steps, wherever it stands. An expression is one node, and
how tight it holds together is known: the operands of one level of precedence are tighter than the level, and behind
them no operator of the level comes. So at the moment when a node is put around operands, they are grouped.

## Main definitions

* `Parse.Operand`: a production of one expression that is tight enough
* `Parse.Holds`: a scope that holds nothing but such an expression

## Main results

* `Parse.Chain.binary`: chains of binary operators
* `Parse.Operand.expression`: expressions
-/

namespace IncrementalSyntax

namespace Parse

open Green hiding id

variable {version : LanguageVersion} {σ : Type} [TokenSource σ] {S : Supply version σ}
variable {around : Surroundings} {n : Nat} {pre : List Leaf → Prop} {i : Parse σ Unit}

/-! ## Names and types -/

namespace Goes

theorem single {kind : NodeKind} (hordinary : kind.isOrdinary = true) (hlist : kind.list? = none)
    (hpre : ∀ L, pre L → frontKind L ≠ .eof) : Goes S around n pre (Parse.node kind Parse.bump) :=
  node hordinary hlist (bump hpre)

theorem name : Goes S around n pre Parse.name := by
  refine node rfl rfl (bind (expect (by decide)) fun _ => ?_)
  exact loop (pair_bind (by decide) (by decide) pure pure)

theorem type : Goes S around n pre Parse.type := by
  have hbrackets : Goes S around n anything (Parse.loop (do
      if ← Parse.atPair (.punct .lBracket) (.punct .rBracket) then
        Parse.bump; Parse.bump; Parse.enclose .arrayType; return true
      else return false)) :=
    loop (pair_bind rfl (by decide) (bind (enclose rfl rfl) fun _ => pure) pure)
  refine scope (peek_bind fun k => ite (fun hk => ?_) fun _ => node rfl rfl (missing rfl))
  have hne : ∀ L, pre L ∧ frontKind L = k → frontKind L ≠ .eof :=
    fun L hL => hL.2 ▸ ne_eof_of_closes (closes_of_startsType hk)
  exact ite (fun _ => bind (single rfl rfl hne) fun _ => hbrackets) fun _ => bind name fun _ => hbrackets

/-- Elements with commas between them. -/
theorem commas (h : Goes S around n anything i) :
    Goes S around n pre (Parse.loop (do i; Parse.eat (.punct .comma))) :=
  loop (bind h fun _ => eat (by decide))

/-- Arguments behind their opening parenthesis. -/
theorem arguments (h : Goes S around n anything i) : Goes S around n pre (do
    let kind ← Parse.peek
    unless kind = .punct .rParen || kind = .eof do
      Parse.loop do
        i
        Parse.eat (.punct .comma)
    Parse.expect (.punct .rParen)) := by
  refine peek_bind fun k => ite (fun _ => expect (by decide)) fun _ => ?_
  exact bind (commas h) fun _ => expect (by decide)

theorem argumentListOf (h : Goes S around n anything i) : Goes S around n pre (Parse.argumentListOf i) :=
  node rfl rfl (bind (expect (by decide)) fun _ => arguments h)

/-- Arguments whose opening parenthesis is known to come. -/
theorem argumentListOf_front (hpre : ∀ L, pre L → frontKind L = .punct .lParen) (h : Goes S around (n - 1) anything i) :
    Goes S around n pre (Parse.argumentListOf i) :=
  node rfl rfl (expect_then (by decide) hpre (arguments h))

end Goes

/-! ## Operands -/

/-- The scope holds one expression, which is tight enough. -/
def Holds (least : Nat) (p : Parser σ) : Prop :=
  ∃ g, p.out = [g] ∧ g.nodeKind?.any NodeKind.isExpression = true ∧ least ≤ g.tightness

variable (S) in
/-- **Operand.** Where at most `n` tokens are to come, which meet `pre`, the action is made of steps and emits one
expression, which is at least as tight as `least`. -/
def Operand (n : Nat) (pre : List Leaf → Prop) (least : Nat) (a : Parse σ Unit) : Prop :=
  ∀ p, Ready S p → pre (S.upcoming p.source) → (S.upcoming p.source).length ≤ n →
    (∃ g, (a p).2.out = p.out ++ [g] ∧ g.nodeKind?.any NodeKind.isExpression = true ∧ least ≤ g.tightness) ∧
      ∀ lists, Steps S lists p lists (a p).2

/-- What holds before a repetition holds behind it, if every round keeps it. -/
theorem loop_keeps {r : Parse σ Bool} {I : Parser σ → Prop} (hround : ∀ p, I p → I (r p).2) {p : Parser σ}
    (hI : I p) : I (loop r p).2 := by
  have hup : ∀ d p, I p → I (fixUpTo (fun again => do if ← r then again) d p).2 := by
    intro d
    induction d with
    | zero => exact fun p hp => hp
    | succ d ih =>
      intro p hp
      show I ((if (r p).1 = true then fixUpTo (fun again => do if ← r then again) d
        else Pure.pure () : Parse σ Unit) (r p).2).2
      cases (r p).1 with
      | false => exact hround p hp
      | true => exact ih _ (hround p hp)
  exact hup _ p hI

/-- What follows may depend on the kind of the token at the front. -/
theorem peek_bind_apply {α : Type} {f : TokenKind → Parse σ α} {p : Parser σ} (hp : Ready S p) :
    (peek >>= f) p = f (front S p) p := by
  rw [front, S.frontKind_upcoming hp.ok]
  rfl

/-- The state behind a token that is taken. -/
theorem bump_spec {p : Parser σ} (hp : Ready S p) (hne : front S p ≠ .eof) :
    Ready S (bump p).2 ∧ (S.upcoming (bump p).2.source).length + 1 = (S.upcoming p.source).length ∧
      ∃ t : Token, (bump p).2.out = p.out ++ [.token t] ∧ t.leaf.tokenKind = front S p := by
  obtain ⟨hok, hcons⟩ := S.next_of_ne hp.ok (by rwa [← S.frontKind_upcoming hp.ok])
  refine ⟨⟨hok, hp.version⟩, ?_, _, rfl, (S.frontKind_upcoming hp.ok).symm⟩
  rw [hcons]
  rfl

theorem front_enclose {p : Parser σ} (hp : Ready S p) (kind : NodeKind) :
    front S (enclose kind p).2 = front S p ∧
      (S.upcoming (enclose kind p).2.source).length = (S.upcoming p.source).length := by
  have hup : S.upcoming (enclose kind p).2.source = S.upcoming p.source := (S.fresh hp.ok).2
  exact ⟨congrArg frontKind hup, congrArg List.length hup⟩

namespace Operand

variable {least : Nat} {a : Parse σ Unit}

theorem mono {pre' : List Leaf → Prop} {k least' : Nat} (h : Operand S n pre least a) (hpre : ∀ L, pre' L → pre L)
    (hk : k ≤ n) (hleast : least' ≤ least) : Operand S k pre' least' a := by
  intro p hp hP hlen
  obtain ⟨⟨g, hout, hkind, hg⟩, hsteps⟩ := h p hp (hpre _ hP) (hlen.trans hk)
  exact ⟨⟨g, hout, hkind, hleast.trans hg⟩, hsteps⟩

theorem goes (h : Operand S n pre least a) : Goes S around n pre a := fun p lists hp _ hP hlen =>
  (h p hp hP hlen).2 lists

theorem scope (h : ∀ p, Ready S p → pre (S.upcoming p.source) → (S.upcoming p.source).length ≤ n → p.out = [] →
    Holds least (a p).2 ∧ ∀ lists, Steps S lists p lists (a p).2) : Operand S n pre least (Parse.scope a) := by
  intro p hp hP hlen
  obtain ⟨⟨g, hout, hg⟩, hsteps⟩ := h { p with out := [] } ⟨hp.ok, hp.version⟩ hP hlen rfl
  exact ⟨⟨g, congrArg (p.out ++ ·) hout, hg⟩, fun lists => .scope (hsteps lists)⟩

theorem peek_bind {f : TokenKind → Parse σ Unit}
    (hf : ∀ k, Operand S n (fun L => pre L ∧ frontKind L = k) least (f k)) :
    Operand S n pre least (Parse.peek >>= f) := fun p hp hP hlen =>
  hf _ p hp ⟨hP, S.frontKind_upcoming hp.ok⟩ hlen

theorem ite {c : Prop} [Decidable c] {b : Parse σ Unit} (ha : c → Operand S n pre least a)
    (hb : ¬ c → Operand S n pre least b) : Operand S n pre least (if c then a else b) := by
  split
  · next h => exact ha h
  · next h => exact hb h

/-- A node that is no operator holds together as tight as can be. -/
theorem node {kind : NodeKind} (hordinary : kind.isOrdinary = true) (hlist : kind.list? = none)
    (hkind : kind.isExpression = true) (h : Goes S Anywhere n pre a) :
    Operand S n pre (precedences + 2) (Parse.node kind a) := by
  intro p hp hP hlen
  refine ⟨⟨_, rfl, hkind, ?_⟩, fun lists => Goes.node hordinary hlist h p lists hp trivial hP hlen⟩
  refine (tightness_ofChildren ?_ ?_ ?_).ge
  all_goals
    rintro rfl
    cases hordinary

theorem fixUpTo {F : Parse σ Unit → Parse σ Unit}
    (h : ∀ j ≤ n, ∀ i, Operand S (j - 1) anything least i → Operand S j anything least (F i)) (depth : Nat) :
    ∀ j ≤ n, j ≤ depth → Operand S j anything least (Parse.fixUpTo F depth) := by
  induction depth with
  | zero => exact fun j _ hj p hp _ hlen => absurd (hlen.trans hj) (S.not_length_le_zero hp.ok)
  | succ depth ih => exact fun j hj hdepth => h j hj _ (ih (j - 1) ((Nat.sub_le _ _).trans hj) (by omega))

theorem fix {F : Parse σ Unit → Parse σ Unit}
    (h : ∀ j ≤ n, ∀ i, Operand S (j - 1) anything least i → Operand S j anything least (F i)) :
    Operand S n pre least (Parse.fix F) := fun p hp _ hlen =>
  fixUpTo h _ _ hlen (S.remaining hp.ok) p hp trivial le_rfl

section Productions

variable (h : Operand S (n - 1) anything 0 i)

include h

/-! ### Behind an operand -/

theorem primary : Operand S n pre (precedences + 2) (Parse.primary i) := by
  have hgoes : Goes S Anywhere (n - 1) anything i := h.goes
  refine peek_bind fun k => ?_
  refine ite (fun hk => node rfl rfl rfl (.bump fun L hL => ?_)) fun _ => ?_
  · exact hL.2 ▸ ne_eof_of_closes (closes_of_isLiteral_or_isConstant hk)
  refine ite (fun hk => node rfl rfl rfl (.bump fun L hL => ?_)) fun _ => ?_
  · exact hL.2 ▸ hk ▸ by decide
  refine ite (fun hk => node rfl rfl rfl (.bump fun L hL => ?_)) fun _ => ?_
  · exact hL.2 ▸ hk ▸ by decide
  refine ite (fun hk => node rfl rfl rfl (.bump_seq (fun L hL => ?_) ?_)) fun _ => ?_
  · exact hL.2 ▸ hk ▸ by decide
  · exact .bind hgoes fun _ => .expect (by decide)
  refine ite (fun hk => node rfl rfl rfl (.bump_seq (fun L hL => ?_) ?_)) fun _ => ?_
  · exact hL.2 ▸ hk ▸ by decide
  · exact .bind .type fun _ => .argumentListOf hgoes
  exact node rfl rfl rfl (.missing rfl)

end Productions

end Operand

/-! ## Behind an operand -/

/-- The first element in the scope is an expression that no operator in front of it holds. -/
def Leads (p : Parser σ) : Prop :=
  ∃ g rest, p.out = g :: rest ∧ g.nodeKind?.any NodeKind.isExpression = true ∧ precedences + 2 ≤ g.tightness

variable (S) in
/-- **Appends.** The action is made of steps and leaves what the scope holds at its front. -/
def Appends (n : Nat) (pre : List Leaf → Prop) (a : Parse σ Unit) : Prop :=
  ∀ p, Ready S p → pre (S.upcoming p.source) → (S.upcoming p.source).length ≤ n →
    (∃ rest, (a p).2.out = p.out ++ rest) ∧ ∀ lists, Steps S lists p lists (a p).2

variable (S) in
/-- **Wraps.** The action is made of steps, and where a tight expression leads the scope, such an expression is all that
the scope holds afterwards. -/
def Wraps (n : Nat) (pre : List Leaf → Prop) (r : Parse σ Bool) : Prop :=
  ∀ p, Ready S p → pre (S.upcoming p.source) → (S.upcoming p.source).length ≤ n → Leads p →
    Holds (precedences + 2) (r p).2 ∧ ∀ lists, Steps S lists p lists (r p).2

namespace Appends

theorem of_operand {least : Nat} (h : Operand S n pre least i) : Appends S n pre i := by
  intro p hp hP hlen
  obtain ⟨⟨g, hout, -⟩, hsteps⟩ := h p hp hP hlen
  exact ⟨⟨[g], hout⟩, hsteps⟩

theorem expect {k : TokenKind} (hk : k ≠ .eof) : Appends S n pre (Parse.expect k) := by
  intro p hp hP hlen
  obtain ⟨t, ht⟩ := exists_out_expect k p
  have hgoes : Goes S Anywhere n pre (Parse.expect k) := .expect hk
  exact ⟨⟨_, ht⟩, fun lists => hgoes p lists hp trivial hP hlen⟩

theorem argumentListOf (hpre : ∀ L, pre L → frontKind L = .punct .lParen) (h : Goes S Anywhere (n - 1) anything i) :
    Appends S n pre (Parse.argumentListOf i) := fun p hp hP hlen =>
  ⟨⟨_, rfl⟩, fun lists => Goes.argumentListOf_front hpre h p lists hp trivial hP hlen⟩

end Appends

namespace Wraps

variable {r : Parse σ Bool}

theorem seq (h : Appends S n pre i) (hr : Wraps S n anything r) : Wraps S n pre (do i; r) := by
  rintro p hp hP hlen ⟨g, rest, hout, hg⟩
  obtain ⟨⟨more, hmore⟩, hsteps⟩ := h p hp hP hlen
  have hk := (hsteps []).kept hp
  have hleads : Leads (i p).2 := ⟨g, rest ++ more, by rw [hmore, hout, List.cons_append], hg⟩
  obtain ⟨hholds, hsteps'⟩ := hr (i p).2 hk.ready trivial (hk.length_le.trans hlen) hleads
  exact ⟨hholds, fun lists => (hsteps lists).trans (hsteps' lists)⟩

theorem bump_seq (hpre : ∀ L, pre L → frontKind L ≠ .eof) (hr : Wraps S (n - 1) anything r) :
    Wraps S n pre (do Parse.bump; r) := by
  rintro p hp hP hlen ⟨g, rest, hout, hg⟩
  obtain ⟨hready, hlength, t, ht, -⟩ := bump_spec hp (hpre _ hP)
  have hleads : Leads (Parse.bump p).2 := ⟨g, rest ++ [.token t], by rw [ht, hout, List.cons_append], hg⟩
  obtain ⟨hholds, hsteps⟩ := hr (Parse.bump p).2 hready trivial (by omega) hleads
  exact ⟨hholds, fun lists => (Steps.bump (hpre _ hP)).trans (hsteps lists)⟩

/-- The expression that leads the scope is the target of the node. -/
theorem enclose {kind : NodeKind} (hlist : kind.list? = none) (hkind : kind.isExpression = true)
    (hgrouped : ∀ target rest, precedences + 1 < target.tightness → Grouped kind (target :: rest))
    (htight : ∀ id cs, (ofChildren id (.node kind) cs).tightness = precedences + 2)
    (hskipped : kind ≠ .skippedTokens) (hif : kind ≠ .ifStmt) :
    Wraps S n pre (do Parse.enclose kind; return true) := by
  rintro p hp hP hlen ⟨g, rest, hout, -, hg⟩
  refine ⟨⟨_, rfl, hkind, (htight _ _).ge⟩, fun lists => ?_⟩
  exact Steps.enclose_special hlist hskipped (fun hk => absurd hk hif) (hout ▸ hgrouped g rest hg) lists

end Wraps

section Productions

variable (h : Operand S (n - 1) anything 0 i)

include h

/-- A round puts a node around the expression in the scope, or leaves it as it is. -/
theorem holds_postfixRound {p : Parser σ} (hp : Ready S p) (hlen : (S.upcoming p.source).length ≤ n)
    (hholds : Holds (precedences + 2) p) :
    Holds (precedences + 2) (postfixRound i p).2 ∧ ∀ lists, Steps S lists p lists (postfixRound i p).2 := by
  have hleads : Leads p := by
    obtain ⟨g, hout, hg⟩ := hholds
    exact ⟨g, [], hout, hg⟩
  have henclose : ∀ {kind : NodeKind} {m : Nat}, kind = .callExpr ∨ kind = .memberAccessExpr ∨ kind = .indexExpr ∨
      kind = .postfixExpr → Wraps S m anything (do enclose kind; return true) := by
    rintro kind m (rfl | rfl | rfl | rfl) <;>
      exact .enclose rfl rfl (fun target rest ht => ⟨target, rest, rfl, ht⟩) (fun _ _ => rfl) (by decide) (by decide)
  have hround : ∀ {k : TokenKind} {r : Parse σ Bool}, front S p = k → Wraps S n (fun L => frontKind L = k) r →
      Holds (precedences + 2) (r p).2 ∧ ∀ lists, Steps S lists p lists (r p).2 :=
    fun hk hr => hr p hp hk hlen hleads
  have hne : ∀ {k : TokenKind}, k.closes = false → ∀ L, frontKind L = k → frontKind L ≠ .eof :=
    fun hk L hL => hL ▸ ne_eof_of_closes hk
  -- each kind of token at the front has its node, and all of them have the expression in the scope as target
  rw [postfixRound, peek_bind_apply hp]
  generalize hk : front S p = k
  split
  · exact hround hk (.seq (.argumentListOf (fun _ => id) h.goes) (henclose (.inl rfl)))
  · exact hround hk (.bump_seq (hne rfl) (.seq (.expect (by decide)) (henclose (.inr (.inl rfl)))))
  · exact hround hk (.bump_seq (hne rfl) (.seq (.of_operand h) (.seq (.expect (by decide))
      (henclose (.inr (.inr (.inl rfl)))))))
  · exact hround hk (.bump_seq (hne rfl) (henclose (.inr (.inr (.inr rfl)))))
  · exact hround hk (.bump_seq (hne rfl) (henclose (.inr (.inr (.inr rfl)))))
  · exact ⟨hholds, fun _ => .refl⟩

theorem Operand.postfixed : Operand S n pre (precedences + 2) (Parse.postfixed i) := by
  refine .scope fun p hp hP hlen hnil => ?_
  obtain ⟨⟨g, hout, hg⟩, hsteps⟩ := Operand.primary h p hp hP hlen
  have hk := (hsteps []).kept hp
  let I : Parser σ → Prop := fun q => Ready S q ∧ (S.upcoming q.source).length ≤ n ∧ Holds (precedences + 2) q ∧
    ∀ lists, Steps S lists p lists q
  have hround : ∀ q, I q → I (postfixRound i q).2 := by
    rintro q ⟨hq, hlenq, hholds, hstepsq⟩
    obtain ⟨hholds', hsteps'⟩ := holds_postfixRound h hq hlenq hholds
    have hkq := (hsteps' []).kept hq
    exact ⟨hkq.ready, hkq.length_le.trans hlenq, hholds', fun lists => (hstepsq lists).trans (hsteps' lists)⟩
  have hstart : I (Parse.primary i p).2 :=
    ⟨hk.ready, hk.length_le.trans hlen, ⟨g, by rw [hout, hnil, List.nil_append], hg⟩, hsteps⟩
  exact (loop_keeps hround hstart).2.2

/-- Prefix operators are tighter than any binary one. -/
theorem Operand.prefixed : Operand S n pre (precedences + 1) (Parse.prefixed i) := by
  refine .fix fun j hj a ha => .peek_bind fun k => .ite (fun hk => ?_) fun _ => ?_
  · refine .scope fun p hp hP hlen hnil => ?_
    have hfront : front S p = k := hP.2
    have hne : front S p ≠ .eof := hfront ▸ ne_eof_of_closes (closes_of_isPrefix hk)
    obtain ⟨hready, hlength, t, ht, hkind⟩ := bump_spec hp hne
    -- the recursive call gives an operand that is as tight as a prefix expression
    obtain ⟨⟨g, hout, hgkind, hg⟩, hsteps⟩ := ha (bump p).2 hready trivial (by omega)
    rw [ht, hnil] at hout
    have hgrouped : Grouped .prefixExpr (a (bump p).2).2.out := ⟨t, g, hout, by rw [hkind, hfront, hk], hg⟩
    refine ⟨⟨_, rfl, rfl, le_rfl⟩, fun lists => (Steps.bump hne).trans ((hsteps lists).trans ?_)⟩
    exact Steps.enclose_special rfl (by decide) (fun hk => absurd hk (by decide)) hgrouped lists
  · refine (Operand.postfixed (h.mono (fun _ => id) (by omega) le_rfl)).mono (fun _ _ => trivial) le_rfl (by omega)

end Productions

/-! ## Chains of operators -/

variable (S) in
/-- **Linked.** The scope holds an operand that is tight enough for the operator that comes, if one comes. -/
def Linked (least : Nat) (p : Parser σ) : Prop :=
  ∃ g, p.out = [g] ∧ g.nodeKind?.any NodeKind.isExpression = true ∧ least ≤ g.tightness ∧
    ∀ precedence, (front S p).precedence? = some precedence → precedence ≤ g.tightness

variable (S) in
/-- **Chain.** The action emits an operand, and behind it no operator comes that is as tight as `least`. -/
structure Chain (n : Nat) (pre : List Leaf → Prop) (least : Nat) (a : Parse σ Unit) : Prop where
  operand : Operand S n pre least a
  stops : ∀ p, Ready S p → pre (S.upcoming p.source) → (S.upcoming p.source).length ≤ n →
    ∀ precedence, (front S (a p).2).precedence? = some precedence → precedence < least

/-- An operator and its right operand, behind the left one. -/
theorem linked_binaryExpr {least precedence : Nat} {a : Parse σ Unit} (ha : Chain S (n - 1) anything (precedence + 1) a)
    (hleast : least ≤ precedence) {q : Parser σ} (hq : Ready S q) (hlen : (S.upcoming q.source).length ≤ n)
    (hprecedence : (front S q).precedence? = some precedence) (hlinked : Linked S least q) :
    let q' := (enclose .binaryExpr (a (bump q).2).2).2
    Linked S least q' ∧ (∀ lists, Steps S lists q lists q') ∧
      (S.upcoming q'.source).length < (S.upcoming q.source).length := by
  obtain ⟨g, hout, -, -, htight⟩ := hlinked
  have hne : front S q ≠ .eof := ne_eof_of_closes (closes_of_precedence? hprecedence)
  obtain ⟨hready, hlength, t, ht, hkind⟩ := bump_spec hq hne
  have hless : (S.upcoming (bump q).2.source).length ≤ n - 1 := by omega
  obtain ⟨⟨r, hr, -, hright⟩, hsteps⟩ := ha.operand (bump q).2 hready trivial hless
  have hk := (hsteps []).kept hready
  obtain ⟨hfront, hsame⟩ := front_enclose hk.ready .binaryExpr
  have hop : t.leaf.tokenKind.precedence? = some precedence := by rw [hkind, hprecedence]
  have hcs : (a (bump q).2).2.out = [g, .token t, r] := by rw [hr, ht, hout]; rfl
  -- the left operand was tight enough for the operator in front of it, and the right one is tighter by what was asked
  have hgrouped : Grouped .binaryExpr (a (bump q).2).2.out :=
    ⟨g, t, r, precedence, hcs, hop, htight _ hprecedence, hright⟩
  have htight' : (ofChildren (TokenSource.fresh (a (bump q).2).2.source).1 (.node .binaryExpr)
      (a (bump q).2).2.out).tightness = precedence := by rw [hcs, tightness_ofChildren_binaryExpr hop]
  refine ⟨⟨_, rfl, rfl, hleast.trans htight'.ge, fun next hnext => ?_⟩, fun lists => ?_, ?_⟩
  · -- the right operand did not end before a tighter operator, so the one that comes is at most as tight as the node
    rw [htight']
    exact Nat.le_of_lt_succ (ha.stops (bump q).2 hready trivial hless next (hfront ▸ hnext))
  · refine (Steps.bump hne).trans ((hsteps lists).trans ?_)
    exact Steps.enclose_special rfl (by decide) (fun hk => absurd hk (by decide)) hgrouped lists
  · rw [hsame]
    exact hk.length_le.trans_lt (by omega)

/-- A round leaves an operand in the scope that is tight enough for the operator that comes. -/
theorem linked_binaryRound {levels least : Nat}
    (h : ∀ precedence ≤ precedences, least ≤ precedence →
      Chain S (n - 1) anything (precedence + 1) (binary i levels (precedence + 1)))
    {q : Parser σ} (hq : Ready S q) (hlen : (S.upcoming q.source).length ≤ n) (hlinked : Linked S least q) :
    let r := binaryRound i levels least q
    Linked S least r.2 ∧ (∀ lists, Steps S lists q lists r.2) ∧
      (r.1 = false → ∀ precedence, (front S r.2).precedence? = some precedence → precedence < least) ∧
      (r.1 = true → (S.upcoming r.2.source).length < (S.upcoming q.source).length) := by
  rw [binaryRound, peek_bind_apply hq]
  cases hfront : (front S q).precedence? with
  | none =>
    refine ⟨hlinked, fun _ => .refl, fun _ precedence hnext => ?_, nofun⟩
    have hsome : (front S q).precedence? = some precedence := hnext
    rw [hfront] at hsome
    cases hsome
  | some precedence =>
    by_cases hlt : precedence < least
    · simp only [if_pos hlt]
      refine ⟨hlinked, fun _ => .refl, fun _ next hnext => ?_, nofun⟩
      have hsome : (front S q).precedence? = some next := hnext
      rw [hfront, Option.some.injEq] at hsome
      exact hsome ▸ hlt
    · simp only [if_neg hlt]
      have hle : least ≤ precedence := Nat.le_of_not_lt hlt
      obtain ⟨hlinked', hsteps, hless⟩ :=
        linked_binaryExpr (h precedence (TokenKind.precedence?_le hfront) hle) hle hq hlen hfront hlinked
      exact ⟨hlinked', hsteps, nofun, fun _ => hless⟩

/-- **Chains of operators.** Each operand is at least as tight as its operator, and tighter on the right. The right
operand ends where an operator comes that is no tighter, so the next round finds a left operand that is tight enough. -/
theorem Chain.binary (levels : Nat) : ∀ {least n : Nat} {pre : List Leaf → Prop}, precedences < levels + least →
    least ≤ precedences + 1 → Operand S (n - 1) anything 0 i → Chain S n pre least (Parse.binary i levels least) := by
  induction levels with
  | zero =>
    -- no operator is as tight as the operands have to be
    intro least n pre hlevels hleast h
    refine ⟨(Operand.prefixed h).mono (fun _ => id) le_rfl hleast, fun p _ _ _ precedence hprecedence => ?_⟩
    exact (TokenKind.precedence?_le hprecedence).trans_lt (by omega)
  | succ levels ih =>
    intro least n pre hlevels hleast h
    -- right operands are chains of tighter operators, so they are a level further down
    have hchain : ∀ precedence ≤ precedences, least ≤ precedence →
        Chain S (n - 1) anything (precedence + 1) (Parse.binary i levels (precedence + 1)) :=
      fun precedence hle hlow => ih (by omega) (by omega) (h.mono (fun _ => id) (Nat.sub_le _ _) le_rfl)
    have hrun : ∀ p, Ready S p → pre (S.upcoming p.source) → (S.upcoming p.source).length ≤ n → p.out = [] →
        let q := (loop (binaryRound i levels least) (Parse.prefixed i p).2).2
        (Linked S least q ∧ ∀ lists, Steps S lists p lists q) ∧
          ∀ precedence, (front S q).precedence? = some precedence → precedence < least := by
      intro p hp hP hlen hnil
      obtain ⟨⟨g, hout, hkind, hg⟩, hsteps⟩ := Operand.prefixed h p hp hP hlen
      have hk := (hsteps []).kept hp
      -- every round leaves a left operand for the next one, and the last one sees why no round follows
      let I : Parser σ → Prop := fun q => Linked S least q ∧ ∀ lists, Steps S lists p lists q
      have hstart : I (Parse.prefixed i p).2 := by
        have hout : (Parse.prefixed i p).2.out = [g] := by rw [hout, hnil, List.nil_append]
        refine ⟨⟨g, hout, hkind, hleast.trans hg, fun precedence hprecedence => ?_⟩, hsteps⟩
        exact (TokenKind.precedence?_le hprecedence).trans (by omega)
      let Q : Parser σ → Prop := fun q =>
        I q ∧ ∀ precedence, (front S q).precedence? = some precedence → precedence < least
      refine loop_ends (S := S) (I := I) (Q := Q) (fun q hq hI => ?_) hk.ready hstart
      have hlenq : (S.upcoming q.source).length ≤ n := ((hI.2 []).kept hp).length_le.trans hlen
      obtain ⟨hlinked, hsteps', hstop, hless⟩ := linked_binaryRound hchain hq hlenq hI.1
      have hI' : I (binaryRound i levels least q).2 :=
        ⟨hlinked, fun lists => (hI.2 lists).trans (hsteps' lists)⟩
      exact ⟨(hsteps' []).kept hq, hI', fun hfalse => ⟨hI', hstop hfalse⟩, hless⟩
    rw [binary_succ]
    refine ⟨.scope fun p hp hP hlen hnil => ?_, fun p hp hP hlen => ?_⟩
    · obtain ⟨⟨⟨g, hout, hkind, hg, -⟩, hsteps⟩, -⟩ := hrun p hp hP hlen hnil
      exact ⟨⟨g, hout, hkind, hg⟩, hsteps⟩
    · exact (hrun { p with out := [] } ⟨hp.ok, hp.version⟩ hP hlen rfl).2

/-! ## Whole expressions -/

theorem Operand.assignment (h : Operand S (n - 1) anything 0 i) : Operand S n pre 0 (Parse.assignment i) := by
  refine .scope fun p hp hP hlen hnil => ?_
  have hchain : Chain S n pre 1 (binary i precedences 1) := .binary precedences (Nat.lt_succ_self _) (by decide) h
  obtain ⟨⟨g, hout, hkind, hg⟩, hsteps⟩ := hchain.operand p hp hP hlen
  rw [hnil, List.nil_append] at hout
  have hk := (hsteps []).kept hp
  let rest : Parse σ Unit := do if (← peek).isAssignment then bump; i; enclose .assignExpr
  have hrest : ∀ q, Ready S q → q.out = [g] → (S.upcoming q.source).length ≤ n →
      Holds 0 (rest q).2 ∧ ∀ lists, Steps S lists q lists (rest q).2 := by
    intro q hq hcs hlenq
    dsimp only [rest]
    rw [peek_bind_apply hq]
    split
    · next hassign =>
      have hne : front S q ≠ .eof := ne_eof_of_closes (closes_of_isAssignment hassign)
      obtain ⟨hready, hlength, t, ht, htkind⟩ := bump_spec hq hne
      obtain ⟨⟨r, hr, -⟩, hstepsr⟩ := h (bump q).2 hready trivial (by omega)
      rw [ht, hcs] at hr
      have hgrouped : Grouped .assignExpr (i (bump q).2).2.out := ⟨g, t, r, hr, by rw [htkind, hassign], hg⟩
      refine ⟨⟨_, rfl, rfl, Nat.zero_le _⟩, fun lists => (Steps.bump hne).trans ((hstepsr lists).trans ?_)⟩
      exact Steps.enclose_special rfl (by decide) (fun hk => absurd hk (by decide)) hgrouped lists
    · exact ⟨⟨g, hcs, hkind, Nat.zero_le _⟩, fun _ => .refl⟩
  obtain ⟨hholds, hsteps'⟩ := hrest _ hk.ready hout (hk.length_le.trans hlen)
  exact ⟨hholds, fun lists => (hsteps lists).trans (hsteps' lists)⟩

/-- Whatever comes, an expression is one node. -/
theorem Operand.expression : Operand S n pre 0 Parse.expression :=
  .fix fun _ _ _ ha => .assignment ha

end Parse

end IncrementalSyntax

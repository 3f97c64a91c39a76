import IncrementalSyntax.Proofs.Grammar.Statements
import IncrementalSyntax.Proofs.Grammar.Taking
import IncrementalSyntax.Proofs.Green.Precedence

/-!
# What the parser is made of

Whatever a production does, it does in steps of a few kinds: a token is taken, a missing one is made up, a node of the
source is used again, tokens are skipped, and what the scope holds becomes a node. A step also knows which lists stand
around the elements of the scope in the finished tree. Tokens are skipped only where these are the lists that the
parser has open, and a node of a list makes its list one that stands around its children.

What every step preserves is preserved by every production, so the productions have to be gone through only once. The
rules below follow the ways in which actions are put together.

## Main definitions

* `NodeKind.list?`: the list that a node is made of
* `Parse.Steps`: steps from one state of the parser to another
* `Parse.Goes`, `Parse.Ends`: actions that are made of steps

## Main results

* `Parse.Steps.kept`: what every production keeps is kept by steps
* `Parse.Goes.bind`, `Parse.Goes.node`, `Parse.Goes.fix_of_step`, `Parse.Goes.loop`: the rules
* `Parse.Ends.scope`: a node that is closed long after its first child
-/

namespace IncrementalSyntax

/-- The list whose elements are the children of a node. -/
def NodeKind.list? : NodeKind → Option ListContext
  | .compilationUnit => some .compilationUnit
  | .namespaceDecl => some .namespaceBody
  | .classDecl | .structDecl | .interfaceDecl | .recordDecl => some .typeBody
  | .block => some .block
  | _ => none

/-- The nodes that can be made of anything: no skipped tokens, no incomplete member, no conditional and no operator with
its operands. -/
def NodeKind.isOrdinary : NodeKind → Bool
  | .skippedTokens | .incompleteMember | .ifStmt | .assignExpr | .binaryExpr | .prefixExpr | .postfixExpr | .callExpr
  | .memberAccessExpr | .indexExpr => false
  | _ => true

theorem NodeKind.isOrdinary_of_list? {kind : NodeKind} {context : ListContext} (h : kind.list? = some context) :
    kind.isOrdinary = true := by
  cases kind <;> first | rfl | cases h

namespace Parse

open Green hiding id

variable {version : LanguageVersion} {σ : Type} [TokenSource σ] (S : Supply version σ)

/-! ## Steps -/

/-- **Steps.** The parser gets from one state to another. In the finished tree the first lists stand around the
elements that the scope holds before, and the second ones around those that it holds behind. -/
inductive Steps : List ListContext → Parser σ → List ListContext → Parser σ → Prop
  | refl {lists : List ListContext} {p : Parser σ} : Steps lists p lists p
  | trans {lists lists' lists'' : List ListContext} {p p' p'' : Parser σ} (h : Steps lists p lists' p')
      (h' : Steps lists' p' lists'' p'') : Steps lists p lists'' p''
  | bump {lists : List ListContext} {p : Parser σ} (h : front S p ≠ .eof) : Steps lists p lists (bump p).2
  | missing {lists : List ListContext} {p : Parser σ} (kind : TokenKind) {code : Code} (hcode : code.isLexical = false) :
      Steps lists p lists (missing kind code p).2
  | reuse {lists : List ListContext} {p : Parser σ} {kinds : NodeKind → Bool} {g : Green} {s : σ}
      (hkinds : ∀ k, kinds k = true → k.isStatement || k.isMember)
      (h : TokenSource.reuse? kinds p.source = some (g, s)) :
      Steps lists p lists { p with source := s, out := p.out ++ [g] }
  | skip {p : Parser σ} : Steps p.contexts p p.contexts (skipToRecovery p).2
  | enclose {lists : List ListContext} {p : Parser σ} {kind : NodeKind} (hskipped : kind ≠ .skippedTokens)
      (hif : kind = .ifStmt → (p.out.getLast?.bind nodeKind?) = some .elseClause ∨ front S p ≠ .keyword .elseKw)
      (hgrouped : Grouped kind p.out) : Steps (kind.list?.toList ++ lists) p lists (enclose kind p).2
  | scope {lists lists' : List ListContext} {p p' : Parser σ} (h : Steps lists { p with out := [] } lists' p') :
      Steps lists' p lists' { p' with out := p.out ++ p'.out }
  | within {lists lists' : List ListContext} {p p' : Parser σ} {context : ListContext}
      (h : Steps lists { p with contexts := context :: p.contexts } lists' p') :
      Steps lists p lists' { p' with contexts := p.contexts }

variable {S} {p p' : Parser σ} {lists lists' : List ListContext}

/-- Steps keep what every production keeps. -/
theorem Steps.kept (h : Steps S lists p lists' p') (hp : Ready S p) : Kept S p p' := by
  induction h with
  | refl => exact .refl hp
  | trans _ _ ih ih' =>
    have hk := ih hp
    exact hk.trans (ih' hk.ready)
  | bump h => exact .bump hp h
  | missing =>
    rw [missing_apply]
    exact .missing hp (S.fresh hp.ok)
  | reuse hkinds h => exact .reuse hp hkinds h
  | skip => exact ((Meets.skipToRecovery (M := .whole) (n := 0) trivial).keeps _ hp trivial).1
  | enclose _ hif _ => exact .enclose hp (S.fresh hp.ok) hif
  | scope _ ih => exact (ih ⟨hp.ok, hp.version⟩).scope
  | within _ ih => exact (ih ⟨hp.ok, hp.version⟩).within

/-- A node is made of what the scope holds. -/
theorem Steps.enclose_ordinary {kind : NodeKind} (h : kind.isOrdinary = true) :
    Steps S (kind.list?.toList ++ lists) p lists (Parse.enclose kind p).2 := by
  have hskipped : kind ≠ .skippedTokens := by
    rintro rfl
    cases h
  have hif : kind ≠ .ifStmt := by
    rintro rfl
    cases h
  refine .enclose hskipped (fun hk => absurd hk hif) ?_
  cases kind <;> first | exact trivial | cases h

/-- A node that stands around no list. -/
theorem Steps.enclose_special {kind : NodeKind} (hlist : kind.list? = none) (hskipped : kind ≠ .skippedTokens)
    (hif : kind = .ifStmt → (p.out.getLast?.bind nodeKind?) = some .elseClause ∨ front S p ≠ .keyword .elseKw)
    (hgrouped : Grouped kind p.out) (lists : List ListContext) : Steps S lists p lists (Parse.enclose kind p).2 := by
  have h : Steps S (kind.list?.toList ++ lists) p lists (Parse.enclose kind p).2 := .enclose hskipped hif hgrouped
  rwa [hlist] at h

/-! ## Actions -/

/-- The open lists, and those that stand around a scope. -/
abbrev Surroundings := List ListContext → List ListContext → Prop

/-- Any lists may be open, and any may stand around the scope. -/
def Anywhere : Surroundings := fun _ _ => True

/-- The open lists stand around the scope, and perhaps one more inside them. -/
def Around (context : Option ListContext) : Surroundings := fun contexts lists => lists = context.toList ++ contexts

variable (S) in
/-- **Goes.** Where at most `n` tokens are to come, which meet `pre`, the action is made of steps that leave the lists
around the scope as they are. -/
def Goes {α : Type} (around : Surroundings) (n : Nat) (pre : List Leaf → Prop) (a : Parse σ α) : Prop :=
  ∀ p lists, Ready S p → around p.contexts lists → pre (S.upcoming p.source) → (S.upcoming p.source).length ≤ n →
    Steps S lists p lists (a p).2

variable (S) in
/-- **Ends.** The action is made of steps that lead to a scope around which the open lists stand. Before there may be
one more list around it, that of a node which is closed on the way. -/
def Ends (n : Nat) (pre : List Leaf → Prop) (a : Parse σ Unit) : Prop :=
  ∀ p, Ready S p → pre (S.upcoming p.source) → (S.upcoming p.source).length ≤ n →
    ∃ context : Option ListContext, Steps S (context.toList ++ p.contexts) p p.contexts (a p).2

namespace Goes

variable {α β : Type} {around around' : Surroundings} {n : Nat}
variable {pre pre' : List Leaf → Prop} {a : Parse σ α} {f : α → Parse σ β} {i : Parse σ Unit}

/-! ### Actions in a row -/

theorem mono {k : Nat} (h : Goes S around n pre a)
    (haround : ∀ contexts lists, around' contexts lists → around contexts lists)
    (hpre : ∀ L, pre' L → pre L) (hk : k ≤ n) : Goes S around' k pre' a :=
  fun p lists hp ha hP hlen => h p lists hp (haround _ _ ha) (hpre _ hP) (hlen.trans hk)

theorem of_anything (h : Goes S around n anything a) : Goes S around n pre a :=
  h.mono (fun _ _ => id) (fun _ _ => trivial) le_rfl

theorem pure {x : α} : Goes S around n pre (Pure.pure x) := fun _ _ _ _ _ _ => .refl

/-- An action behind another one. -/
theorem bind (h : Goes S around n pre a) (hf : ∀ x, Goes S around n anything (f x)) :
    Goes S around n pre (a >>= f) := by
  intro p lists hp ha hP hlen
  have hsteps := h p lists hp ha hP hlen
  have hk := hsteps.kept hp
  refine hsteps.trans (hf (a p).1 (a p).2 lists hk.ready ?_ trivial (hk.length_le.trans hlen))
  rwa [hk.contexts]

/-- What only looks at the state does not get anywhere. -/
theorem look (ha : ∀ p, (a p).2 = p) (hf : ∀ x, Goes S around n pre (f x)) : Goes S around n pre (a >>= f) := by
  intro p lists hp har hP hlen
  show Steps S lists p lists (f (a p).1 (a p).2).2
  rw [ha]
  exact hf _ p lists hp har hP hlen

theorem peek_bind {f : TokenKind → Parse σ β} (hf : ∀ k, Goes S around n (fun L => pre L ∧ frontKind L = k) (f k)) :
    Goes S around n pre (Parse.peek >>= f) := fun p lists hp har hP hlen =>
  hf _ p lists hp har ⟨hP, S.frontKind_upcoming hp.ok⟩ hlen

theorem isAt_bind {k : TokenKind} {f : Bool → Parse σ β}
    (hf : ∀ b, Goes S around n (fun L => pre L ∧ decide (frontKind L = k) = b) (f b)) :
    Goes S around n pre (Parse.isAt k >>= f) := by
  intro p lists hp har hP hlen
  refine hf _ p lists hp har ⟨hP, ?_⟩ hlen
  rw [S.frontKind_upcoming hp.ok]

theorem ite {c : Prop} [Decidable c] {b : Parse σ α} (ha : c → Goes S around n pre a)
    (hb : ¬ c → Goes S around n pre b) : Goes S around n pre (if c then a else b) := by
  split
  · next h => exact ha h
  · next h => exact hb h

/-! ### Tokens -/

/-- A token is taken, behind which there are fewer to come. -/
theorem bump_then {f : Parse σ α} (hpre : ∀ L, pre L → frontKind L ≠ .eof ∧ pre' L.tail)
    (hf : Goes S around (n - 1) pre' f) : Goes S around n pre (do Parse.bump; f) := by
  intro p lists hp har hP hlen
  obtain ⟨hne, hP'⟩ := hpre _ hP
  obtain ⟨hok, hcons⟩ := S.next_of_ne hp.ok (by rwa [← S.frontKind_upcoming hp.ok])
  have hup : S.upcoming (Parse.bump p).2.source = (S.upcoming p.source).tail := by
    rw [hcons]
    rfl
  refine (Steps.bump hne).trans (hf (Parse.bump p).2 lists ⟨hok, hp.version⟩ har (hup ▸ hP') ?_)
  rw [hup, List.length_tail]
  exact Nat.sub_le_sub_right hlen 1

theorem bump (hpre : ∀ L, pre L → frontKind L ≠ .eof) : Goes S around n pre Parse.bump :=
  fun _ _ _ _ hP _ => .bump (hpre _ hP)

theorem bump_seq {f : Parse σ α} (hpre : ∀ L, pre L → frontKind L ≠ .eof) (hf : Goes S around (n - 1) anything f) :
    Goes S around n pre (do Parse.bump; f) :=
  bump_then (fun L hL => ⟨hpre L hL, trivial⟩) hf

theorem missing {kind : TokenKind} {code : Code} (hcode : code.isLexical = false) :
    Goes S around n pre (Parse.missing kind code) :=
  fun _ _ _ _ _ _ => .missing kind hcode

theorem eat {k : TokenKind} (hk : k ≠ .eof) : Goes S around n pre (Parse.eat k) := by
  refine isAt_bind fun b => ite (fun hb => ?_) fun _ => pure
  exact bump_seq (fun L hL => of_decide_eq_true (hL.2.trans hb) ▸ hk) pure

theorem expect {k : TokenKind} (hk : k ≠ .eof) : Goes S around n pre (Parse.expect k) :=
  bind (eat hk) fun _ => ite (fun _ => pure) fun _ => missing (by split <;> rfl)

/-- A token that is known to come is taken. -/
theorem expect_then {k : TokenKind} {f : Parse σ α} (hk : k ≠ .eof) (hpre : ∀ L, pre L → frontKind L = k)
    (hf : Goes S around (n - 1) anything f) : Goes S around n pre (do Parse.expect k; f) := by
  intro p lists hp har hP hlen
  have hfront : front S p = k := hpre _ hP
  show Steps S lists p lists (f (Parse.expect k p).2).2
  rw [expect_of_eq hp hfront]
  exact bump_seq (fun L hL => hpre L hL ▸ hk) hf p lists hp har hP hlen

/-- Two tokens are taken where they are known to come. -/
theorem pair_bind {k₁ k₂ : TokenKind} {f : Parse σ α} {b : Parse σ α} (h₁ : k₁.closes = false) (h₂ : k₂ ≠ .eof)
    (hf : Goes S around n anything f) (hb : Goes S around n anything b) :
    Goes S around n pre (do if ← Parse.atPair k₁ k₂ then Parse.bump; Parse.bump; f else b) := by
  intro p lists hp har hP hlen
  have hpair : Parse.atPair k₁ k₂ p = (decide (front S p = k₁ ∧ frontKind (S.upcoming p.source).tail = k₂), p) :=
    atPair_apply S hp h₁
  show Steps S lists p lists ((if (Parse.atPair k₁ k₂ p).1 = true then _ else b : Parse σ α) (Parse.atPair k₁ k₂ p).2).2
  rw [hpair]
  split
  · next hboth =>
    rw [decide_eq_true_eq] at hboth
    have hsecond : Goes S around (n - 1) (fun L => frontKind L = k₂) (do Parse.bump; f) :=
      bump_seq (fun L hL => hL ▸ h₂) (hf.mono (fun _ _ => id) (fun _ => id) ((Nat.sub_le _ _).trans (Nat.sub_le _ _)))
    have hboth' : Goes S around n (fun L => L = S.upcoming p.source) (do Parse.bump; Parse.bump; f) :=
      bump_then (fun L hL => hL ▸ ⟨(ne_of_eq_of_ne hboth.1 (ne_eof_of_closes h₁)), hboth.2⟩) hsecond
    exact hboth' p lists hp har rfl hlen
  · exact hb p lists hp har trivial hlen

/-! ### Nodes -/

theorem enclose {kind : NodeKind} (hordinary : kind.isOrdinary = true) (hlist : kind.list? = none) :
    Goes S around n pre (Parse.enclose kind) := by
  intro p lists _ _ _ _
  have h : Steps S (kind.list?.toList ++ lists) p lists (Parse.enclose kind p).2 := Steps.enclose_ordinary hordinary
  rwa [hlist] at h

theorem scope (h : Goes S around n pre a) : Goes S around n pre (Parse.scope a) := fun p lists hp har hP hlen =>
  .scope (h { p with out := [] } lists ⟨hp.ok, hp.version⟩ har hP hlen)

/-- A node over what an action emits. -/
theorem node {kind : NodeKind} (hordinary : kind.isOrdinary = true) (hlist : kind.list? = none)
    (h : Goes S around n pre i) : Goes S around n pre (Parse.node kind i) :=
  scope (bind h fun _ => enclose hordinary hlist)

/-- Tokens are skipped where the open lists are those that stand around the scope. -/
theorem skipToRecovery : Goes S (Around none) n pre Parse.skipToRecovery := by
  rintro p lists _ rfl _ _
  exact .skip

theorem within {context : ListContext} (h : Goes S (Around none) n pre i) :
    Goes S (Around (some context)) n pre (Parse.within context i) := by
  rintro p lists hp rfl hP hlen
  exact .within (h { p with contexts := context :: p.contexts } _ ⟨hp.ok, hp.version⟩ rfl hP hlen)

/-- A node that the source offers takes the place of a statement or a member. -/
theorem reuseOr {kinds : NodeKind → Bool} (hkinds : ∀ k, kinds k = true → k.isStatement || k.isMember)
    (h : Goes S around n pre i) : Goes S around n pre (Parse.reuseOr kinds i) := by
  intro p lists hp har hP hlen
  rw [Parse.reuseOr]
  split
  · next g s hreuse => exact .reuse hkinds hreuse
  · exact h p lists hp har hP hlen

/-! ### Recursion -/

/-- Recursion in which every call comes behind a token. -/
theorem fixUpTo {F : Parse σ Unit → Parse σ Unit}
    (h : ∀ j ≤ n, ∀ i, Goes S around (j - 1) anything i → Goes S around j anything (F i)) (depth : Nat) :
    ∀ j ≤ n, j ≤ depth → Goes S around j anything (Parse.fixUpTo F depth) := by
  induction depth with
  | zero => exact fun _ _ _ _ _ _ _ _ _ => .refl
  | succ depth ih => exact fun j hj hdepth => h j hj _ (ih (j - 1) ((Nat.sub_le _ _).trans hj) (by omega))

/-- Recursion in which nothing depends on the number of tokens to come. -/
theorem iterate {F : Parse σ Unit → Parse σ Unit}
    (h : ∀ i, Goes S around n anything i → Goes S around n anything (F i)) (depth : Nat) :
    Goes S around n anything (Parse.fixUpTo F depth) := by
  induction depth with
  | zero => exact fun _ _ _ _ _ _ => .refl
  | succ depth ih => exact h _ ih

theorem fix_of_step {F : Parse σ Unit → Parse σ Unit}
    (h : ∀ i, Goes S around n anything i → Goes S around n anything (F i)) : Goes S around n pre (Parse.fix F) :=
  fun p lists hp har _ hlen => iterate h _ p lists hp har trivial hlen

theorem loop {r : Parse σ Bool} (h : Goes S around n anything r) : Goes S around n pre (Parse.loop r) :=
  fix_of_step fun _ hi => bind h fun _ => ite (fun _ => hi) fun _ => pure

end Goes

namespace Ends

variable {n : Nat} {pre : List Leaf → Prop} {a f : Parse σ Unit}

/-- What stands in front of the list of a node is made before it is known which node it will be. -/
theorem seq {α : Type} {a : Parse σ α} {f : α → Parse σ Unit} (h : Goes S Anywhere n pre a)
    (hf : ∀ x, Ends S n anything (f x)) : Ends S n pre (a >>= f) := by
  intro p hp hP hlen
  have hk := (h p [] hp trivial hP hlen).kept hp
  -- the list turns out behind `a`, which may as well have stood inside it
  obtain ⟨context, hsteps⟩ := hf (a p).1 (a p).2 hk.ready trivial (hk.length_le.trans hlen)
  rw [hk.contexts] at hsteps
  exact ⟨context, (h p _ hp trivial hP hlen).trans hsteps⟩

/-- The node around the list is closed. -/
theorem enclose {kind : NodeKind} (hordinary : kind.isOrdinary = true) (h : Goes S (Around kind.list?) n pre a) :
    Ends S n pre (do a; Parse.enclose kind) := by
  intro p hp hP hlen
  have hsteps := h p _ hp rfl hP hlen
  exact ⟨kind.list?, hsteps.trans (.enclose_ordinary hordinary)⟩

theorem peek_bind {f : TokenKind → Parse σ Unit} (hf : ∀ k, Ends S n (fun L => pre L ∧ frontKind L = k) (f k)) :
    Ends S n pre (Parse.peek >>= f) := fun p hp hP hlen =>
  hf _ p hp ⟨hP, S.frontKind_upcoming hp.ok⟩ hlen

theorem isAt_bind {k : TokenKind} {f : Bool → Parse σ Unit}
    (hf : ∀ b, Ends S n (fun L => pre L ∧ decide (frontKind L = k) = b) (f b)) :
    Ends S n pre (Parse.isAt k >>= f) := by
  intro p hp hP hlen
  refine hf _ p hp ⟨hP, ?_⟩ hlen
  rw [S.frontKind_upcoming hp.ok]

/-- What only looks at the state does not get anywhere. -/
theorem look {α : Type} {a : Parse σ α} {f : α → Parse σ Unit} (ha : ∀ p, (a p).2 = p)
    (hf : ∀ x, Ends S n pre (f x)) : Ends S n pre (a >>= f) := by
  intro p hp hP hlen
  show ∃ context : Option ListContext, Steps S (context.toList ++ p.contexts) p p.contexts (f (a p).1 (a p).2).2
  rw [ha]
  exact hf _ p hp hP hlen

theorem ite {c : Prop} [Decidable c] {b : Parse σ Unit} (ha : c → Ends S n pre a) (hb : ¬ c → Ends S n pre b) :
    Ends S n pre (if c then a else b) := by
  split
  · next h => exact ha h
  · next h => exact hb h

theorem scope (h : Ends S n pre a) : Goes S (Around none) n pre (Parse.scope a) := by
  rintro p lists hp rfl hP hlen
  obtain ⟨context, hsteps⟩ := h { p with out := [] } ⟨hp.ok, hp.version⟩ hP hlen
  exact .scope hsteps

end Ends

/-- A node over a list. -/
theorem Goes.list {kind : NodeKind} {context : ListContext} {n : Nat} {pre : List Leaf → Prop} {i : Parse σ Unit}
    (hlist : kind.list? = some context) (h : Goes S (Around (some context)) n pre i) :
    Goes S (Around none) n pre (Parse.node kind i) :=
  Ends.scope (.enclose (NodeKind.isOrdinary_of_list? hlist) (hlist ▸ h))

end Parse

end IncrementalSyntax

import IncrementalSyntax.Proofs.Grammar.Lookahead
import IncrementalSyntax.Proofs.Grammar.Yield

/-!
# Types passed over and types read

Two actions go over a type. One passes over it and emits nothing, to see what comes behind; the other one emits a node
for it. Each has loops of its own, over the segments of a name and over pairs of brackets, and in front of every round
it looks two tokens ahead. What decides how many rounds there are is the same for both: as many pairs of the right
tokens as come one behind the other. So from one state both take the same tokens, whatever supply these come from.

## Main definitions

* `Parse.Course`: what an action does with given tokens to come
* `Parse.Pairs`, `Parse.AtPair`: pairs of tokens in a row, and whether there is one more
* `Parse.TypeAhead`: the tokens of a type, and what is behind it
* `Parse.Foreseen`: what passing over a type says about reading one

## Main results

* `Parse.Course.pairs`: a loop over pairs
* `Parse.Course.skipType`, `Parse.Course.type`: the two ways over a type
* `Parse.foreseen`: they agree
-/

namespace IncrementalSyntax

namespace Parse

open Green hiding id
open Shape (leaf branch)

/-! ## Tokens in front -/

/-- A token of one kind comes and one of another kind behind it. -/
abbrev AtPair (k₁ k₂ : TokenKind) (L : List Leaf) : Prop := frontKind L = k₁ ∧ frontKind L.tail = k₂

/-- **Pairs.** Tokens in a row that are alternately of two kinds. -/
inductive Pairs (k₁ k₂ : TokenKind) : List Leaf → Prop
  | nil : Pairs k₁ k₂ []
  | cons {a b : Leaf} {w : List Leaf} (ha : a.tokenKind = k₁) (hb : b.tokenKind = k₂) (h : Pairs k₁ k₂ w) :
      Pairs k₁ k₂ (a :: b :: w)

/-- Any tokens begin with as many pairs as there are. -/
theorem exists_pairs (k₁ k₂ : TokenKind) (h₁ : k₁ ≠ .eof) (h₂ : k₂ ≠ .eof) :
    ∀ L, ∃ w L', L = w ++ L' ∧ Pairs k₁ k₂ w ∧ ¬ AtPair k₁ k₂ L'
  | [] => ⟨[], [], rfl, .nil, fun h => h₁ h.1.symm⟩
  | [a] => ⟨[], [a], rfl, .nil, fun h => h₂ h.2.symm⟩
  | a :: b :: L => by
    by_cases hpair : a.tokenKind = k₁ ∧ b.tokenKind = k₂
    · obtain ⟨w, L', hL, hw, hbehind⟩ := exists_pairs k₁ k₂ h₁ h₂ L
      exact ⟨a :: b :: w, L', by rw [hL]; rfl, .cons hpair.1 hpair.2 hw, hbehind⟩
    · exact ⟨[], a :: b :: L, rfl, .nil, hpair⟩

/-- All pairs in a row can be had in one way only. -/
theorem Pairs.unique {k₁ k₂ : TokenKind} {v v' L L' : List Leaf} (hv : Pairs k₁ k₂ v) (hv' : Pairs k₁ k₂ v')
    (hL : ¬ AtPair k₁ k₂ L) (hL' : ¬ AtPair k₁ k₂ L') (h : v ++ L = v' ++ L') : v = v' ∧ L = L' := by
  induction hv generalizing v' with
  | nil =>
    cases hv' with
    | nil => exact ⟨rfl, h⟩
    | cons ha hb _ =>
      obtain rfl : L = _ := h
      exact absurd ⟨ha, hb⟩ hL
  | @cons a b w ha hb _ ih =>
    cases hv' with
    | nil =>
      obtain rfl : _ = L' := h
      exact absurd ⟨ha, hb⟩ hL'
    | cons _ _ hw' =>
      simp only [List.cons_append, List.cons.injEq] at h
      obtain ⟨rfl, rfl, h⟩ := h
      obtain ⟨rfl, rfl⟩ := ih hw' h
      exact ⟨rfl, rfl⟩

theorem pairs_iff {k₁ k₂ : TokenKind} {w : List Leaf} :
    Pairs k₁ k₂ w ↔ ∃ n, w.map Leaf.tokenKind = (List.replicate n [k₁, k₂]).flatten := by
  constructor
  · intro h
    induction h with
    | nil => exact ⟨0, rfl⟩
    | cons ha hb _ ih =>
      obtain ⟨n, hn⟩ := ih
      exact ⟨n + 1, by simp [List.replicate_succ, ha, hb, hn]⟩
  · rintro ⟨n, hn⟩
    induction n generalizing w with
    | zero =>
      obtain rfl : w = [] := by simpa using hn
      exact .nil
    | succ n ih =>
      match w, hn with
      | [], hn | [_], hn => simp [List.replicate_succ] at hn
      | a :: b :: w, hn =>
        simp only [List.map_cons, List.replicate_succ, List.flatten_cons, List.cons_append, List.nil_append,
          List.cons.injEq] at hn
        exact .cons hn.1 hn.2.1 (ih hn.2.2)

/-- The pairs of brackets in a row, and the segments of a name behind its first identifier. -/
abbrev Brackets : List Leaf → Prop := Pairs (.punct .lBracket) (.punct .rBracket)

/-- The segments of a name behind its first identifier: points with identifiers behind them. -/
abbrev Segments : List Leaf → Prop := Pairs (.punct .dot) .ident

/-- **Type ahead.** The tokens `w` are a type, and it does not go on with `L`, which comes behind. -/
inductive TypeAhead : List Leaf → List Leaf → Prop
  | builtin {l : Leaf} {b : Builtin} {w L : List Leaf} (hl : l.tokenKind = .builtin b) (hw : Brackets w)
      (hL : ¬ AtPair (.punct .lBracket) (.punct .rBracket) L) : TypeAhead (l :: w) L
  | named {l : Leaf} {v w L : List Leaf} (hl : l.tokenKind = .ident) (hv : Segments v)
      (hvL : ¬ AtPair (.punct .dot) .ident (w ++ L)) (hw : Brackets w)
      (hL : ¬ AtPair (.punct .lBracket) (.punct .rBracket) L) : TypeAhead (l :: (v ++ w)) L

/-- Where a type begins there is one. -/
theorem exists_typeAhead {L : List Leaf} (h : (frontKind L).startsType = true) :
    ∃ w L', L = w ++ L' ∧ TypeAhead w L' := by
  cases L with
  | nil => cases h
  | cons l L =>
    rw [frontKind_cons] at h
    by_cases hbuiltin : ∃ b, l.tokenKind = .builtin b
    · obtain ⟨b, hl⟩ := hbuiltin
      obtain ⟨w, L', rfl, hw, hL⟩ :=
        exists_pairs (.punct .lBracket) (.punct .rBracket) (by decide) (by decide) L
      exact ⟨l :: w, L', rfl, .builtin hl hw hL⟩
    · have hl : l.tokenKind = .ident := by
        cases hk : l.tokenKind <;> simp_all [TokenKind.startsType]
      obtain ⟨v, L₁, rfl, hv, hL₁⟩ := exists_pairs (.punct .dot) .ident (by decide) (by decide) L
      obtain ⟨w, L', rfl, hw, hL⟩ :=
        exists_pairs (.punct .lBracket) (.punct .rBracket) (by decide) (by decide) L₁
      exact ⟨l :: (v ++ w), L', by simp, .named hl hv hL₁ hw hL⟩

/-! ## Courses -/

variable {version : LanguageVersion} {σ : Type} [TokenSource σ]

/-- One round of a loop over pairs of tokens: it goes on if there is one more. -/
def overPair (k₁ k₂ : TokenKind) (r : Parse σ Unit) : Parse σ Bool := do
  if ← atPair k₁ k₂ then
    r
    return true
  else return false

/-- **Course.** With the leaves `L` to come and trees `o` emitted in the scope so far, the action gives `a` and leaves
the leaves `L'` and the trees `o'`. It changes nothing else, and `I` holds of the source as before. -/
def Course {α : Type} (S : Supply version σ) (I : σ → Prop) (m : Parse σ α) (L : List Leaf) (o : List Shape) (a : α)
    (L' : List Leaf) (o' : List Shape) : Prop :=
  ∀ p, Ready S p → I p.source → S.upcoming p.source = L → p.out.map shape = o →
    ∃ s out, m p = (a, { p with source := s, out := out }) ∧ S.Ok s ∧ I s ∧ S.upcoming s = L' ∧ out.map shape = o'

/-- A property of the source that lasts when a token is taken, unless it is the one that ends the text. -/
def Lasting (S : Supply version σ) (I : σ → Prop) : Prop :=
  ∀ {s}, S.Ok s → (TokenSource.next s).1.leaf.tokenKind ≠ .eof → I s → I (TokenSource.next s).2

namespace Course

variable {S : Supply version σ} {I : σ → Prop} {α β : Type} {m : Parse σ α} {f : α → Parse σ β}
variable {L L' L₁ : List Leaf} {o o' o₁ : List Shape} {a : α} {b : β} {l : Leaf} {k₁ k₂ : TokenKind}

theorem pure : Course S I (Pure.pure a) L o a L o := fun p hp hI hL ho => ⟨p.source, p.out, rfl, hp.ok, hI, hL, ho⟩

theorem bind (h : Course S I m L o a L₁ o₁) (h' : Course S I (f a) L₁ o₁ b L' o') :
    Course S I (m >>= f) L o b L' o' := by
  intro p hp hI hL ho
  obtain ⟨s, out, hm, hs, hI', hup, hout⟩ := h p hp hI hL ho
  obtain ⟨s', out', hf, hrest⟩ := h' { p with source := s, out := out } ⟨hs, hp.version⟩ hI' hup hout
  refine ⟨s', out', ?_, hrest⟩
  show f (m p).1 (m p).2 = _
  rw [hm]
  exact hf

theorem ite_pos {c : Prop} [Decidable c] {n : Parse σ α} (hc : c) (h : Course S I m L o a L' o') :
    Course S I (if c then m else n) L o a L' o' := by
  rwa [if_pos hc]

theorem ite_neg {c : Prop} [Decidable c] {n : Parse σ α} (hc : ¬ c) (h : Course S I m L o a L' o') :
    Course S I (if c then n else m) L o a L' o' := by
  rwa [if_neg hc]

theorem peek_bind {f : TokenKind → Parse σ β} (h : Course S I (f (frontKind L)) L o b L' o') :
    Course S I (peek >>= f) L o b L' o' := by
  intro p hp hI hL ho
  have hkind : (TokenSource.next p.source).1.leaf.tokenKind = frontKind L := hL ▸ (S.frontKind_upcoming hp.ok).symm
  show ∃ s out, f (TokenSource.next p.source).1.leaf.tokenKind p = _ ∧ _
  rw [hkind]
  exact h p hp hI hL ho

theorem atPair (h : k₁.closes = false) : Course S I (atPair k₁ k₂) L o (decide (AtPair k₁ k₂ L)) L o := by
  intro p hp hI hL ho
  exact ⟨p.source, p.out, by rw [atPair_apply S hp h, hL], hp.ok, hI, hL, ho⟩

/-- The source behind the token at the front. -/
theorem next_eq (hlasting : Lasting S I) {s : σ} (hs : S.Ok s) (hI : I s) (hL : S.upcoming s = l :: L)
    (hl : l.tokenKind ≠ .eof) :
    (TokenSource.next s).1.leaf = l ∧ S.Ok (TokenSource.next s).2 ∧ I (TokenSource.next s).2 ∧
      S.upcoming (TokenSource.next s).2 = L := by
  have hkind : (TokenSource.next s).1.leaf.tokenKind ≠ .eof := by
    rwa [← S.frontKind_upcoming hs, hL, frontKind_cons]
  obtain ⟨hok, hcons⟩ := S.next_of_ne hs hkind
  obtain ⟨hleaf, hrest⟩ := List.cons.inj (hcons.symm.trans hL)
  exact ⟨hleaf, hok, hlasting hs hkind hI, hrest⟩

section Taking

variable (hlasting : Lasting S I)
include hlasting

theorem bump (hl : l.tokenKind ≠ .eof) : Course S I bump (l :: L) o () L (o ++ [leaf l]) := by
  intro p hp hI hL ho
  obtain ⟨hleaf, hok, hI', hup⟩ := next_eq hlasting hp.ok hI hL hl
  exact ⟨_, _, bump_apply p, hok, hI', hup, by simp [shape, ho, hleaf]⟩

theorem skip (hl : l.tokenKind ≠ .eof) : Course S I skip (l :: L) o () L o := by
  refine peek_bind ?_
  rw [frontKind_cons, if_neg hl]
  intro p hp hI hL ho
  obtain ⟨-, hok, hI', hup⟩ := next_eq hlasting hp.ok hI hL hl
  exact ⟨_, _, rfl, hok, hI', hup, ho⟩

end Taking

theorem scope (h : Course S I m L [] a L' o') : Course S I (scope m) L o a L' (o ++ o') := by
  intro p hp hI hL ho
  obtain ⟨s, out, hm, hs, hI', hup, hout⟩ := h { p with out := [] } ⟨hp.ok, hp.version⟩ hI hL rfl
  refine ⟨s, p.out ++ out, ?_, hs, hI', hup, by rw [List.map_append, ho, hout]⟩
  show ((m { p with out := [] }).1, { (m { p with out := [] }).2 with
    out := p.out ++ (m { p with out := [] }).2.out }) = _
  rw [hm]

section Enclosing

variable (hfresh : ∀ {s}, S.Ok s → I s → I (TokenSource.fresh s).2)
include hfresh

theorem enclose {kind : NodeKind} : Course S I (enclose kind) L o () L [branch kind o] := by
  intro p hp hI hL ho
  obtain ⟨hok, hup⟩ := S.fresh hp.ok
  exact ⟨_, _, enclose_apply kind p, hok, hfresh hp.ok hI, hup.trans hL, by simp [ofChildren, shape, branch, ho]⟩

theorem node {kind : NodeKind} {m : Parse σ Unit} (h : Course S I m L [] () L' o') :
    Course S I (node kind m) L o () L' (o ++ [branch kind o']) :=
  scope (bind h (enclose hfresh))

end Enclosing

/-! ## Loops over pairs -/

/-- What stands in the scope after a loop over pairs, if one round makes `F o a b` of `o`. -/
def grown (F : List Shape → Leaf → Leaf → List Shape) (o : List Shape) : List Leaf → List Shape
  | a :: b :: w => grown F (F o a b) w
  | _ => o

/-- The token that ends the text is always to come. -/
theorem of_nil (hL : L = []) : Course S I m L o a L' o' := fun _ hp _ hup _ =>
  absurd (hup.trans hL) (S.upcoming_ne_nil hp.ok)

theorem overPair {r : Parse σ Unit} {x y : Leaf} (h₁ : k₁.closes = false) (hx : x.tokenKind = k₁)
    (hy : y.tokenKind = k₂) (h : Course S I r (x :: y :: L) o () L' o') :
    Course S I (overPair k₁ k₂ r) (x :: y :: L) o true L' o' :=
  bind (atPair h₁) (ite_pos (by simp [hx, hy]) (bind h pure))

theorem overPair_of_not {r : Parse σ Unit} (h₁ : k₁.closes = false) (hL : ¬ AtPair k₁ k₂ L) :
    Course S I (Parse.overPair k₁ k₂ r) L o false L o :=
  bind (atPair h₁) (ite_neg (by simpa using hL) pure)

/-- What holds of some tokens and trees and is kept by a round holds behind the loop. -/
theorem grown_spec {F : List Shape → Leaf → Leaf → List Shape} {Y : List Leaf → List Shape → Prop} {v w : List Leaf}
    (hround : ∀ {v o a b}, a.tokenKind = k₁ → b.tokenKind = k₂ → Y v o → Y (v ++ [a, b]) (F o a b))
    (hw : Pairs k₁ k₂ w) (hv : Y v o) : Y (v ++ w) (grown F o w) := by
  induction hw generalizing v o with
  | nil => rwa [List.append_nil]
  | @cons a b w ha hb _ ih =>
    rw [show v ++ a :: b :: w = v ++ [a, b] ++ w by simp]
    exact ih (hround ha hb hv)

/-- **A loop over pairs** takes all pairs that come in a row, if its r takes two tokens. -/
theorem pairs {r : Parse σ Unit} {F : List Shape → Leaf → Leaf → List Shape} {w : List Leaf}
    (h₁ : k₁.closes = false)
    (hbody : ∀ {a b L o}, a.tokenKind = k₁ → b.tokenKind = k₂ → Course S I r (a :: b :: L) o () L (F o a b))
    (hw : Pairs k₁ k₂ w) (hL : ¬ AtPair k₁ k₂ L) :
    Course S I (loop (Parse.overPair k₁ k₂ r)) (w ++ L) o () L (grown F o w) := by
  -- the depth is never used up, for each round takes tokens
  have hupTo : ∀ d, (w ++ L).length ≤ d →
      Course S I (fixUpTo (fun again => do if ← Parse.overPair k₁ k₂ r then again) d) (w ++ L) o () L
        (grown F o w) := by
    induction hw generalizing o with
    | nil =>
      intro d hd
      cases d with
      | zero => exact of_nil (List.length_eq_zero_iff.1 (Nat.le_zero.1 hd))
      | succ d => exact bind (overPair_of_not h₁ hL) (ite_neg (by decide) pure)
    | @cons a b w ha hb hw ih =>
      intro d hd
      cases d with
      | zero => cases hd
      | succ d =>
        refine bind (overPair h₁ ha hb (hbody ha hb)) (ite_pos rfl (ih d ?_))
        simp only [List.cons_append, List.length_cons] at hd
        omega
  exact fun p hp hI hup => hupTo _ (hup ▸ S.remaining hp.ok) p hp hI hup

/-! ## Types -/

section Skipping

variable (hlasting : Lasting S I)
include hlasting

/-- A loop passes over all pairs that come in a row. -/
theorem skipPairs {w : List Leaf} (h₁ : k₁.closes = false) (h₂ : k₂ ≠ .eof) (hw : Pairs k₁ k₂ w)
    (hL : ¬ AtPair k₁ k₂ L) : Course S I (loop (skipPair k₁ k₂)) (w ++ L) o () L o := by
  have hgrown : grown (fun o _ _ => o) o w = o := by
    clear hL
    induction hw with
    | nil => rfl
    | cons _ _ _ ih => exact ih
  have h := pairs (S := S) (I := I) (o := o) (r := do Parse.skip; Parse.skip) (F := fun o _ _ => o) h₁
    (fun ha hb => bind (skip hlasting (ha ▸ ne_eof_of_closes h₁)) (skip hlasting (hb ▸ h₂))) hw hL
  rwa [hgrown] at h

/-- A type is passed over. -/
theorem skipType {w : List Leaf} (h : TypeAhead w L) : Course S I skipType (w ++ L) o true L o := by
  refine peek_bind ?_
  cases h with
  | @builtin l b w L hl hw hL =>
    rw [List.cons_append, frontKind_cons, if_pos (by rw [hl]; rfl), if_pos (by rw [hl]; rfl)]
    exact bind (skip hlasting (by simp [hl])) (bind (skipPairs hlasting rfl (by decide) hw hL) pure)
  | @named l v w L hl hv hvL hw hL =>
    rw [List.cons_append, List.append_assoc, frontKind_cons, if_pos (by rw [hl]; rfl), if_neg (by rw [hl]; decide)]
    refine bind (skip hlasting (by simp [hl])) (bind (skipPairs hlasting rfl (by decide) hv hvL) ?_)
    exact bind (skipPairs hlasting rfl (by decide) hw hL) pure

end Skipping

section Reading

variable (hlasting : Lasting S I) (hfresh : ∀ {s}, S.Ok s → I s → I (TokenSource.fresh s).2)
include hlasting hfresh

/-- A name is read to its last segment. -/
theorem name {v : List Leaf} (hl : l.tokenKind = .ident) (hv : Segments v) (hL : ¬ AtPair (.punct .dot) .ident L) :
    ∃ ss, Yields .name (l :: v) ss ∧ Course S I name (l :: (v ++ L)) o () L (o ++ [branch .name ss]) := by
  refine ⟨_, grown_spec (v := [l]) (F := fun o a b => o ++ [leaf a, leaf b])
    (fun ha hb h => .dotted h ha hb) hv (.ident hl), ?_⟩
  have hfirst : Course S I (Parse.expect .ident) (l :: (v ++ L)) [] () (v ++ L) [leaf l] := by
    rw [expect_eq]
    refine peek_bind ?_
    rw [frontKind_cons, expectBody, if_pos hl]
    exact bump hlasting (by simp [hl])
  refine node hfresh (bind hfirst ?_)
  refine pairs (r := (do Parse.bump; Parse.bump : Parse σ Unit)) rfl (fun {a b L o} ha hb => ?_) hv hL
  rw [List.append_cons o]
  exact bind (bump hlasting (by simp [ha])) (bump hlasting (by simp [hb]))

/-- The pairs of brackets behind an element type, each around all that stands in front of it. -/
theorem brackets {v w : List Leaf} {s : Shape} (hs : Yields .type v [s]) (hw : Brackets w)
    (hL : ¬ AtPair (.punct .lBracket) (.punct .rBracket) L) :
    ∃ s', Yields .type (v ++ w) [s'] ∧
      Course S I (loop do
        unless ← atBrackets do return false
        Parse.bump; Parse.bump; Parse.enclose .arrayType; return true) (w ++ L) [s] () L [s'] := by
  obtain ⟨s', hgrown, hs'⟩ := grown_spec (F := fun o a b => [branch .arrayType (o ++ [leaf a, leaf b])])
    (Y := fun v o => ∃ s, o = [s] ∧ Yields .type v [s])
    (fun ha hb ⟨s, ho, h⟩ => ⟨_, rfl, ho ▸ .array h ha hb⟩) hw ⟨s, rfl, hs⟩
  refine ⟨s', hs', hgrown ▸ ?_⟩
  refine pairs (r := (do Parse.bump; Parse.bump; Parse.enclose .arrayType : Parse σ Unit)) rfl
    (fun {a b L o} ha hb => ?_) hw hL
  rw [List.append_cons o]
  exact bind (bump hlasting (by simp [ha])) (bind (bump hlasting (by simp [hb])) (enclose hfresh))

/-- A type is read to its last pair of brackets, and one node is emitted for it. -/
theorem type {w : List Leaf} (h : TypeAhead w L) :
    ∃ s, Yields .type w [s] ∧ Course S I type (w ++ L) o () L (o ++ [s]) := by
  cases h with
  | @builtin l b w L hl hw hL =>
    obtain ⟨s, hs, hcourse⟩ := brackets hlasting hfresh (.builtin hl) hw hL
    refine ⟨s, hs, scope (peek_bind ?_)⟩
    rw [List.cons_append, frontKind_cons, if_pos (by rw [hl]; rfl), if_pos (by rw [hl]; rfl)]
    exact bind (node hfresh (bump hlasting (by simp [hl]))) hcourse
  | @named l v w L hl hv hvL hw hL =>
    obtain ⟨ss, hss, hname⟩ := name (o := []) hlasting hfresh hl hv hvL
    obtain ⟨s, hs, hcourse⟩ := brackets hlasting hfresh (.named hss) hw hL
    refine ⟨s, hs, scope (peek_bind ?_)⟩
    rw [List.cons_append, List.append_assoc, frontKind_cons, if_pos (by rw [hl]; rfl), if_neg (by rw [hl]; decide)]
    exact bind hname hcourse

end Reading

end Course

/-! ## Passing over a type and reading one -/

variable {S : Supply version σ} {p : Parser σ}

/-- Where no type begins nothing is passed over. -/
theorem skipType_of_not (hp : Ready S p) (h : (front S p).startsType = false) : skipType p = (false, p) := by
  rw [front, S.frontKind_upcoming hp.ok] at h
  show (if (TokenSource.next p.source).1.leaf.tokenKind.startsType = true then _
    else Pure.pure false : Parse σ Bool) p = _
  rw [if_neg (by simp [h])]
  rfl

/-- Where a type begins it is passed over, and only the source changes. -/
theorem skipType_of_typeAhead {I : σ → Prop} (hlasting : Lasting S I) (hp : Ready S p) (hI : I p.source)
    {w L : List Leaf} (hup : S.upcoming p.source = w ++ L) (h : TypeAhead w L) :
    ∃ s, skipType p = (true, { p with source := s }) ∧ S.Ok s ∧ I s ∧ S.upcoming s = L := by
  obtain ⟨s, out, happly, hs, hI', hup', -⟩ := Course.skipType hlasting h p hp hI hup rfl
  obtain rfl : out = p.out := by
    have hout := Looks.skipType.silent.out_eq p
    rwa [happly] at hout
  exact ⟨s, happly, hs, hI', hup'⟩

/-- What passing over says is whether a type begins. -/
theorem skipType_fst (hp : Ready S p) : (skipType p).1 = (front S p).startsType := by
  cases h : (front S p).startsType with
  | false => rw [skipType_of_not hp h]
  | true =>
    obtain ⟨w, L, hup, htype⟩ := exists_typeAhead h
    obtain ⟨s, happly, -⟩ := skipType_of_typeAhead (I := fun _ => True) (fun _ _ => id) hp trivial hup htype
    rw [happly]

/-- One node is emitted over what is emitted in its scope. -/
theorem node_apply (kind : NodeKind) (m : Parse σ Unit) (p : Parser σ) :
    node kind m p = ((), { (m { p with out := [] }).2 with
      source := (TokenSource.fresh (m { p with out := [] }).2.source).2
      out := p.out ++ [.ofChildren (TokenSource.fresh (m { p with out := [] }).2.source).1 (.node kind)
        (m { p with out := [] }).2.out] }) := rfl

theorem scope_apply {σ α : Type} (m : Parse σ α) (p : Parser σ) :
    scope m p = ((m { p with out := [] }).1,
      { (m { p with out := [] }).2 with out := p.out ++ (m { p with out := [] }).2.out }) := rfl

/-- Where no type begins a name is emitted that is missing. -/
theorem type_of_not (hp : Ready S p) (h : (front S p).startsType = false) :
    type p = ((), { p with
      source := (TokenSource.fresh (TokenSource.fresh p.source).2).2
      out := p.out ++ [.ofChildren (TokenSource.fresh (TokenSource.fresh p.source).2).1 (.node .name)
        [.token ⟨(TokenSource.fresh p.source).1, .absent (.token .ident) (.ofCode .typeExpected 0 0 [])⟩]]
      status := if front S p = .eof then .unexpectedEnd else p.status }) := by
  rw [front, S.frontKind_upcoming hp.ok] at h ⊢
  have hscope : type p = Parse.scope (if (TokenSource.next p.source).1.leaf.tokenKind.startsType = true then _
      else node .name (missing .ident .typeExpected)) p := rfl
  rw [hscope, if_neg (by simp [h]), scope_apply, node_apply, missing_apply]
  rfl

/-- Both ways over a type, where one begins: the same tokens are taken, and what lasts holds behind them. -/
theorem exists_taken {I : σ → Prop} (hlasting : Lasting S I) (hfresh : ∀ {s}, S.Ok s → I s → I (TokenSource.fresh s).2)
    (hp : Ready S p) (hI : I p.source) (h : (front S p).startsType = true) : ∃ taken s s' g,
      skipType p = (true, { p with source := s }) ∧ type p = ((), { p with source := s', out := p.out ++ [g] }) ∧
        S.upcoming p.source = taken ++ S.upcoming s ∧ S.upcoming s' = S.upcoming s ∧ (I s ∧ I s') ∧
        Yields .type taken [g.shape] := by
  obtain ⟨taken, L, hup, htype⟩ := exists_typeAhead h
  obtain ⟨s, hskip, -, hIs, hups⟩ := skipType_of_typeAhead hlasting hp hI hup htype
  -- reading is looked at in a scope of its own, where nothing has been emitted yet
  obtain ⟨shape, hyields, hcourse⟩ := Course.type (o := []) hlasting hfresh htype
  obtain ⟨s', out, hread, -, hIs', hups', hout⟩ := hcourse { p with out := [] } ⟨hp.ok, hp.version⟩ hI hup rfl
  obtain ⟨g, rfl⟩ : ∃ g, out = [g] := List.length_eq_one_iff.1 (by simpa using congrArg List.length hout)
  obtain rfl : g.shape = shape := by simpa using hout
  refine ⟨taken, s, s', g, hskip, ?_, by rw [hups, hup], hups'.trans hups.symm, ⟨hIs, hIs'⟩, hyields⟩
  have hscope : type p = ((type { p with out := [] }).1,
      { (type { p with out := [] }).2 with out := p.out ++ (type { p with out := [] }).2.out }) := rfl
  rw [hscope, hread]

/-- What lasts holds behind a type, whichever way it was gone over. -/
theorem lasting_type {I : σ → Prop} (hlasting : Lasting S I) (hfresh : ∀ {s}, S.Ok s → I s → I (TokenSource.fresh s).2)
    (hp : Ready S p) (hI : I p.source) : I (skipType p).2.source ∧ I (type p).2.source := by
  cases h : (front S p).startsType with
  | true =>
    obtain ⟨taken, s, s', g, hskip, hread, -, -, hIs, -⟩ := exists_taken hlasting hfresh hp hI h
    rw [hskip, hread]
    exact hIs
  | false =>
    rw [skipType_of_not hp h, type_of_not hp h]
    exact ⟨hI, hfresh (S.fresh hp.ok).1 (hfresh hp.ok hI)⟩

/-- **Foreseen.** If a type is passed over, reading takes the same tokens and emits one node, a type over these tokens,
none of which is missing. Otherwise reading takes no token and emits a name with a missing identifier. Both leave all
else as it was. -/
structure Foreseen (S : Supply version σ) (p : Parser σ) : Prop where
  type : (skipType p).1 = true → ∃ taken s s' g,
    skipType p = (true, { p with source := s }) ∧ type p = ((), { p with source := s', out := p.out ++ [g] }) ∧
      S.upcoming p.source = taken ++ S.upcoming s ∧ S.upcoming s' = S.upcoming s ∧
      Yields .type taken [g.shape] ∧ g.leaves = taken ∧ ∀ l ∈ taken, l.missing = false
  noType : (skipType p).1 = false → skipType p = (false, p) ∧ ∃ id id',
    Parse.type p = ((), { p with
      source := (TokenSource.fresh (TokenSource.fresh p.source).2).2
      out := p.out ++ [.ofChildren id (.node .name)
        [.token ⟨id', .absent (.token .ident) (.ofCode .typeExpected 0 0 [])⟩]]
      status := if front S p = .eof then .unexpectedEnd else p.status })

/-- **Lockstep.** Passing over a type and reading one agree. -/
theorem foreseen (hp : Ready S p) : Foreseen S p where
  type h := by
    rw [skipType_fst hp] at h
    obtain ⟨taken, s, s', g, hskip, hread, hups, hups', -, hyields⟩ :=
      exists_taken (I := fun _ => True) (fun _ _ => id) (fun _ => id) hp trivial h
    refine ⟨taken, s, s', g, hskip, hread, hups, hups', hyields, ?_, fun l hl => ?_⟩
    · rw [← leaves_shape, ← hyields.leavesAll_eq]
      simp
    · exact S.missing_eq_false hp.ok l (hups ▸ List.mem_append_left _ hl)
  noType h := by
    rw [skipType_fst hp] at h
    exact ⟨skipType_of_not hp h, _, _, type_of_not hp h⟩

end Parse

end IncrementalSyntax

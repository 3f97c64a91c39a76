import Mathlib
import IncrementalSyntax.Stream.Reuse

/-!
# The tokens of a tree

A tree is made of the tokens of a text and of tokens that are missing. A missing token has no text and
carries a diagnostic, and where a token is skipped the parser adds a diagnostic of its own. What is left
of the tokens without both is what the scanner has read.

## Main definitions

* `Green.leavesAll`, `Green.scannedAll`: the leaves of elements, and those that were scanned
* `Green.Flagged`, `Green.Closed`: elements with a diagnostic, and elements that end with a closing token
* `Green.missesElse`: an `if` that ends although an `else` comes behind it
* `Green.Fine`: a tree with the right summaries, whose missing tokens are empty and reported

## Main results

* `Green.missesElseAll_append`: the elements in front of others see the first token behind them
* `Green.missesElse_of_isOpenEnded`: an open-ended node misses an `else` behind it
* `Green.Exact.flag_iff`: a flag stands for something in a leaf or on a node
-/

namespace IncrementalSyntax

/-- **Bare leaf.** The leaf as it was scanned, without annotations and without the diagnostic of a skipped
token. -/
def Leaf.bare (l : Leaf) : Leaf :=
  { l with diagnostics := l.diagnostics.filter (·.code ≠ .unexpectedToken), annotations := [] }

@[simp] theorem Leaf.tokenKind_bare (l : Leaf) : l.bare.tokenKind = l.tokenKind := rfl

@[simp] theorem Leaf.bare_bare (l : Leaf) : l.bare.bare = l.bare := by
  simp [bare]

/-- The tokens that end a statement or a member, and the one that ends the text. -/
def TokenKind.closes : TokenKind → Bool
  | .eof | .punct .semicolon | .punct .rBrace => true
  | _ => false

namespace Green

/-- A property of trees holds if it holds of tokens and goes from children to their parent. -/
theorem induction {motive : Green → Prop} (token : ∀ t, motive (.token t))
    (node : ∀ h cs, (∀ c ∈ cs, motive c) → motive (.node h cs)) (g : Green) : motive g :=
  match g with
  | .token t => token t
  | .node h cs => node h cs fun c _ => induction token node c

/-! ## Leaves -/

/-- The leaves of elements in a row. -/
def leavesAll (cs : List Green) : List Leaf := (tokensAll cs).map Token.leaf

/-- The leaves of an element. -/
def leaves (g : Green) : List Leaf := g.tokens.map Token.leaf

/-- The scanned leaves of elements in a row, as they were scanned. -/
def scannedAll (cs : List Green) : List Leaf :=
  ((leavesAll cs).filter fun l => !l.missing).map Leaf.bare

@[simp] theorem leavesAll_nil : leavesAll [] = [] := rfl

@[simp] theorem leavesAll_cons (g : Green) (cs : List Green) :
    leavesAll (g :: cs) = g.leaves ++ leavesAll cs := by
  simp [leavesAll, leaves]

@[simp] theorem leavesAll_append (as bs : List Green) :
    leavesAll (as ++ bs) = leavesAll as ++ leavesAll bs := by
  simp [leavesAll]

theorem mem_leavesAll {cs : List Green} {l : Leaf} : l ∈ leavesAll cs ↔ ∃ c ∈ cs, l ∈ c.leaves := by
  induction cs with
  | nil => simp
  | cons c cs ih => simp [ih]

theorem leavesAll_eq_flatten (cs : List Green) : leavesAll cs = (cs.map leaves).flatten := by
  induction cs with
  | nil => rfl
  | cons c cs ih => simp [ih]

@[simp] theorem leaves_token (t : Token) : (token t).leaves = [t.leaf] := rfl

@[simp] theorem leavesAll_map_token (ts : List Token) : leavesAll (ts.map token) = ts.map Token.leaf := by
  induction ts with
  | nil => rfl
  | cons t ts ih => rw [List.map_cons, leavesAll_cons, ih]; rfl

@[simp] theorem leaves_node (h : Header) (cs : List Green) : (node h cs).leaves = leavesAll cs := rfl

@[simp] theorem leaves_ofChildren (id : Id) (kind : Kind) (cs : List Green) (as : List Annotation) :
    (ofChildren id kind cs as).leaves = leavesAll cs := rfl

@[simp] theorem scannedAll_nil : scannedAll [] = [] := rfl

@[simp] theorem scannedAll_append (as bs : List Green) :
    scannedAll (as ++ bs) = scannedAll as ++ scannedAll bs := by
  simp [scannedAll]

theorem scannedAll_eq_flatten (cs : List Green) : scannedAll cs = (cs.map fun c => scannedAll [c]).flatten := by
  induction cs with
  | nil => rfl
  | cons c cs ih => rw [List.map_cons, List.flatten_cons, ← ih, ← scannedAll_append]; rfl

@[simp] theorem scannedAll_node (h : Header) (cs : List Green) :
    scannedAll [node h cs] = scannedAll cs := by
  simp [scannedAll]

theorem scannedAll_children {g : Green} {kind : NodeKind} (h : g.nodeKind? = some kind) :
    scannedAll g.children = scannedAll [g] := by
  cases g with
  | token => cases h
  | node hd cs => exact (scannedAll_node hd cs).symm

@[simp] theorem scannedAll_ofChildren (id : Id) (kind : Kind) (cs : List Green) (as : List Annotation) :
    scannedAll [ofChildren id kind cs as] = scannedAll cs := by
  simp [scannedAll]

theorem scannedAll_eq_of_plain {g : Green} (h : ∀ l ∈ g.leaves, l.missing = false ∧ l.bare = l) :
    scannedAll [g] = g.leaves := by
  have hfilter : g.leaves.filter (fun l => !l.missing) = g.leaves :=
    List.filter_eq_self.2 fun l hl => by simp [(h l hl).1]
  have hmap : g.leaves.map Leaf.bare = g.leaves :=
    (List.map_congr_left fun l hl => (h l hl).2).trans (List.map_id _)
  simp [scannedAll, hfilter, hmap]

/-! ## Diagnostics and ends -/

/-- **Flagged.** Some leaf carries a diagnostic. -/
def Flagged (cs : List Green) : Prop := ∃ l ∈ leavesAll cs, l.diagnostics ≠ []

theorem not_flagged_nil : ¬ Flagged [] := by
  rintro ⟨l, hl, -⟩
  simp at hl

theorem flagged_append {as bs : List Green} : Flagged (as ++ bs) ↔ Flagged as ∨ Flagged bs := by
  simp [Flagged, or_and_right, exists_or]

theorem flagged_cons {g : Green} {cs : List Green} : Flagged (g :: cs) ↔ Flagged [g] ∨ Flagged cs := by
  rw [← List.singleton_append, flagged_append]

@[simp] theorem flagged_node {h : Header} {cs : List Green} : Flagged [node h cs] ↔ Flagged cs := by
  simp [Flagged]

@[simp] theorem flagged_ofChildren {id : Id} {kind : Kind} {cs : List Green} {as : List Annotation} :
    Flagged [ofChildren id kind cs as] ↔ Flagged cs := by
  simp [Flagged]

/-- **Closed.** The last leaf ends a statement or a member, or something is wrong anyway. -/
def Closed (cs : List Green) : Prop :=
  Flagged cs ∨ ∃ l, (leavesAll cs).getLast? = some l ∧ l.tokenKind.closes = true

theorem Closed.append_left {bs : List Green} (h : Closed bs) (as : List Green) : Closed (as ++ bs) := by
  rcases h with h | ⟨l, hl, hc⟩
  · exact .inl (flagged_append.2 (.inr h))
  · refine .inr ⟨l, ?_, hc⟩
    rw [leavesAll_append, List.getLast?_append, hl]
    rfl

theorem closed_ofChildren {id : Id} {kind : Kind} {cs : List Green} {as : List Annotation}
    (h : Closed cs) : Closed [ofChildren id kind cs as] := by
  simpa [Closed] using h

/-! ## Lost `else` -/

/-- The kind of the first scanned token of elements in a row, in front of a token of kind `next`. -/
def firstKind (cs : List Green) (next : TokenKind) : TokenKind :=
  ((scannedAll cs).head?.map Leaf.tokenKind).getD next

@[simp] theorem firstKind_nil (next : TokenKind) : firstKind [] next = next := rfl

theorem firstKind_append (as bs : List Green) (next : TokenKind) :
    firstKind (as ++ bs) next = firstKind as (firstKind bs next) := by
  unfold firstKind
  rw [scannedAll_append]
  cases scannedAll as <;> simp

mutual

/-- Whether an `if` below an element, or the element itself, has no `else` although one comes right behind
it. The token behind the element is of kind `next`. -/
def missesElse : Green → TokenKind → Bool
  | token _, _ => false
  | node h cs, next =>
    (h.kind = .node .ifStmt && (cs.getLast?.bind nodeKind?) ≠ some .elseClause &&
        next = .keyword .elseKw) ||
      missesElseAll cs next

/-- The same for elements in a row. -/
def missesElseAll : List Green → TokenKind → Bool
  | [], _ => false
  | c :: cs, next => c.missesElse (firstKind cs next) || missesElseAll cs next

end

@[simp] theorem missesElseAll_nil (next : TokenKind) : missesElseAll [] next = false := by
  simp [missesElseAll]

@[simp] theorem missesElseAll_singleton (g : Green) (next : TokenKind) :
    missesElseAll [g] next = g.missesElse next := by
  simp [missesElseAll]

@[simp] theorem missesElse_token (t : Token) (next : TokenKind) : (token t).missesElse next = false := by
  simp [missesElse]

/-- Elements in front of others end in sight of the first token of those. -/
theorem missesElseAll_append (as bs : List Green) (next : TokenKind) :
    missesElseAll (as ++ bs) next = (missesElseAll as (firstKind bs next) || missesElseAll bs next) := by
  induction as with
  | nil => simp
  | cons a as ih => simp [missesElseAll, ih, firstKind_append, Bool.or_assoc]

theorem missesElse_ofChildren {id : Id} {kind : Kind} {cs : List Green} {as : List Annotation}
    {next : TokenKind} (h : kind ≠ .node .ifStmt) :
    (ofChildren id kind cs as).missesElse next = missesElseAll cs next := by
  simp [ofChildren, missesElse, h]

theorem missesElse_ofChildren_of_all {id : Id} {kind : Kind} {cs : List Green} {as : List Annotation}
    {next : TokenKind} (h : missesElseAll cs next = true) :
    (ofChildren id kind cs as).missesElse next = true := by
  simp [ofChildren, missesElse, h]

theorem missesElseAll_of_getLast {cs : List Green} {g : Green} {next : TokenKind}
    (hg : cs.getLast? = some g) (h : g.missesElse next = true) : missesElseAll cs next = true := by
  obtain ⟨as, rfl⟩ := List.getLast?_eq_some_iff.1 hg
  simp [missesElseAll_append, h]

theorem lastIsOpenEnded_eq (cs : List Green) :
    lastIsOpenEnded cs = cs.getLast?.any isOpenEnded := by
  induction cs with
  | nil => simp [lastIsOpenEnded]
  | cons c cs ih =>
    cases cs with
    | nil => simp [lastIsOpenEnded]
    | cons d cs => simp [lastIsOpenEnded, ih]

/-- An `else` behind an open-ended node belongs to an `if` at its right edge. -/
theorem missesElse_of_isOpenEnded {g : Green} (h : g.isOpenEnded = true) :
    g.missesElse (.keyword .elseKw) = true := by
  induction g using Green.induction with
  | token t => simp [isOpenEnded] at h
  | node hd cs ih =>
    simp only [isOpenEnded, Bool.or_eq_true, lastIsOpenEnded_eq] at h
    rcases h with h | h
    · simp only [Bool.and_eq_true] at h
      simp [missesElse, h]
    · obtain ⟨g, hg, hopen⟩ := (Option.any_eq_true _ _).1 h
      simp [missesElse, missesElseAll_of_getLast hg (ih g (List.mem_of_getLast? hg) hopen)]

/-- A node that is no `if` ends as the last of its children does. -/
theorem isOpenEnded_ofChildren_concat {id : Id} {kind : Kind} {cs : List Green} {c : Green} {as : List Annotation}
    (h : kind ≠ .node .ifStmt) : (ofChildren id kind (cs ++ [c]) as).isOpenEnded = c.isOpenEnded := by
  simp [ofChildren, isOpenEnded, h, lastIsOpenEnded_eq]

theorem isOpenEnded_ofChildren {id : Id} {kind : Kind} {cs : List Green} {as : List Annotation}
    (h : lastIsOpenEnded cs = true) : (ofChildren id kind cs as).isOpenEnded = true := by
  simp [ofChildren, isOpenEnded, h]

/-! ## Shapes -/

/-- Two elements of the same shape are two tokens with the same leaf or two nodes alike. -/
theorem shape_eq_cases {a b : Green} (h : a.shape = b.shape) :
    (∃ t u, a = .token t ∧ b = .token u ∧ t.leaf = u.leaf) ∨
      ∃ hd cs hd' ds, a = .node hd cs ∧ b = .node hd' ds ∧ hd.kind = hd'.kind ∧
        hd.annotations = hd'.annotations ∧ cs.map shape = ds.map shape := by
  cases a with
  | token t =>
    cases b with
    | token u => exact .inl ⟨t, u, rfl, rfl, by simpa [shape] using h⟩
    | node => simp [shape] at h
  | node hd cs =>
    cases b with
    | token => simp [shape] at h
    | node hd' ds => exact .inr ⟨hd, cs, hd', ds, rfl, rfl, by simpa [shape] using h⟩

/-- What depends on the shape of every element alone depends on the shapes of elements in a row. -/
theorem map_eq_of_shapes {α : Type} {f : Green → α} {cs ds : List Green}
    (hf : ∀ c ∈ cs, ∀ d : Green, c.shape = d.shape → f c = f d) (h : cs.map shape = ds.map shape) :
    cs.map f = ds.map f := by
  induction cs generalizing ds with
  | nil =>
    obtain rfl : ds = [] := by simpa using h.symm
    rfl
  | cons c cs ih =>
    cases ds with
    | nil => simp at h
    | cons d ds =>
      simp only [List.map_cons, List.cons.injEq] at h ⊢
      exact ⟨hf c (by simp) d h.1, ih (fun c hc => hf c (by simp [hc])) h.2⟩

theorem leaves_eq_of_shape {a b : Green} (h : a.shape = b.shape) : a.leaves = b.leaves := by
  induction a using Green.induction generalizing b with
  | token t =>
    rcases shape_eq_cases h with ⟨_, u, ⟨⟩, rfl, hl⟩ | ⟨_, _, _, _, ⟨⟩, -⟩
    simp [hl]
  | node hd cs ih =>
    rcases shape_eq_cases h with ⟨_, _, ⟨⟩, -⟩ | ⟨_, _, hd', ds, ⟨⟩, rfl, -, -, hs⟩
    rw [leaves_node, leaves_node, leavesAll_eq_flatten, leavesAll_eq_flatten,
      map_eq_of_shapes (fun c hc d => ih c hc) hs]

theorem leavesAll_eq_of_shapes {cs ds : List Green} (h : cs.map shape = ds.map shape) :
    leavesAll cs = leavesAll ds := by
  rw [leavesAll_eq_flatten, leavesAll_eq_flatten,
    map_eq_of_shapes (fun c _ d => leaves_eq_of_shape) h]

theorem flagged_of_shapes {cs ds : List Green} (h : cs.map shape = ds.map shape) (hf : Flagged cs) :
    Flagged ds := by
  rwa [Flagged, ← leavesAll_eq_of_shapes h]

theorem nodeKind?_eq_of_shape {a b : Green} (h : a.shape = b.shape) : a.nodeKind? = b.nodeKind? := by
  rcases shape_eq_cases h with ⟨t, u, rfl, rfl, -⟩ | ⟨hd, cs, hd', ds, rfl, rfl, hk, -⟩
  · rfl
  · obtain ⟨_, kind, _, _, _⟩ := hd
    obtain ⟨_, kind', _, _, _⟩ := hd'
    obtain rfl : kind = kind' := hk
    cases kind <;> rfl

theorem tokenKind?_eq_of_shape {a b : Green} (h : a.shape = b.shape) : a.tokenKind? = b.tokenKind? := by
  rcases shape_eq_cases h with ⟨t, u, rfl, rfl, hl⟩ | ⟨hd, cs, hd', ds, rfl, rfl, -⟩
  · simp [tokenKind?, hl]
  · rfl

theorem missesElseAll_eq_of_shapes {cs ds : List Green} {next : TokenKind}
    (hf : ∀ c ∈ cs, ∀ d : Green, c.shape = d.shape → ∀ next, c.missesElse next = d.missesElse next)
    (h : cs.map shape = ds.map shape) : missesElseAll cs next = missesElseAll ds next := by
  induction cs generalizing ds with
  | nil =>
    obtain rfl : ds = [] := by simpa using h.symm
    rfl
  | cons c cs ih =>
    cases ds with
    | nil => simp at h
    | cons d ds =>
      simp only [List.map_cons, List.cons.injEq] at h
      have hfirst : firstKind cs next = firstKind ds next := by
        simp only [firstKind, scannedAll, leavesAll_eq_of_shapes h.2]
      simp only [missesElseAll, hfirst, hf c (by simp) d h.1,
        ih (fun c hc => hf c (by simp [hc])) h.2]

theorem missesElse_eq_of_shape {a b : Green} (h : a.shape = b.shape) (next : TokenKind) :
    a.missesElse next = b.missesElse next := by
  induction a using Green.induction generalizing b next with
  | token t =>
    rcases shape_eq_cases h with ⟨_, u, ⟨⟩, rfl, hl⟩ | ⟨_, _, _, _, ⟨⟩, -⟩
    rfl
  | node hd cs ih =>
    rcases shape_eq_cases h with ⟨_, _, ⟨⟩, -⟩ | ⟨_, _, hd', ds, ⟨⟩, rfl, hk, -, hs⟩
    have hlast : cs.getLast?.bind nodeKind? = ds.getLast?.bind nodeKind? := by
      have := congrArg List.getLast? (map_eq_of_shapes (f := nodeKind?)
        (fun c _ d => nodeKind?_eq_of_shape) hs)
      rw [List.getLast?_map, List.getLast?_map] at this
      cases hc : cs.getLast? <;> cases hd : ds.getLast? <;> simp_all
    simp only [missesElse, hk, hlast, missesElseAll_eq_of_shapes (fun c hc d hd' n => ih c hc hd' n) hs]

/-- An `else` that is missed at the end of the text is missed whatever comes behind. -/
theorem missesElse_of_eof {g : Green} {next : TokenKind} (h : g.missesElse .eof = true) :
    g.missesElse next = true := by
  induction g using Green.induction generalizing next with
  | token t => simp at h
  | node hd cs ih =>
    simp only [missesElse, reduceCtorEq, decide_false, Bool.and_false, Bool.false_or] at h
    rw [missesElse, Bool.or_eq_true]
    right
    induction cs with
    | nil => simp at h
    | cons c cs ihcs =>
      rw [missesElseAll, Bool.or_eq_true] at h ⊢
      rcases h with h | h
      · left
        unfold firstKind at h ⊢
        cases hh : (scannedAll cs).head? with
        | none =>
          rw [hh] at h
          exact ih c (by simp) h
        | some l =>
          rw [hh] at h
          exact h
      · exact .inr (ihcs (fun c hc => ih c (by simp [hc])) h)

/-- What is missed in front of a token other than `else` is missed at the end of the text. -/
theorem missesElse_eof_of_ne {g : Green} {next : TokenKind} (hne : next ≠ .keyword .elseKw)
    (h : g.missesElse next = true) : g.missesElse .eof = true := by
  induction g using Green.induction with
  | token t => simp at h
  | node hd cs ih =>
    rw [missesElse, decide_eq_false hne, Bool.and_false, Bool.false_or] at h
    rw [missesElse, Bool.or_eq_true]
    right
    induction cs with
    | nil => simp at h
    | cons c cs ihcs =>
      rw [missesElseAll, Bool.or_eq_true] at h ⊢
      rcases h with h | h
      · left
        unfold firstKind at h ⊢
        cases hh : (scannedAll cs).head? with
        | none =>
          rw [hh] at h
          exact ih c (by simp) h
        | some l =>
          rw [hh] at h
          exact h
      · exact .inr (ihcs (fun c hc => ih c (by simp [hc])) h)

/-! ## Elements inside elements -/

/-- A row, cut around one of its elements, and the same row with another element there. -/
theorem row_eq {cs : List Green} {i : Nat} {c : Green} (hc : cs[i]? = some c) (c' : Green) :
    cs = cs.take i ++ (c :: cs.drop (i + 1)) ∧ cs.set i c' = cs.take i ++ (c' :: cs.drop (i + 1)) := by
  obtain ⟨hi, rfl⟩ := List.getElem?_eq_some_iff.1 hc
  constructor
  · conv_lhs => rw [← List.take_append_drop i cs, List.drop_eq_getElem_cons hi]
  · rw [List.set_eq_take_append_cons_drop, if_pos hi]

/-- **Sub-element.** The element itself or one below it. -/
inductive Sub : Green → Green → Prop
  | self (g : Green) : Sub g g
  | child {g c : Green} {h : Header} {cs : List Green} (hc : c ∈ cs) (hg : Sub g c) : Sub g (.node h cs)

theorem Sub.trans {a b c : Green} (hab : Sub a b) (hbc : Sub b c) : Sub a c := by
  induction hbc with
  | self => exact hab
  | child hc _ ih => exact .child hc ih

/-- What got lost in an element got lost in all elements around it. -/
theorem Sub.missesElse_of_eof {g root : Green} (h : Sub g root) (hg : g.missesElse .eof = true) :
    root.missesElse .eof = true := by
  induction h with
  | self => exact hg
  | @child c h cs hc _ ih =>
    have hall : missesElseAll cs .eof = true := by
      induction cs with
      | nil => cases hc
      | cons d cs ihcs =>
        rw [missesElseAll, Bool.or_eq_true]
        rcases List.mem_cons.1 hc with rfl | hc
        · exact .inl (Green.missesElse_of_eof ih)
        · exact .inr (ihcs hc)
    rw [missesElse, hall, Bool.or_true]

theorem Sub.of_mem_children {g c : Green} (h : c ∈ g.children) : Sub c g := by
  cases g with
  | token t => simp [children] at h
  | node hd cs => exact .child h (.self c)

theorem sub_node {e : Green} {h : Header} {cs : List Green} :
    Sub e (.node h cs) ↔ e = .node h cs ∨ ∃ c ∈ cs, Sub e c := by
  constructor
  · intro hsub
    cases hsub with
    | self => exact .inl rfl
    | child hc hg => exact .inr ⟨_, hc, hg⟩
  · rintro (rfl | ⟨c, hc, hsub⟩)
    · exact .self _
    · exact .child hc hsub

theorem sub_token {e : Green} {t : Token} : Sub e (.token t) ↔ e = .token t :=
  ⟨fun hsub => by cases hsub; rfl, fun he => he ▸ .self _⟩

/-! ## Summaries and missing tokens -/

/-- **Fine.** Every node of the tree keeps the right summary, and every missing token is empty and
reported. -/
structure Fine (g : Green) : Prop where
  exact : g.Exact
  missing : ∀ l ∈ g.leaves, l.missing = true → l.fullText = [] ∧ l.diagnostics ≠ []

theorem fine_token {t : Token} (h : t.leaf.missing = true → t.leaf.fullText = [] ∧ t.leaf.diagnostics ≠ []) :
    Fine (.token t) where
  exact := trivial
  missing := by
    intro l hl
    obtain rfl : l = t.leaf := by simpa using hl
    exact h

theorem fine_ofChildren {id : Id} {kind : Kind} {cs : List Green} {as : List Annotation}
    (h : ∀ c ∈ cs, Fine c) : Fine (ofChildren id kind cs as) where
  exact := exact_ofChildren.2 fun c hc => (h c hc).exact
  missing := by
    intro l hl
    obtain ⟨c, hc, hl⟩ : ∃ c ∈ cs, l ∈ c.leaves := by
      rw [leaves_ofChildren, mem_leavesAll] at hl
      exact hl
    exact (h c hc).missing l hl

theorem flagged_iff_exists {cs : List Green} : Flagged cs ↔ ∃ c ∈ cs, Flagged [c] := by
  induction cs with
  | nil => simp [not_flagged_nil]
  | cons c cs ih =>
    rw [← List.singleton_append, flagged_append, ih]
    simp

section Flags

variable {f : Flags → Bool} (hnone : f .none = false) (hunion : ∀ a b, f (a.union b) = (f a || f b))
include hnone hunion

/-- A flag of elements in a row is set if one of them sets it. -/
theorem flagsAll_eq_any (cs : List Green) : f (flagsAll cs) = cs.any fun c => f c.flags := by
  induction cs with
  | nil => exact hnone
  | cons c cs ih => rw [flagsAll, hunion, ih, List.any_cons]

/-- **Flags.** A flag of an exact element is set if and only if something in it sets the flag, a leaf or a node. -/
theorem Exact.flag_iff {g : Green} (h : g.Exact) :
    f g.flags = true ↔
      (∃ l ∈ g.leaves, f l.flags = true) ∨
        ∃ hd cs, Sub (.node hd cs) g ∧ f (ownFlags hd.kind hd.annotations) = true := by
  induction g using Green.induction with
  | token t => simp [flags, sub_token]
  | node hd cs ih =>
    obtain ⟨hsummary, hcs⟩ := exact_node.1 h
    -- the flag comes from the node itself, or from one of its children
    rw [flags, hsummary.flags, hunion, flagsAll_eq_any hnone hunion, Bool.or_eq_true, List.any_eq_true]
    constructor
    · rintro (hown | ⟨c, hc, hflag⟩)
      · exact .inr ⟨hd, cs, .self _, hown⟩
      · rcases (ih c hc (hcs c hc)).1 hflag with ⟨l, hl, hl'⟩ | ⟨hd', cs', hsub, hown⟩
        · exact .inl ⟨l, mem_leavesAll.2 ⟨c, hc, hl⟩, hl'⟩
        · exact .inr ⟨hd', cs', .child hc hsub, hown⟩
    · rintro (⟨l, hl, hflag⟩ | ⟨hd', cs', hsub, hown⟩)
      · obtain ⟨c, hc, hl⟩ := mem_leavesAll.1 hl
        exact .inr ⟨c, hc, (ih c hc (hcs c hc)).2 (.inl ⟨l, hl, hflag⟩)⟩
      · obtain ⟨⟨⟩⟩ | ⟨c, hc, hsub⟩ := sub_node.1 hsub
        · exact .inl hown
        · exact .inr ⟨c, hc, (ih c hc (hcs c hc)).2 (.inr ⟨hd', cs', hsub, hown⟩)⟩

/-- A flag that no node has of its own stands for something in a leaf. -/
theorem Exact.leaf_flag_iff {g : Green} (h : g.Exact) (hnode : ∀ kind as, f (ownFlags kind as) = false) :
    f g.flags = true ↔ ∃ l ∈ g.leaves, f l.flags = true := by
  simp [h.flag_iff hnone hunion, hnode]

end Flags

theorem flagsAll_annotations (cs : List Green) :
    (flagsAll cs).annotations = cs.any fun c => c.flags.annotations :=
  flagsAll_eq_any (f := Flags.annotations) rfl (fun _ _ => rfl) cs

/-- The summary of a tree tells whether some leaf carries a diagnostic. -/
theorem Exact.flagged_iff {g : Green} (h : g.Exact) : Flagged [g] ↔ g.flags.diagnostics = true := by
  rw [h.leaf_flag_iff (f := Flags.diagnostics) rfl (fun _ _ => rfl) fun _ _ => rfl]
  simp [Flagged, Leaf.flags]

theorem Exact.annotations_eq_nil {g : Green} (h : g.Exact) (hflags : g.flags.annotations = false) :
    ∀ l ∈ g.leaves, l.annotations = [] := by
  intro l hl
  by_contra hne
  have hflag : g.flags.annotations = true :=
    (h.flag_iff (f := Flags.annotations) rfl fun _ _ => rfl).2 (.inl ⟨l, hl, by simpa [Leaf.flags] using hne⟩)
  rw [hflags] at hflag
  cases hflag

theorem widthAll_eq {cs : List Green} (h : ∀ c ∈ cs, c.width = (c.leaves.map Leaf.width).sum) :
    widthAll cs = ((leavesAll cs).map Leaf.width).sum := by
  induction cs with
  | nil => rfl
  | cons c cs ih =>
    have hcs : widthAll cs = _ := ih fun d hd => h d (List.mem_cons_of_mem _ hd)
    rw [leavesAll_cons, List.map_append, List.sum_append, ← hcs, ← h c List.mem_cons_self]
    rfl

/-- The width of a tree is that of its leaves. -/
theorem Exact.width_eq {g : Green} (h : g.Exact) : g.width = (g.leaves.map Leaf.width).sum := by
  induction g using Green.induction with
  | token t => simp [width]
  | node hd cs ih =>
    obtain ⟨hsummary, hcs⟩ := exact_node.1 h
    rw [leaves_node, width, hsummary.width]
    exact widthAll_eq fun c hc => ih c hc (hcs c hc)

/-- Where no diagnostic is, no leaf is missing. -/
theorem Fine.clean_of_mem {g : Green} (h : g.Fine) (hd : g.flags.diagnostics = false) {l : Leaf} (hl : l ∈ g.leaves) :
    l.diagnostics = [] ∧ l.missing = false := by
  have hnil : l.diagnostics = [] := by
    by_contra hne
    have hflag := h.exact.flagged_iff.1 ⟨l, by simpa using hl, hne⟩
    rw [hd] at hflag
    cases hflag
  refine ⟨hnil, ?_⟩
  by_contra hm
  exact (h.missing l hl (by simpa using hm)).2 hnil

/-- Where no diagnostic and no annotation is, every leaf is as it was scanned. -/
theorem Fine.plain_of_mem {g : Green} (h : g.Fine) (hd : g.flags.diagnostics = false)
    (ha : g.flags.annotations = false) {l : Leaf} (hl : l ∈ g.leaves) :
    l.diagnostics = [] ∧ l.missing = false ∧ l.bare = l := by
  obtain ⟨hnil, hpresent⟩ := h.clean_of_mem hd hl
  refine ⟨hnil, hpresent, ?_⟩
  rw [Leaf.bare, hnil, List.filter_nil, ← hnil, ← h.exact.annotations_eq_nil ha l hl]

theorem Fine.plain {g : Green} (h : g.Fine) (hd : g.flags.diagnostics = false)
    (ha : g.flags.annotations = false) : ¬ Flagged [g] ∧ scannedAll [g] = g.leaves := by
  refine ⟨fun hflag => ?_, scannedAll_eq_of_plain fun l hl => (h.plain_of_mem hd ha hl).2⟩
  rw [h.exact.flagged_iff.1 hflag] at hd
  cases hd

end Green

end IncrementalSyntax

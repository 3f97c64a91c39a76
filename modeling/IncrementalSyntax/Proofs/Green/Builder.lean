import IncrementalSyntax.Proofs.Grammar.Events
import IncrementalSyntax.Proofs.Green.Leaves

/-!
# What a builder keeps

The events of a builder in any order in which it can take them: no node is closed that is not open, and a node
is opened at a mark only inside the innermost open one. Each event keeps the tokens of the elements so far and
adds those of the element it brings, so a whole run has the tokens of all elements that were brought, in their
order. A node that is closed takes up what has come since it was opened, or since its mark was set.

## Main definitions

* `Builder.Event`, `Builder.step?`, `Builder.run?`: events and what they do
* `Builder.pushed`: the tokens that events bring
* `Builder.Balanced`: events that close what they open
* `Builder.Grows`: what such events make of the elements around them, read off node by node
* `Builder.Closing`: a node and the events in it

## Main results

* `Builder.tokensAll_run`: no token gets lost, and none gets in
* `Builder.closing_of_run`: each node is closed over the elements since its start or its mark
* `Builder.finish_spec`: a finished tree has the tokens of all elements, but for a token that stands alone
-/

namespace IncrementalSyntax

namespace Builder

/-- **Event.** What can be done with a builder: open a node, here or at a mark, add an element, close a node. -/
inductive Event where
  | start (kind : Kind)
  | startAt (mark : Nat) (kind : Kind)
  | token (t : Token)
  | node (header : Header) (children : List Green)
  | push (g : Green)
  | finish

namespace Event

/-- The element that an event brings. -/
def element? : Event → Option Green
  | token t => some (.token t)
  | node h cs => some (.node h cs)
  | push g => some g
  | _ => none

/-- The node that an event opens, with the number of elements before it. -/
def opening? (b : Builder) : Event → Option (Kind × Nat)
  | start kind => some (kind, b.mark)
  | startAt mark kind => if b.admits mark then some (kind, mark) else none
  | _ => none

/-- The event opens a node that leaves the first `floor` elements out. -/
def OpensFrom (floor : Nat) : Event → Prop
  | start _ => True
  | startAt mark _ => floor ≤ mark
  | _ => False

theorem opensFrom_zero {b : Builder} {e : Event} {o : Kind × Nat} (h : e.opening? b = some o) : e.OpensFrom 0 := by
  cases e with
  | start => trivial
  | startAt mark => exact Nat.zero_le mark
  | token | node | push | finish => cases h

end Event

/-- One event; none where the builder is not to be used that way. -/
def step? (b : Builder) : Event → Option Builder
  | .start kind => some (b.open' kind)
  | .startAt mark kind => if b.admits mark then some (b.openAt mark kind) else none
  | .token t => some (b.push (.token t))
  | .node h cs => some (b.push (.node h cs))
  | .push g => some (b.push g)
  | .finish => if b.opened.isEmpty then none else some b.close

/-- Events one after another. -/
def run? (b : Builder) (es : List Event) : Option Builder := es.foldlM step? b

/-- The tokens that events bring, in their order. -/
def pushed (es : List Event) : List Token := Green.tokensAll (es.filterMap Event.element?)

@[simp] theorem pushed_nil : pushed [] = [] := rfl

@[simp] theorem pushed_append (es es' : List Event) : pushed (es ++ es') = pushed es ++ pushed es' := by
  simp [pushed]

/-- The events that open and close a node bring nothing. -/
theorem pushed_node {e : Event} (h : e.element? = none) (inner rest : List Event) :
    pushed (e :: (inner ++ .finish :: rest)) = pushed inner ++ pushed rest := by
  rw [pushed, List.filterMap_cons_none h, List.filterMap_append, List.filterMap_cons_none rfl]
  simp [pushed]

theorem run?_append (b : Builder) (es es' : List Event) : b.run? (es ++ es') = (b.run? es).bind (run? · es') :=
  List.foldlM_append

theorem run?_append_eq_some {b b' : Builder} {es es' : List Event} :
    b.run? (es ++ es') = some b' ↔ ∃ b₁, b.run? es = some b₁ ∧ b₁.run? es' = some b' := by
  rw [run?_append, Option.bind_eq_some_iff]

theorem run?_cons_eq_some {b b' : Builder} {e : Event} {es : List Event} :
    b.run? (e :: es) = some b' ↔ ∃ b₁, b.step? e = some b₁ ∧ b₁.run? es = some b' :=
  Option.bind_eq_some_iff

@[simp] theorem run?_singleton (b : Builder) (e : Event) : b.run? [e] = b.step? e := by
  simp [run?]

/-! ## One event -/

/-- What an event can do: add an element, open a node, or close the innermost one. -/
theorem step_cases {b b' : Builder} {e : Event} (h : b.step? e = some b') :
    (∃ g, e.element? = some g ∧ b' = b.push g) ∨
      (∃ kind first, e.opening? b = some (kind, first) ∧ e.element? = none ∧
        b' = { b with opened := (kind, first) :: b.opened }) ∨
      (e = .finish ∧ ∃ kind first rest, b.opened = (kind, first) :: rest ∧
        b' = ⟨rest, wrap b.nextId kind first b.elements, b.nextId + 1⟩) := by
  cases e with
  | token | node | push => exact .inl ⟨_, rfl, (Option.some.inj h).symm⟩
  | start kind => exact .inr (.inl ⟨kind, b.mark, rfl, rfl, (Option.some.inj h).symm⟩)
  | startAt mark kind =>
    obtain ⟨hadmits, h⟩ := Option.ite_none_right_eq_some.1 h
    have hmark : mark ≤ b.elements.length := of_decide_eq_true (Bool.and_eq_true_iff.1 hadmits).1
    refine .inr (.inl ⟨kind, mark, if_pos hadmits, rfl, ?_⟩)
    rw [← Option.some.inj h, openAt, min_eq_left hmark]
  | finish =>
    rw [step?] at h
    split at h
    · cases h
    · next hopen =>
      obtain ⟨⟨kind, first⟩, rest, hopened⟩ := List.exists_cons_of_ne_nil (mt List.isEmpty_iff.2 hopen)
      refine .inr (.inr ⟨rfl, kind, first, rest, hopened, ?_⟩)
      rw [← Option.some.inj h, close, hopened]

theorem tokensAll_append_ofChildren (gs cs : List Green) (id : Id) (kind : Kind) :
    Green.tokensAll (gs ++ [.ofChildren id kind cs]) = Green.tokensAll gs ++ Green.tokensAll cs := by
  simp [Green.ofChildren, Green.tokens]

theorem tokensAll_take_drop (n : Nat) (gs : List Green) :
    Green.tokensAll (gs.take n) ++ Green.tokensAll (gs.drop n) = Green.tokensAll gs := by
  simp only [Green.tokensAll_eq_flatMap, ← List.flatMap_append, List.take_append_drop]

/-- An event keeps all tokens and adds those of the element it brings. -/
theorem tokensAll_step {b b' : Builder} {e : Event} (h : b.step? e = some b') :
    Green.tokensAll b'.elements = Green.tokensAll b.elements ++ pushed [e] := by
  obtain ⟨g, hg, rfl⟩ | ⟨kind, first, -, hnone, rfl⟩ | ⟨rfl, kind, first, rest, -, rfl⟩ := step_cases h
  · simp [pushed, hg, push]
  · simp [pushed, hnone]
  · rw [wrap, tokensAll_append_ofChildren, tokensAll_take_drop]
    exact (List.append_nil _).symm

theorem step?_finish {b : Builder} {kind : Kind} {first : Nat} {rest : List (Kind × Nat)}
    (h : b.opened = (kind, first) :: rest) :
    b.step? .finish = some ⟨rest, wrap b.nextId kind first b.elements, b.nextId + 1⟩ := by
  rw [step?, if_neg (by simp [h]), close, h]

/-- An event that opens a node behind the first `floor` elements does so, and does nothing else. -/
theorem step_of_opensFrom {b b' : Builder} {e : Event} {floor : Nat} (hopens : e.OpensFrom floor)
    (hfloor : floor ≤ b.mark) (h : b.step? e = some b') :
    ∃ kind first, e.opening? b = some (kind, first) ∧ floor ≤ first ∧
      b' = { b with opened := (kind, first) :: b.opened } := by
  obtain ⟨g, hg, -⟩ | ⟨kind, first, hopening, -, rfl⟩ | ⟨rfl, -⟩ := step_cases h
  · cases e with
    | start | startAt => cases hg
    | token | node | push | finish => exact hopens.elim
  · refine ⟨kind, first, hopening, ?_, rfl⟩
    cases e with
    | start =>
      cases hopening
      exact hfloor
    | startAt =>
      obtain ⟨-, hopening⟩ := Option.ite_none_right_eq_some.1 hopening
      cases hopening
      exact hopens
    | token | node | push | finish => exact hopens.elim
  · exact hopens.elim

/-- An event that brings an element adds it, and does nothing else. -/
theorem step_of_element {b b' : Builder} {e : Event} {g : Green} (hg : e.element? = some g)
    (h : b.step? e = some b') : b' = b.push g := by
  obtain ⟨g', hg', rfl⟩ | ⟨kind, first, -, hnone, -⟩ | ⟨rfl, -⟩ := step_cases h
  · rw [Option.some.inj (hg.symm.trans hg')]
  · cases hg.symm.trans hnone
  · cases hg

/-- No token gets lost in a run, and none gets in that was not brought. -/
theorem tokensAll_run {es : List Event} {b b' : Builder} (h : b.run? es = some b') :
    Green.tokensAll b'.elements = Green.tokensAll b.elements ++ pushed es := by
  induction es generalizing b with
  | nil => rw [Option.some.inj h, pushed_nil, List.append_nil]
  | cons e es ih =>
    obtain ⟨b₁, hstep, hrest⟩ := run?_cons_eq_some.1 h
    rw [ih hrest, tokensAll_step hstep, List.append_assoc, ← pushed_append, List.singleton_append]

/-! ## Open nodes lie inside each other -/

/-- **Nested.** Each open node begins behind the one around it, and the innermost among the elements. -/
def Nested (b : Builder) : Prop := (b.mark :: b.opened.map Prod.snd).Pairwise (· ≥ ·)

theorem nested_empty : Nested {} := List.pairwise_singleton _ _

theorem Nested.le_mark {b : Builder} (h : b.Nested) {o : Kind × Nat} (ho : o ∈ b.opened) : o.2 ≤ b.mark :=
  (List.pairwise_cons.1 h).1 _ (List.mem_map_of_mem ho)

/-- A node is opened behind where the innermost one begins. -/
theorem Nested.opening {b : Builder} (h : b.Nested) {e : Event} {kind : Kind} {first : Nat}
    (hopen : e.opening? b = some (kind, first)) : first ≤ b.mark ∧ ∀ o ∈ b.opened, o.2 ≤ first := by
  cases e with
  | start =>
    cases hopen
    exact ⟨le_rfl, fun o ho => h.le_mark ho⟩
  | startAt =>
    obtain ⟨hadmits, hopen⟩ := Option.ite_none_right_eq_some.1 hopen
    cases hopen
    obtain ⟨hmark, hinner⟩ := Bool.and_eq_true_iff.1 hadmits
    refine ⟨of_decide_eq_true hmark, fun o ho => ?_⟩
    cases hopened : b.opened with
    | nil => rw [hopened] at ho; cases ho
    | cons o' rest =>
      rw [hopened] at hinner ho
      have hle : o'.2 ≤ first := of_decide_eq_true (by simpa using hinner)
      obtain rfl | ho := List.mem_cons.1 ho
      · exact hle
      · have hchain := (List.pairwise_cons.1 h).2
        rw [hopened, List.map_cons, List.pairwise_cons] at hchain
        exact (hchain.1 _ (List.mem_map_of_mem ho)).trans hle
  | token | node | push | finish => cases hopen

theorem Nested.step {b b' : Builder} (h : b.Nested) {e : Event} (hstep : b.step? e = some b') : b'.Nested := by
  have hchain := List.pairwise_cons.1 h
  obtain ⟨g, -, rfl⟩ | ⟨kind, first, hopen, -, rfl⟩ | ⟨-, kind, first, rest, hopened, rfl⟩ := step_cases hstep
  · refine List.pairwise_cons.2 ⟨fun n hn => (hchain.1 n hn).trans ?_, hchain.2⟩
    simp [mark, push]
  · obtain ⟨hle, hall⟩ := h.opening hopen
    have houter : ∀ n ∈ b.opened.map Prod.snd, first ≥ n := List.forall_mem_map.2 hall
    refine List.pairwise_cons.2 ⟨fun n hn => ?_, List.pairwise_cons.2 ⟨houter, hchain.2⟩⟩
    obtain rfl | hn := List.mem_cons.1 hn
    · exact hle
    · exact hchain.1 n hn
  · rw [hopened, List.map_cons, List.pairwise_cons] at hchain
    have hle : first ≤ b.elements.length := hchain.1 first (List.mem_cons_self ..)
    refine List.pairwise_cons.2 ⟨fun n hn => (hchain.2.1 n hn).trans ?_, hchain.2.2⟩
    simp [mark, wrap, hle]

theorem Nested.run {es : List Event} {b b' : Builder} (h : b.Nested) (hrun : b.run? es = some b') : b'.Nested := by
  induction es generalizing b with
  | nil => exact Option.some.inj hrun ▸ h
  | cons e es ih =>
    obtain ⟨b₁, hstep, hrest⟩ := run?_cons_eq_some.1 hrun
    exact ih (h.step hstep) hrest

/-! ## Balanced events -/

/-- **Balanced.** Events that close every node they open and only those, and open no node that takes up one of the
first `floor` elements. -/
inductive Balanced (floor : Nat) : List Event → Prop
  | nil : Balanced floor []
  | element {e : Event} {g : Green} {rest : List Event} (helement : e.element? = some g)
      (hrest : Balanced floor rest) : Balanced floor (e :: rest)
  | node {e : Event} {inner rest : List Event} (hopens : e.OpensFrom floor) (hinner : Balanced floor inner)
      (hrest : Balanced floor rest) : Balanced floor (e :: (inner ++ .finish :: rest))

theorem Balanced.append {floor : Nat} {es es' : List Event} (h : Balanced floor es) (h' : Balanced floor es') :
    Balanced floor (es ++ es') := by
  induction h with
  | nil => exact h'
  | element helement _ ih => exact .element helement ih
  | node hopens hinner _ _ ih =>
    rw [List.cons_append, List.append_assoc, List.cons_append]
    exact .node hopens hinner ih

/-- **Grows.** Elements that stand behind the first `floor` ones, events, and the elements that then stand there. A
node that is started is over what the events in it make of nothing, and a node at a mark is over what they make of
the elements behind the mark. -/
inductive Grows : Nat → List Green → List Event → List Green → Prop
  | nil {floor : Nat} {gs : List Green} : Grows floor gs [] gs
  | element {floor : Nat} {gs gs' : List Green} {e : Event} {g : Green} {rest : List Event}
      (helement : e.element? = some g) (hrest : Grows floor (gs ++ [g]) rest gs') : Grows floor gs (e :: rest) gs'
  | start {floor : Nat} {gs cs gs' : List Green} {kind : Kind} {id : Id} {inner rest : List Event}
      (hinner : Grows (floor + gs.length) [] inner cs)
      (hrest : Grows floor (gs ++ [.ofChildren id kind cs]) rest gs') :
      Grows floor gs (.start kind :: (inner ++ .finish :: rest)) gs'
  | startAt {floor place : Nat} {gs cs gs' : List Green} {kind : Kind} {id : Id} {inner rest : List Event}
      (hplace : place ≤ gs.length) (hinner : Grows (floor + place) (gs.drop place) inner cs)
      (hrest : Grows floor (gs.take place ++ [.ofChildren id kind cs]) rest gs') :
      Grows floor gs (.startAt (floor + place) kind :: (inner ++ .finish :: rest)) gs'

namespace Grows

theorem append {floor : Nat} {gs gs' gs'' : List Green} {es es' : List Event} (h : Grows floor gs es gs')
    (h' : Grows floor gs' es' gs'') : Grows floor gs (es ++ es') gs'' := by
  induction h with
  | nil => exact h'
  | element helement _ ih => exact .element helement (ih h')
  | start hinner _ _ ih =>
    rw [List.cons_append, List.append_assoc, List.cons_append]
    exact .start hinner (ih h')
  | startAt hplace hinner _ _ ih =>
    rw [List.cons_append, List.append_assoc, List.cons_append]
    exact .startAt hplace hinner (ih h')

theorem tokensAll_eq {floor : Nat} {gs gs' : List Green} {es : List Event} (h : Grows floor gs es gs') :
    Green.tokensAll gs' = Green.tokensAll gs ++ pushed es := by
  induction h with
  | nil => exact (List.append_nil _).symm
  | element helement _ ih =>
    rw [ih]
    simp [pushed, helement]
  | start _ _ ihinner ih =>
    rw [ih, tokensAll_append_ofChildren, ihinner, pushed_node rfl]
    simp
  | @startAt floor place gs _ _ _ _ _ _ _ _ _ ihinner ih =>
    rw [ih, tokensAll_append_ofChildren, ihinner, ← tokensAll_take_drop place gs, pushed_node rfl]
    simp only [List.append_assoc]

/-- A node that a builder opens and closes, inside elements that stand behind the first `floor` ones. -/
theorem node {floor first : Nat} {b : Builder} {cs gs' : List Green} {kind : Kind} {id : Id} {e : Event}
    {inner rest : List Event} (hopening : e.opening? b = some (kind, first)) (hfloor : floor ≤ first)
    (hfirst : first ≤ b.mark) (hinner : Grows first (b.elements.drop first) inner cs)
    (hrest : Grows floor ((b.elements.take first ++ [Green.ofChildren id kind cs]).drop floor) rest gs') :
    Grows floor (b.elements.drop floor) (e :: (inner ++ .finish :: rest)) gs' := by
  have hlength : floor ≤ (b.elements.take first).length := by
    rw [List.length_take]
    exact le_min hfloor (hfloor.trans hfirst)
  rw [List.drop_append_of_le_length hlength, List.drop_take] at hrest
  cases e with
  | start kind' =>
    cases hopening
    have hnone : b.elements.drop b.mark = [] := List.drop_length
    have hall : (b.elements.drop floor).take (b.mark - floor) = b.elements.drop floor :=
      List.take_of_length_le (List.length_drop ..).le
    have hmark : b.mark = floor + (b.elements.drop floor).length := by
      rw [List.length_drop, ← mark, Nat.add_sub_cancel' hfloor]
    rw [hnone, hmark] at hinner
    rw [hall] at hrest
    exact .start hinner hrest
  | startAt mark kind' =>
    obtain ⟨-, hopening⟩ := Option.ite_none_right_eq_some.1 hopening
    cases hopening
    have hplace : first - floor ≤ (b.elements.drop floor).length := by
      rw [List.length_drop]
      exact Nat.sub_le_sub_right hfirst _
    have hinner' : Grows (floor + (first - floor)) ((b.elements.drop floor).drop (first - floor)) inner cs := by
      rwa [List.drop_drop, Nat.add_sub_cancel' hfloor]
    rw [← Nat.add_sub_cancel' hfloor]
    exact .startAt hplace hinner' hrest
  | token | node | push | finish => cases hopening

end Grows

/-- The number of elements before the innermost open node. -/
def bottom (b : Builder) : Nat := (b.opened.head?.map Prod.snd).getD 0

theorem bottom_le_of_forall {b : Builder} {n : Nat} (h : ∀ o ∈ b.opened, o.2 ≤ n) : b.bottom ≤ n := by
  cases hopened : b.opened with
  | nil => simp [bottom, hopened]
  | cons o rest =>
    rw [bottom, hopened]
    exact h o (hopened ▸ List.mem_cons_self ..)

theorem Nested.bottom_le {b : Builder} (h : b.Nested) : b.bottom ≤ b.mark := bottom_le_of_forall fun _ => h.le_mark

/-- A run of balanced events leaves the nodes open that were, and the elements in front of its floor and of the
innermost open node as they are. -/
theorem Balanced.run {floor : Nat} {es : List Event} (h : Balanced floor es) {b b' : Builder} (hnested : b.Nested)
    (hfloor : floor ≤ b.mark) (hrun : b.run? es = some b') :
    b'.opened = b.opened ∧ b'.elements.take (max floor b.bottom) = b.elements.take (max floor b.bottom) ∧
      max floor b.bottom ≤ b'.mark ∧
      Grows (max floor b.bottom) (b.elements.drop (max floor b.bottom)) es
        (b'.elements.drop (max floor b.bottom)) := by
  have hbottom : max floor b.bottom ≤ b.mark := max_le hfloor hnested.bottom_le
  -- the builder differs inside a node, so the induction is over the events and for all builders
  induction h generalizing b b' with
  | nil => exact Option.some.inj hrun ▸ ⟨rfl, rfl, hbottom, .nil⟩
  | @element e g rest helement _ ih =>
    obtain ⟨b₁, hstep, hrest⟩ := run?_cons_eq_some.1 hrun
    have hnested₁ := hnested.step hstep
    obtain rfl := step_of_element helement hstep
    have hgrown : b.mark ≤ (b.push g).mark := by simp [mark, push]
    obtain ⟨hopened, htake, hmark, hgrows⟩ :=
      ih hnested₁ (hfloor.trans hgrown) hrest (hbottom.trans hgrown)
    refine ⟨hopened, htake.trans (List.take_append_of_le_length hbottom), hmark, .element helement ?_⟩
    rwa [← List.drop_append_of_le_length hbottom]
  | @node e inner rest hopens _ _ ihinner ih =>
    obtain ⟨b₁, hstep, hafter⟩ := run?_cons_eq_some.1 hrun
    obtain ⟨b₂, hinner, hfinish⟩ := run?_append_eq_some.1 hafter
    obtain ⟨b₃, hclose, hrest⟩ := run?_cons_eq_some.1 hfinish
    have hnested₁ := hnested.step hstep
    have hnested₃ := (hnested₁.run hinner).step hclose
    obtain ⟨kind, first, hopening, hfirst, rfl⟩ := step_of_opensFrom hopens hfloor hstep
    obtain ⟨hle, hall⟩ := hnested.opening hopening
    have hbehind : max floor b.bottom ≤ first := max_le hfirst (bottom_le_of_forall hall)
    -- inside the node, nothing in front of its start is within reach: that is where the larger floor comes from
    have hinside : max floor (bottom { b with opened := (kind, first) :: b.opened }) = first := max_eq_right hfirst
    obtain ⟨hopened₂, htake₂, hmark₂, hgrows₂⟩ :=
      ihinner (b := { b with opened := (kind, first) :: b.opened }) hnested₁ hfloor hinner (hinside.trans_le hle)
    rw [hinside] at htake₂ hmark₂ hgrows₂
    -- what is closed is the node that `e` opened, since the events in between leave it the innermost one
    obtain rfl := Option.some.inj (hclose.symm.trans (step?_finish hopened₂))
    have htake₃ : b₂.elements.take first = b.elements.take first := htake₂
    have hlength : (b.elements.take first).length = first := List.length_take_of_le hle
    have hmark₃ : first ≤ mark ⟨b.opened, wrap b₂.nextId kind first b₂.elements, b₂.nextId + 1⟩ := by
      simp [mark, wrap, htake₃, hlength]
    obtain ⟨hopened, htake, hmark, hgrows⟩ := ih hnested₃ (hfirst.trans hmark₃) hrest (hbehind.trans hmark₃)
    have hafter : Grows (max floor b.bottom) ((wrap b₂.nextId kind first b₂.elements).drop (max floor b.bottom)) rest
        (b'.elements.drop (max floor b.bottom)) := hgrows
    rw [wrap, htake₃] at hafter
    refine ⟨hopened, htake.trans ?_, hmark, .node hopening hbehind hle hgrows₂ hafter⟩
    show (wrap b₂.nextId kind first b₂.elements).take (max floor b.bottom) = _
    rw [wrap, htake₃, List.take_append_of_le_length (hbehind.trans_eq hlength.symm), List.take_take,
      min_eq_left hbehind]

/-! ## Closing a node -/

/-- **Closing.** Behind the events `before`, the node is closed that `opening` has opened behind the events `outer`,
with the events `inner` in it. It leaves the first `first` elements out, which are as they were. Its children are
what these events make of the elements that stood behind them when it was opened. -/
structure Closing (before outer : List Event) (opening : Event) (inner : List Event) (kind : Kind) (first : Nat)
    (b₀ b₁ : Builder) : Prop where
  split : before = outer ++ opening :: inner
  run_outer : run? {} outer = some b₀
  run_before : run? {} before = some b₁
  opens : opening.opening? b₀ = some (kind, first)
  kept : b₁.elements.take first = b₀.elements.take first
  children : Grows first (b₀.elements.drop first) inner (b₁.elements.drop first)
  closed : run? {} (before ++ [.finish]) =
    some ⟨b₀.opened, b₀.elements.take first ++ [.ofChildren b₁.nextId kind (b₁.elements.drop first)], b₁.nextId + 1⟩

/-- **Enclosed.** Events, and the nodes that are open behind them, the innermost first: what comes before a node is
opened, the event that opens it, and balanced events in it. -/
inductive Enclosed : List Event → List (Kind × Nat) → Prop
  | outermost {es : List Event} (hbalanced : Balanced 0 es) : Enclosed es []
  | inside {outer inner : List Event} {opening : Event} {kind : Kind} {first : Nat} {b₀ : Builder}
      (houter : Enclosed outer b₀.opened) (hrun : run? {} outer = some b₀)
      (hopening : opening.opening? b₀ = some (kind, first)) (hbalanced : Balanced 0 inner) :
      Enclosed (outer ++ opening :: inner) ((kind, first) :: b₀.opened)

theorem Enclosed.append {es es' : List Event} {opened : List (Kind × Nat)} (h : Enclosed es opened)
    (h' : Balanced 0 es') : Enclosed (es ++ es') opened := by
  cases h with
  | outermost hbalanced => exact .outermost (hbalanced.append h')
  | inside houter hrun hopening hbalanced =>
    rw [List.append_assoc, List.cons_append]
    exact .inside houter hrun hopening (hbalanced.append h')

/-- Each node that is open has been opened, with nothing but balanced events in it so far. -/
theorem enclosed_of_run {es : List Event} {b : Builder} (hrun : run? {} es = some b) : Enclosed es b.opened := by
  -- from the last event: only it decides how what is open behind it differs from what was open before
  induction es using List.reverseRecOn generalizing b with
  | nil =>
    obtain rfl := Option.some.inj hrun
    exact .outermost .nil
  | append_singleton es e ih =>
    obtain ⟨b₁, hes, hstep⟩ := run?_append_eq_some.1 hrun
    rw [run?_singleton] at hstep
    obtain ⟨g, hg, rfl⟩ | ⟨kind, first, hopening, -, rfl⟩ | ⟨rfl, kind, first, rest, hopened, rfl⟩ := step_cases hstep
    · exact (ih hes).append (.element hg .nil)
    · exact .inside (ih hes) hes hopening .nil
    · -- closing makes one balanced event of the node and joins it to those in the node around it
      have henclosed := ih hes
      rw [hopened] at henclosed
      cases henclosed with
      | inside houter _ hopening hbalanced =>
        rw [List.append_assoc, List.cons_append]
        exact houter.append (.node (Event.opensFrom_zero hopening) hbalanced .nil)

/-- Where a node is closed there is one to close. -/
theorem closing_of_run {before : List Event} {b : Builder} (hrun : run? {} (before ++ [.finish]) = some b) :
    ∃ outer opening inner kind first b₀ b₁, Closing before outer opening inner kind first b₀ b₁ := by
  obtain ⟨b₁, hbefore, hstep⟩ := run?_append_eq_some.1 hrun
  have henclosed := enclosed_of_run hbefore
  obtain ⟨g, hg, -⟩ | ⟨_, _, hopening, -⟩ | ⟨-, kind, first, rest, hopened, hb⟩ :=
    step_cases ((run?_singleton b₁ .finish).symm.trans hstep)
  · cases hg
  · cases hopening
  rw [hopened] at henclosed
  cases henclosed with
  | @inside outer inner opening _ _ b₀ houter houterrun hopening hbalanced =>
    obtain ⟨b₀', h₀, hinnerrun⟩ := run?_append_eq_some.1 hbefore
    obtain rfl := Option.some.inj (houterrun.symm.trans h₀)
    obtain ⟨b₂, hopen, hinnerrun⟩ := run?_cons_eq_some.1 hinnerrun
    have hnested := nested_empty.run houterrun
    have hnested₂ := hnested.step hopen
    obtain ⟨_, _, hopening', -, rfl⟩ := step_of_opensFrom (Event.opensFrom_zero hopening) (Nat.zero_le _) hopen
    obtain ⟨rfl, rfl⟩ := Prod.mk.inj (Option.some.inj (hopening.symm.trans hopening'))
    obtain ⟨-, hkept, -, hgrows⟩ := hbalanced.run hnested₂ (Nat.zero_le _) hinnerrun
    have hbottom : max 0 (bottom { b₀ with opened := (kind, first) :: b₀.opened }) = first := Nat.zero_max _
    rw [hbottom] at hkept hgrows
    refine ⟨outer, opening, inner, kind, first, b₀, b₁, rfl, houterrun, hbefore, hopening, hkept, hgrows, ?_⟩
    rw [hrun, hb, wrap]
    exact congrArg (fun gs => some (Builder.mk b₀.opened (gs ++ _) _)) hkept

/-- A node is over exactly what has come since its mark, also before it was opened. -/
theorem Closing.since {before outer place mid inner : List Event} {opening : Event} {kind : Kind} {first : Nat}
    {b₀ b₁ b : Builder} (h : Closing before outer opening inner kind first b₀ b₁) (houter : outer = place ++ mid)
    (hplace : run? {} place = some b) (hmark : b.mark = first) (hmid : Balanced first mid) :
    b₀.elements.take first = b.elements ∧ Grows first [] (mid ++ inner) (b₁.elements.drop first) := by
  subst houter hmark
  obtain ⟨b', hb', hmidrun⟩ := run?_append_eq_some.1 h.run_outer
  obtain rfl := Option.some.inj (hplace.symm.trans hb')
  have hnested := nested_empty.run hplace
  obtain ⟨-, hkept, -, hgrows⟩ := hmid.run hnested le_rfl hmidrun
  rw [max_eq_left hnested.bottom_le] at hkept hgrows
  have hall : b.elements.take b.mark = b.elements := List.take_length
  have hnone : b.elements.drop b.mark = [] := List.drop_length
  exact ⟨hkept.trans hall, (hnone ▸ hgrows).append h.children⟩

/-! ## The finished tree -/

theorem finish_eq {b : Builder} (h : b.opened = []) : b.finish = rootOf b.nextId b.elements := by
  rw [finish, h, closeAll]

theorem rootOf_eq_fragment {gs : List Green} (h : ∀ g, gs ≠ [g]) (id : Id) :
    rootOf id gs = .ofChildren id (.node .fragment) gs := by
  match gs with
  | [] => rfl
  | [g] => exact absurd rfl (h g)
  | .token _ :: _ :: _ | .node _ _ :: _ :: _ => rfl

theorem tokens_rootOf {gs : List Green} (h : ∀ t, gs ≠ [.token t]) (id : Id) :
    (rootOf id gs).tokens = Green.tokensAll gs := by
  by_cases hone : ∃ g, gs = [g]
  · obtain ⟨g, rfl⟩ := hone
    cases g with
    | token t => exact absurd rfl (h t)
    | node hd cs => exact (List.append_nil _).symm
  · rw [rootOf_eq_fragment (not_exists.1 hone)]
    rfl

/-- When all nodes are closed, the elements at the top are what the events make of nothing. -/
theorem grows_of_run {es : List Event} {b : Builder} (hrun : run? {} es = some b) (hclosed : b.opened = []) :
    Grows 0 [] es b.elements := by
  have henclosed := enclosed_of_run hrun
  rw [hclosed] at henclosed
  cases henclosed with
  | outermost hbalanced =>
    obtain ⟨-, -, -, hgrows⟩ := hbalanced.run nested_empty (Nat.zero_le _) hrun
    exact hgrows

/-- **A builder loses nothing.** A finished tree has the tokens of all elements that were brought, in their order, but
for a token that stands alone at the top. A node that is closed is over what has come since it was started, or since
the mark was set at which it was opened. The tree is the only element at the top if that is a node, and a fragment over
all of them if they are none or more than one. -/
theorem finish_spec {es : List Event} {b : Builder} (hrun : run? {} es = some b) (hclosed : b.opened = []) :
    Grows 0 [] es b.elements ∧
      ((∀ t, b.elements ≠ [.token t]) → b.finish.tokens = pushed es) ∧
      (∀ before after, es = before ++ .finish :: after → ∃ outer opening inner kind first b₀ b₁,
        Closing before outer opening inner kind first b₀ b₁ ∧
        Green.tokensAll (b₁.elements.drop first) = Green.tokensAll (b₀.elements.drop first) ++ pushed inner ∧
        ∀ place mid b', outer = place ++ mid → run? {} place = some b' → b'.mark = first → Balanced first mid →
          b₀.elements.take first = b'.elements ∧ Grows first [] (mid ++ inner) (b₁.elements.drop first) ∧
          Green.tokensAll (b₁.elements.drop first) = pushed (mid ++ inner)) ∧
      (∀ h cs, b.elements = [.node h cs] → b.finish = .node h cs) ∧
      (∀ t, b.elements = [.token t] → b.finish = .ofChildren b.nextId (.node .fragment) []) ∧
      ((∀ g, b.elements ≠ [g]) → b.finish = .ofChildren b.nextId (.node .fragment) b.elements) := by
  have htokens : Green.tokensAll b.elements = pushed es := tokensAll_run hrun
  rw [finish_eq hclosed]
  refine ⟨grows_of_run hrun hclosed, fun hlone => ?_, fun before after hsplit => ?_, fun h cs hgs => ?_,
    fun t hgs => ?_, fun hmany => rootOf_eq_fragment hmany _⟩
  · rw [tokens_rootOf hlone, htokens]
  · rw [hsplit, List.append_cons] at hrun
    obtain ⟨b₂, hbefore, -⟩ := run?_append_eq_some.1 hrun
    obtain ⟨outer, opening, inner, kind, first, b₀, b₁, hclosing⟩ := closing_of_run hbefore
    refine ⟨outer, opening, inner, kind, first, b₀, b₁, hclosing, hclosing.children.tokensAll_eq, ?_⟩
    intro place mid b' houter hplace hmark hmid
    obtain ⟨hkept, hgrows⟩ := hclosing.since houter hplace hmark hmid
    exact ⟨hkept, hgrows, hgrows.tokensAll_eq⟩
  · rw [hgs, rootOf]
  · rw [hgs, rootOf]

/-- A sum in a statement: the node of the sum is opened when its first operand has been brought. -/
theorem finish_spec_sum : ∃ (es : List Event) (b : Builder) (x plus y : Token),
    es = [.start (.node .exprStmt), .token x, .startAt 0 (.node .binaryExpr), .token plus, .token y, .finish,
      .finish] ∧
    run? {} es = some b ∧ b.opened = [] ∧ b.finish.tokens = [x, plus, y] ∧
    ∃ id id', b.finish = .ofChildren id (.node .exprStmt)
      [.ofChildren id' (.node .binaryExpr) [.token x, .token plus, .token y]] := by
  let x : Token := ⟨0, { kind := .token .ident, text := ['x'] }⟩
  let plus : Token := ⟨1, { kind := .token (.punct .plus), text := ['+'] }⟩
  let y : Token := ⟨2, { kind := .token .ident, text := ['y'] }⟩
  let es : List Event := [.start (.node .exprStmt), .token x, .startAt 0 (.node .binaryExpr), .token plus, .token y,
    .finish, .finish]
  obtain ⟨b, hrun⟩ : ∃ b, run? {} es = some b := ⟨_, rfl⟩
  cases hrun
  obtain ⟨-, htokens, -, hnode, -⟩ := @finish_spec es _ rfl rfl
  exact ⟨es, _, x, plus, y, rfl, rfl, rfl, htokens (fun _ hgs => nomatch hgs), 1, 0, hnode _ _ rfl⟩

/-- A token that stands alone at the top is lost. -/
theorem exists_lone_token_lost : ∃ (t : Token) (b : Builder), run? {} [.token t] = some b ∧ b.opened = [] ∧
    pushed [.token t] = [t] ∧ b.finish = .ofChildren b.nextId (.node .fragment) [] ∧ b.finish.tokens = [] :=
  ⟨⟨0, { kind := .token .ident, text := ['a'] }⟩, _, rfl, rfl, rfl, rfl, rfl⟩

end Builder

end IncrementalSyntax

import IncrementalSyntax.Proofs.Green.Lookup
import IncrementalSyntax.Proofs.Red.Places

/-!
# Following a path

A path of child indices leads from a place to one place below it, and every place below is reached by one
path. Which element stands there, and at which offset, depends on the element at the start alone, not on
what lies above it.

## Main definitions

* `Green.locate?`: the element at the end of a path, with its offset

## Main results

* `Red.follow?_map`: following a path comes to what `locate?` finds
* `Red.mem_descendants_iff`: the places below a place are those that paths lead to
* `Red.follow?_inj`: two paths lead to two places
* `Red.replaceWith_induction`: what holds of a root with another element at the end of a path
* `Red.Inside.of_mem_descendants`: a place lies in the range of every place above it
-/

namespace IncrementalSyntax

/-! ## Elements and their offsets -/

namespace Green

theorem widthAll_eq_sum (cs : List Green) : widthAll cs = (cs.map width).sum := by
  induction cs with
  | nil => rfl
  | cons c cs ih => rw [widthAll, List.map_cons, List.sum_cons, ih]

theorem widthAll_append (as bs : List Green) : widthAll (as ++ bs) = widthAll as + widthAll bs := by
  rw [widthAll_eq_sum, widthAll_eq_sum, widthAll_eq_sum, List.map_append, List.sum_append]

/-- Elements in a row, cut in two. -/
theorem widthAll_take_add_drop (cs : List Green) (i : Nat) :
    widthAll (cs.take i) + widthAll (cs.drop i) = widthAll cs := by
  rw [← widthAll_append, List.take_append_drop]

/-- Behind one more element the offset is larger by its width. -/
theorem widthAll_take_succ {cs : List Green} {i : Nat} {c : Green} (hc : cs[i]? = some c) :
    widthAll (cs.take (i + 1)) = widthAll (cs.take i) + c.width := by
  obtain ⟨hi, rfl⟩ := List.getElem?_eq_some_iff.1 hc
  rw [widthAll_eq_sum, widthAll_eq_sum, List.take_succ_eq_append_getElem hi, List.map_append, List.sum_append]
  simp

/-- An element in a row ends no later than the row. -/
theorem widthAll_take_add_width_le {cs : List Green} {i : Nat} {c : Green} (hc : cs[i]? = some c) :
    widthAll (cs.take i) + c.width ≤ widthAll cs := by
  rw [← widthAll_take_succ hc, ← widthAll_take_add_drop cs (i + 1)]
  exact Nat.le_add_right _ _

theorem widthAll_take_le_take (cs : List Green) {i j : Nat} (h : i ≤ j) :
    widthAll (cs.take i) ≤ widthAll (cs.take j) := by
  rw [← widthAll_take_add_drop (cs.take j) i, List.take_take, Nat.min_eq_left h]
  exact Nat.le_add_right _ _

/-- The width of an exact element that has children is that of its children. -/
theorem Exact.width_eq_of_children {g : Green} (h : g.Exact) (hnode : g.isNode = true) :
    g.width = widthAll g.children := by
  cases g with
  | token t => cases hnode
  | node hd cs => exact h.1.width

theorem getElem?_offsetsFrom (cs : List Green) (start i : Nat) :
    (offsetsFrom start cs)[i]? = if i < cs.length then some (start + widthAll (cs.take i)) else none := by
  induction cs generalizing start i with
  | nil => rfl
  | cons c cs ih =>
    cases i with
    | zero => rfl
    | succ i => simp [offsetsFrom, ih, widthAll, Nat.add_assoc]

theorem Summarizes.childOffset?_eq {hd : Header} {cs : List Green} (h : Summarizes hd cs) (i : Nat) :
    (node hd cs).childOffset? i = (offsetsFrom 0 cs)[i]? :=
  congrArg (·[i]?) h.offsets

/-- An exact element keeps the offsets of its children. -/
theorem Exact.childOffset?_eq {g : Green} (h : g.Exact) (i : Nat) :
    g.childOffset? i = (offsetsFrom 0 g.children)[i]? := by
  cases g with
  | token t => rfl
  | node hd cs => exact h.1.childOffset?_eq i

/-- The offset that is kept of a child is the width of all that stands in front of it. -/
theorem Exact.childOffset?_of_lt {g : Green} (h : g.Exact) {i : Nat} (hi : i < g.children.length) :
    g.childOffset? i = some (widthAll (g.children.take i)) := by
  rw [h.childOffset?_eq, getElem?_offsetsFrom, if_pos hi, Nat.zero_add]

theorem Exact.childOffset?_of_le {g : Green} (h : g.Exact) {i : Nat} (hi : g.children.length ≤ i) :
    g.childOffset? i = none := by
  rw [h.childOffset?_eq, getElem?_offsetsFrom, if_neg (Nat.not_lt_of_le hi)]

/-- A child of an exact element stands behind all that stands in front of it. -/
theorem Exact.childStart_eq {g c : Green} {i : Nat} (h : g.Exact) (hc : g.children[i]? = some c) :
    g.childStart i = widthAll (g.children.take i) := by
  rw [childStart, h.childOffset?_of_lt (List.getElem?_eq_some_iff.1 hc).1, Option.getD_some]

theorem Exact.childStart_of_append {g c : Green} {before behind : List Green} (h : g.Exact)
    (hchildren : g.children = before ++ c :: behind) : g.childStart before.length = widthAll before := by
  have hc : g.children[before.length]? = some c := by simp [hchildren]
  rw [h.childStart_eq hc, hchildren, List.take_left]

/-- Where children stand depends on their widths alone. -/
theorem offsetsFrom_congr {as bs : List Green} (h : as.map width = bs.map width) (start : Nat) :
    offsetsFrom start as = offsetsFrom start bs := by
  induction as generalizing bs start with
  | nil =>
    cases bs with
    | nil => rfl
    | cons b bs => cases h
  | cons a as ih =>
    cases bs with
    | nil => cases h
    | cons b bs =>
      obtain ⟨hwidth, hrest⟩ := List.cons.inj h
      rw [offsetsFrom, offsetsFrom, hwidth, ih hrest]

theorem Exact.childStart_congr {g g' : Green} (h : g.Exact) (h' : g'.Exact)
    (hwidths : g'.children.map width = g.children.map width) (i : Nat) : g'.childStart i = g.childStart i := by
  rw [childStart, childStart, h.childOffset?_eq, h'.childOffset?_eq, offsetsFrom_congr hwidths]

theorem Exact.of_getElem? {g c : Green} {i : Nat} (h : g.Exact) (hc : g.children[i]? = some c) : c.Exact := by
  cases g with
  | token t => simp [children] at hc
  | node hd cs => exact h.of_mem (List.mem_of_getElem? hc)

theorem isNode_of_getElem? {g c : Green} {i : Nat} (hc : g.children[i]? = some c) : g.isNode = true := by
  cases g with
  | token t => simp [children] at hc
  | node hd cs => rfl

/-- **Location.** The element at the end of a path of child indices, with its offset. The path begins at an
element that stands at `start`. -/
def locate? (g : Green) (start : Nat) : List Nat → Option (Green × Nat)
  | [] => some (g, start)
  | i :: path => g.children[i]?.bind fun c => c.locate? (start + g.childStart i) path

end Green

namespace Red

variable {r s d : Red} {g : Green} {p q : List Nat}

/-! ## Paths -/

/-- Following a path comes to the element that the path locates. -/
theorem follow?_map (r : Red) (q : List Nat) :
    (r.follow? q).map (fun s => (s.green, s.offset)) = r.green.locate? r.offset q := by
  induction q generalizing r with
  | nil => rfl
  | cons i q ih =>
    rw [follow?, Green.locate?, child?]
    cases r.green.children[i]? with
    | none => rfl
    | some c => exact ih (r.below i c)

theorem locate?_of_follow? (h : r.follow? q = some s) :
    r.green.locate? r.offset q = some (s.green, s.offset) := by
  rw [← follow?_map, h, Option.map_some]

theorem exists_follow?_of_locate? {o : Nat} (h : r.green.locate? r.offset q = some (g, o)) :
    ∃ s, r.follow? q = some s ∧ s.green = g ∧ s.offset = o := by
  rw [← follow?_map, Option.map_eq_some_iff] at h
  obtain ⟨s, hs, heq⟩ := h
  exact ⟨s, hs, congrArg Prod.fst heq, congrArg Prod.snd heq⟩

theorem follow?_append (r : Red) (p q : List Nat) :
    r.follow? (p ++ q) = (r.follow? p).bind fun s => s.follow? q := by
  induction p generalizing r with
  | nil => rfl
  | cons i p ih =>
    rw [List.cons_append, follow?, follow?]
    cases r.child? i with
    | none => rfl
    | some c => exact ih c

theorem follow?_cons_eq_some_iff {i : Nat} :
    r.follow? (i :: q) = some s ↔ ∃ c, r.child? i = some c ∧ c.follow? q = some s := by
  rw [follow?]
  cases r.child? i <;> simp

/-- The path of a place that was followed to is the one that was followed. -/
theorem path_of_follow? (h : r.follow? q = some s) : s.path = r.path ++ q := by
  induction q generalizing r with
  | nil =>
    obtain rfl : r = s := Option.some.inj h
    rw [List.append_nil]
  | cons i q ih =>
    obtain ⟨c, hc, hs⟩ := follow?_cons_eq_some_iff.1 h
    rw [ih hs, path, path, above_of_child? hc]
    simp

/-- Two paths lead to two places. -/
theorem follow?_inj (hp : r.follow? p = some s) (hq : r.follow? q = some s) : p = q :=
  List.append_cancel_left ((path_of_follow? hp).symm.trans (path_of_follow? hq))

/-! ## Copies of the way up -/

/-- What holds of a copy of an element with the next identity, and carries over to the copy of the node around it, holds
of a copy of the whole way up. -/
theorem rebuild_induction {P : List Nat → Green → Green → Id → Prop}
    (inside : ∀ {h cs i c c' path n}, cs[i]? = some c → P path c c' n →
      P (i :: path) (.node h cs) ((Green.node h cs).replaceChild n i c') (n + 1))
    (hr : r.follow? q = some s) {n : Id} (hg : P [] s.green g n) :
    ∃ g' n', P q r.green g' n' ∧ rebuild g n s.above = rebuild g' n' r.above := by
  induction q generalizing r with
  | nil =>
    obtain rfl : r = s := Option.some.inj hr
    exact ⟨g, n, hg, rfl⟩
  | cons i q ih =>
    obtain ⟨c, hc, hr⟩ := follow?_cons_eq_some_iff.1 hr
    obtain ⟨g', n', hg', hrebuild⟩ := ih hr
    have hi := (child?_eq_some_iff.1 hc).1
    -- the copy of the child goes into a copy of the node, which has the next identity
    refine ⟨r.green.replaceChild n' i g', n' + 1, ?_, ?_⟩
    · cases hgreen : r.green with
      | token t => simp [hgreen, Green.children] at hi
      | node h cs =>
        rw [hgreen] at hi
        exact inside hi hg'
    · rw [hrebuild, above_of_child? hc, rebuild]

/-- **Replacing an element.** What holds of the element that is put at a place, and carries over to the copy of the node
around it, holds of the new root. -/
theorem replaceWith_induction {P : List Nat → Green → Green → Id → Prop}
    (inside : ∀ {h cs i c c' path n}, cs[i]? = some c → P path c c' n →
      P (i :: path) (.node h cs) ((Green.node h cs).replaceChild n i c') (n + 1))
    {root : Green} (hr : (ofRoot root).follow? q = some s) {n : Id} (hg : P [] s.green g n) :
    P q root (s.replaceWith n g).1 (s.replaceWith n g).2 := by
  obtain ⟨g', n', hg', hrebuild⟩ := rebuild_induction inside hr hg
  rw [replaceWith, hrebuild]
  exact hg'

/-! ## Places below a place -/

/-- **From the children up.** What holds of a place if it holds of all its children holds of every place. -/
theorem child_induction {motive : Red → Prop} (step : ∀ r, (∀ i c, r.child? i = some c → motive c) → motive r)
    (r : Red) : motive r := by
  obtain ⟨g, offset, above⟩ := r
  induction g using Green.induction generalizing offset above with
  | token t =>
    refine step _ fun i c hc => ?_
    have hi := (child?_eq_some_iff.1 hc).1
    simp [Green.children] at hi
  | node hd cs ih =>
    refine step _ fun i c hc => ?_
    exact ih c.green (List.mem_of_getElem? (child?_eq_some_iff.1 hc).1) c.offset c.above

theorem mem_descendants_self (r : Red) : r ∈ r.descendants := by
  obtain ⟨g, offset, above⟩ := r
  cases g <;> exact List.mem_cons_self

/-- What lies at or below an element in a row lies below the row. -/
theorem mem_walkAll_of_getElem? {parent : Red} {c : Green} {index i : Nat} {cs : List Green} (hc : cs[i]? = some c)
    (hd : d ∈ (parent.below (index + i) c).descendants) : d ∈ walkAll parent index cs := by
  induction cs generalizing index i with
  | nil => simp at hc
  | cons e cs ih =>
    cases i with
    | zero =>
      obtain rfl : e = c := by simpa using hc
      exact List.mem_append_left _ hd
    | succ i =>
      -- in the row behind the first element all indices are smaller by one
      refine List.mem_append_right _ (@ih (index + 1) i (by simpa using hc) ?_)
      rwa [Nat.add_right_comm index 1 i]

theorem mem_descendants_of_child? {c : Red} {i : Nat} (hc : r.child? i = some c) (hd : d ∈ c.descendants) :
    d ∈ r.descendants := by
  obtain ⟨hi, heq⟩ := child?_eq_some_iff.1 hc
  obtain ⟨g, offset, above⟩ := r
  cases g with
  | token t => simp [Green.children] at hi
  | node hd' cs =>
    rw [heq] at hd
    refine List.mem_cons_of_mem _ (mem_walkAll_of_getElem? hi ?_)
    rwa [Nat.zero_add]

/-- A place below a place is the place itself, or lies at or below one of the children. -/
theorem eq_or_exists_of_mem_descendants (h : d ∈ r.descendants) :
    d = r ∨ ∃ i c, r.child? i = some c ∧ d ∈ c.descendants := by
  obtain ⟨g, offset, above⟩ := r
  cases g with
  | token t => exact .inl (by simpa [descendants, walk] using h)
  | node hd cs =>
    rcases List.mem_cons.1 h with rfl | h
    · exact .inl rfl
    · obtain ⟨i, c, hc, hr⟩ := exists_of_mem_walkAll h
      rw [Nat.zero_add] at hr
      exact .inr ⟨i, below _ i c, child?_eq_some_iff.2 ⟨hc, rfl⟩, hr⟩

/-- The places below a place are those that paths lead to. -/
theorem mem_descendants_iff : d ∈ r.descendants ↔ ∃ q, r.follow? q = some d := by
  constructor
  · refine forall_descendants (P := fun d => ∃ q, r.follow? q = some d) ?_ ⟨[], rfl⟩ d
    rintro s i c ⟨q, hq⟩ hc
    refine ⟨q ++ [i], ?_⟩
    rw [follow?_append, hq, Option.bind_some, follow?, hc]
    rfl
  · rintro ⟨q, hq⟩
    induction q generalizing r with
    | nil =>
      obtain rfl : r = d := Option.some.inj hq
      exact mem_descendants_self r
    | cons i q ih =>
      obtain ⟨c, hc, hs⟩ := follow?_cons_eq_some_iff.1 hq
      exact mem_descendants_of_child? hc (ih hs)

/-- **Inside.** The second place has exact elements below it, and lies in the range of the first one. -/
structure Inside (r d : Red) : Prop where
  exact : d.green.Exact
  le_offset : r.offset ≤ d.offset
  stop_le : d.fullRange.stop ≤ r.fullRange.stop

theorem exact_of_child? {c : Red} {i : Nat} (h : r.green.Exact) (hc : r.child? i = some c) : c.green.Exact :=
  h.of_getElem? (child?_eq_some_iff.1 hc).1

/-- A child of an exact element stands behind the start of its parent by the widths of the siblings in front of it. -/
theorem offset_of_child? {c : Red} {i : Nat} (h : r.green.Exact) (hc : r.child? i = some c) :
    c.offset = r.offset + Green.widthAll (r.green.children.take i) := by
  obtain ⟨hi, heq⟩ := child?_eq_some_iff.1 hc
  rw [← h.childStart_eq hi]
  exact congrArg Red.offset heq

theorem Inside.refl (h : r.green.Exact) : r.Inside r := ⟨h, le_rfl, le_rfl⟩

theorem Inside.child {c : Red} {i : Nat} (h : r.Inside s) (hc : s.child? i = some c) : r.Inside c := by
  have hi := (child?_eq_some_iff.1 hc).1
  have hoffset := offset_of_child? h.exact hc
  have hwidth := h.exact.width_eq_of_children (Green.isNode_of_getElem? hi)
  have hle := Green.widthAll_take_add_width_le hi
  have hstop := h.stop_le
  refine ⟨h.exact.of_getElem? hi, ?_, ?_⟩
  · exact h.le_offset.trans (hoffset ▸ Nat.le_add_right _ _)
  · simp only [Range.stop, fullRange] at hstop ⊢
    omega

/-- A place lies in the range of every place above it. -/
theorem Inside.of_mem_descendants (h : r.green.Exact) (hd : d ∈ r.descendants) : r.Inside d :=
  forall_descendants (fun _ _ _ hs hc => hs.child hc) (Inside.refl h) d hd

end Red

end IncrementalSyntax

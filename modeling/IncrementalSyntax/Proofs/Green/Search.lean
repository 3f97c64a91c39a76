import IncrementalSyntax.Green.Search
import IncrementalSyntax.Proofs.Red.Paths

/-!
# Searches and walks

Going from child to child by halving comes to the same tokens and nodes as a walk through the children from
left to right. Elements of no width are never entered by a walk, so a tree without them has the same answers.

## Main definitions

* `Green.across`: a walk through elements in a row up to an offset
* `Green.tokenHolding?`: the walk to the token whose range holds an offset
* `Green.thin`: a tree without the elements of no width

## Main results

* `partitionPoint_spec`: where the halving search stops
* `Green.childAt?_eq_some_iff`: the child that is found is the one whose range holds the offset
* `Green.findToken?_eq`, `Green.findNode?_eq`: searches and walks have the same answers
* `Green.tokenBelow?_thin`, `Green.nodeStarting?_thin`: elements of no width do not matter
-/

namespace IncrementalSyntax

/-- **Halving.** If `p` fails further on wherever it fails, then it holds in front of the number that is found,
and fails from there on. -/
theorem partitionPoint_spec {p : Nat → Bool} (hp : ∀ i j, i ≤ j → p j = true → p i = true) {lo hi : Nat}
    (h : lo ≤ hi) : lo ≤ partitionPoint p lo hi ∧ partitionPoint p lo hi ≤ hi ∧
      (∀ i, lo ≤ i → i < partitionPoint p lo hi → p i = true) ∧
      ∀ i, partitionPoint p lo hi ≤ i → i < hi → p i = false := by
  fun_induction partitionPoint p lo hi with
  | case1 lo hi hlt mid hmid ih =>
    -- `p` holds in the middle, and so in front of it
    have hle : mid + 1 ≤ hi := by omega
    obtain ⟨hlo, hhi, hbelow, habove⟩ := ih hle
    refine ⟨by omega, hhi, ?_, habove⟩
    intro i _ hlt'
    rcases Nat.lt_or_ge mid i with hi' | hi'
    · exact hbelow i hi' hlt'
    · exact hp i mid hi' hmid
  | case2 lo hi hlt mid hmid ih =>
    -- `p` fails in the middle, and so behind it
    have hle : lo ≤ mid := by omega
    obtain ⟨hlo, hhi, hbelow, habove⟩ := ih hle
    refine ⟨hlo, by omega, hbelow, ?_⟩
    intro i hge hlt'
    rcases Nat.lt_or_ge i mid with hi' | hi'
    · exact habove i hge hi'
    · exact Bool.eq_false_iff.2 fun hpi => hmid (hp mid i hi' hpi)
  | case3 lo hi hge =>
    refine ⟨le_rfl, h, ?_, ?_⟩
    · intro i hle hlt
      omega
    · intro i hle hlt
      omega

namespace Green

variable {g c : Green} {cs : List Green} {i n offset start : Nat}

/-! ## Children -/

/-- The width of the element with an index in a row. -/
def widthAt (cs : List Green) (i : Nat) : Nat := (cs[i]?.map width).getD 0

theorem lastWide?_eq_some_iff : lastWide? cs n = some i ↔
    i < n ∧ widthAt cs i ≠ 0 ∧ ∀ j, i < j → j < n → widthAt cs j = 0 := by
  induction n with
  | zero => simp [lastWide?]
  | succ n ih =>
    have hdef : lastWide? cs (n + 1) = if widthAt cs n = 0 then lastWide? cs n else some n := rfl
    rw [hdef]
    split_ifs with hzero
    · rw [ih]
      constructor
      · rintro ⟨hlt, hpos, hbehind⟩
        refine ⟨hlt.trans (Nat.lt_succ_self n), hpos, ?_⟩
        intro j hij hj
        rcases Nat.lt_succ_iff_lt_or_eq.1 hj with hj | rfl
        · exact hbehind j hij hj
        · exact hzero
      · rintro ⟨hlt, hpos, hbehind⟩
        have hne : i ≠ n := fun h => hpos (h ▸ hzero)
        exact ⟨by omega, hpos, fun j hij hj => hbehind j hij (hj.trans (Nat.lt_succ_self n))⟩
    · constructor
      · intro h
        obtain rfl : n = i := Option.some.inj h
        exact ⟨Nat.lt_succ_self n, hzero, fun j hij hj => by omega⟩
      · rintro ⟨hlt, hpos, hbehind⟩
        by_contra hne
        have hlt' : i < n := by
          have : n ≠ i := fun h => hne (congrArg some h)
          omega
        exact hzero (hbehind n hlt' (Nat.lt_succ_self n))

theorem lastWide?_eq_none_iff : lastWide? cs n = none ↔ ∀ j < n, widthAt cs j = 0 := by
  induction n with
  | zero => simp [lastWide?]
  | succ n ih =>
    have hdef : lastWide? cs (n + 1) = if widthAt cs n = 0 then lastWide? cs n else some n := rfl
    rw [hdef]
    split_ifs with hzero
    · rw [ih]
      constructor
      · intro h j hj
        rcases Nat.lt_succ_iff_lt_or_eq.1 hj with hj | rfl
        · exact h j hj
        · exact hzero
      · exact fun h j hj => h j (hj.trans (Nat.lt_succ_self n))
    · exact ⟨nofun, fun h => absurd (h n (Nat.lt_succ_self n)) hzero⟩

/-- Elements of no width do not move what comes behind them. -/
theorem widthAll_take_eq_of_zero {k : Nat} (h : ∀ j, i ≤ j → j < k → widthAt cs j = 0) (hik : i ≤ k) :
    widthAll (cs.take k) = widthAll (cs.take i) := by
  induction k, hik using Nat.le_induction with
  | base => rfl
  | succ k hik ih =>
    rw [← ih fun j hij hj => h j hij (hj.trans (Nat.lt_succ_self k))]
    have hzero := h k hik (Nat.lt_succ_self k)
    rw [widthAt] at hzero
    cases hk : cs[k]? with
    | none =>
      rw [List.getElem?_eq_none_iff] at hk
      rw [List.take_of_length_le hk, List.take_of_length_le (hk.trans (Nat.le_succ k))]
    | some d =>
      rw [hk, Option.map_some, Option.getD_some] at hzero
      rw [widthAll_take_succ hk, hzero, Nat.add_zero]

/-- The children that start at the offset or in front of it come first. -/
theorem starts_antitone (hg : g.Exact) (offset : Nat) (i j : Nat) (hij : i ≤ j)
    (hj : (g.childOffset? j).any (· ≤ offset) = true) : (g.childOffset? i).any (· ≤ offset) = true := by
  have hle := widthAll_take_le_take g.children hij
  rcases Nat.lt_or_ge j g.children.length with hlt | hge
  · rw [hg.childOffset?_of_lt hlt, Option.any_some, decide_eq_true_eq] at hj
    rw [hg.childOffset?_of_lt (hij.trans_lt hlt), Option.any_some, decide_eq_true_eq]
    exact hle.trans hj
  · rw [hg.childOffset?_of_le hge] at hj
    cases hj

/-- What the halving search and the steps back come to. -/
theorem childAt?_cases (hg : g.Exact) (hnode : g.isNode = true) (hlt : offset < g.width) :
    ∃ k, g.childAt? offset = lastWide? g.children k ∧ offset < widthAll (g.children.take k) ∧
      k ≤ g.children.length ∧ (∀ i < k, widthAll (g.children.take i) ≤ offset) ∧
      ∀ i, k ≤ i → i < g.children.length → offset < widthAll (g.children.take i) := by
  have hstarts : ∀ i, i < g.children.length →
      ((g.childOffset? i).any (· ≤ offset) = true ↔ widthAll (g.children.take i) ≤ offset) := by
    intro i hi
    rw [hg.childOffset?_of_lt hi, Option.any_some, decide_eq_true_eq]
  obtain ⟨-, hle, hbelow, habove⟩ := partitionPoint_spec (starts_antitone hg offset) (Nat.zero_le g.children.length)
  refine ⟨_, if_neg (Nat.not_le_of_lt hlt), ?_, hle, ?_, ?_⟩
  · -- the search stops at a child that starts behind the offset, or behind all children
    rcases Nat.lt_or_eq_of_le hle with hk | hk
    · have hfalse := habove _ le_rfl hk
      by_contra hnot
      rw [(hstarts _ hk).2 (Nat.le_of_not_lt hnot)] at hfalse
      cases hfalse
    · rwa [hk, List.take_length, ← hg.width_eq_of_children hnode]
  · intro i hi
    exact (hstarts i (hi.trans_le hle)).1 (hbelow i (Nat.zero_le i) hi)
  · intro i hki hi
    have hfalse := habove i hki hi
    by_contra hnot
    rw [(hstarts i hi).2 (Nat.le_of_not_lt hnot)] at hfalse
    cases hfalse

/-- **Children at offsets.** The child that is found is the one whose range holds the offset. -/
theorem childAt?_eq_some_iff (hg : g.Exact) (hnode : g.isNode = true) : g.childAt? offset = some i ↔
    ∃ c, g.children[i]? = some c ∧ widthAll (g.children.take i) ≤ offset ∧
      offset < widthAll (g.children.take i) + c.width := by
  constructor
  · intro h
    have hlt : offset < g.width := by
      by_contra hnot
      rw [childAt?, if_pos (Nat.le_of_not_lt hnot)] at h
      cases h
    obtain ⟨k, hk, hoffset, hle, hbelow, -⟩ := childAt?_cases hg hnode hlt
    obtain ⟨hik, -, hzero⟩ := lastWide?_eq_some_iff.1 (hk.symm.trans h)
    have hget : g.children[i]? = some g.children[i] := List.getElem?_eq_getElem (hik.trans_le hle)
    refine ⟨_, hget, hbelow i hik, ?_⟩
    -- the children that were stepped over have no width, so the offset lies in front of the end of this one
    rwa [widthAll_take_eq_of_zero (fun j hij => hzero j hij) hik, widthAll_take_succ hget] at hoffset
  · rintro ⟨c, hc, hle, hlt⟩
    have hwhole : offset < g.width := by
      rw [hg.width_eq_of_children hnode]
      exact hlt.trans_le (widthAll_take_add_width_le hc)
    obtain ⟨k, hk, -, hlen, hbelow, habove⟩ := childAt?_cases hg hnode hwhole
    have hi := (List.getElem?_eq_some_iff.1 hc).1
    have hik : i < k := by
      by_contra hnot
      exact absurd hle (Nat.not_le_of_lt (habove i (Nat.le_of_not_lt hnot) hi))
    rw [hk, lastWide?_eq_some_iff]
    refine ⟨hik, ?_, ?_⟩
    · rw [widthAt, hc, Option.map_some, Option.getD_some]
      omega
    · -- no child behind this one starts at the offset or in front of it
      intro j hij hj
      have hbehind := widthAll_take_le_take g.children hij
      rw [widthAll_take_succ hc] at hbehind
      have := hbelow j hj
      omega

/-- No child is found just if the offset lies behind all of them. -/
theorem childAt?_eq_none_iff (hg : g.Exact) (hnode : g.isNode = true) : g.childAt? offset = none ↔ g.width ≤ offset := by
  constructor
  · intro h
    by_contra hnot
    obtain ⟨k, hk, hoffset, -⟩ := childAt?_cases hg hnode (Nat.lt_of_not_le hnot)
    have hzero := lastWide?_eq_none_iff.1 (hk.symm.trans h)
    rw [widthAll_take_eq_of_zero (fun j _ hj => hzero j hj) (Nat.zero_le k), List.take_zero] at hoffset
    exact Nat.not_lt_zero _ hoffset
  · exact fun h => if_pos h

/-- The child that is gone down to. -/
theorem childAcross?_eq_some (hg : g.Exact) (hnode : g.isNode = true) {below : Nat}
    (h : g.childAcross? start offset = some (below, c)) : ∃ i, g.children[i]? = some c ∧
      below = start + widthAll (g.children.take i) ∧ widthAll (g.children.take i) ≤ offset - start ∧
      offset - start < widthAll (g.children.take i) + c.width := by
  obtain ⟨i, hi, hmap⟩ := Option.bind_eq_some_iff.1 h
  obtain ⟨d, hd, heq⟩ := Option.map_eq_some_iff.1 hmap
  cases heq
  obtain ⟨c', hc', hle, hlt⟩ := (childAt?_eq_some_iff hg hnode).1 hi
  obtain rfl : c = c' := Option.some.inj (hd.symm.trans hc')
  exact ⟨i, hd, by rw [hg.childStart_eq hd], hle, hlt⟩

theorem childAcross?_eq_none_iff (hg : g.Exact) (hnode : g.isNode = true) :
    g.childAcross? start offset = none ↔ g.width ≤ offset - start := by
  rw [← childAt?_eq_none_iff hg hnode, childAcross?]
  cases hi : g.childAt? (offset - start) with
  | none => simp
  | some i =>
    obtain ⟨c, hc, -⟩ := (childAt?_eq_some_iff hg hnode).1 hi
    simp [hc]

/-! ## Walks -/

/-- **Walk.** From left to right up to the element whose range holds the offset, and on inside it. -/
def across {α : Type} (f : Green → Nat → Option α) : List Green → Nat → Option α
  | [], _ => none
  | c :: cs, offset => if offset < c.width then f c offset else across f cs (offset - c.width)

section Walks

variable {α β : Type} {f f' : Green → Nat → Option α}

/-- A walk goes on inside the element whose range holds the offset. -/
theorem across_of_getElem? (hc : cs[i]? = some c) (hle : widthAll (cs.take i) ≤ offset)
    (hlt : offset < widthAll (cs.take i) + c.width) : across f cs offset = f c (offset - widthAll (cs.take i)) := by
  induction cs generalizing i offset with
  | nil => simp at hc
  | cons d cs ih =>
    cases i with
    | zero =>
      obtain rfl : c = d := by simpa [eq_comm] using hc
      rw [List.take_zero, widthAll, Nat.zero_add] at hlt
      rw [across, if_pos hlt, List.take_zero, widthAll, Nat.sub_zero]
    | succ i =>
      rw [List.take_succ_cons, widthAll] at hle hlt
      rw [across, if_neg (by omega), ih (by simpa using hc) (by omega) (by omega),
        List.take_succ_cons, widthAll, Nat.sub_sub]

theorem across_eq_none (h : widthAll cs ≤ offset) : across f cs offset = none := by
  induction cs generalizing offset with
  | nil => rfl
  | cons d cs ih =>
    rw [widthAll] at h
    rw [across, if_neg (by omega), ih (by omega)]

theorem across_congr (h : ∀ c ∈ cs, f c = f' c) (offset : Nat) : across f cs offset = across f' cs offset := by
  induction cs generalizing offset with
  | nil => rfl
  | cons d cs ih =>
    rw [across, across, h d List.mem_cons_self, ih fun c hc => h c (List.mem_cons_of_mem _ hc)]

theorem across_map (φ : α → β) (offset : Nat) :
    across (fun c o => (f c o).map φ) cs offset = (across f cs offset).map φ := by
  induction cs generalizing offset with
  | nil => rfl
  | cons d cs ih =>
    rw [across, across]
    split
    · rfl
    · exact ih _

end Walks

theorem tokenAmong?_eq_across (cs : List Green) (offset : Nat) : tokenAmong? cs offset = across tokenBelow? cs offset := by
  induction cs generalizing offset with
  | nil => rfl
  | cons c cs ih => rw [tokenAmong?, across, ih]

/-- What a walk to a node does at an element. -/
def nodeAt? (accept : Green → Bool) (c : Green) (offset : Nat) : Option Green :=
  if offset = 0 && c.isNode && accept c then some c else c.nodeStarting? accept offset

theorem nodeAmong?_eq_across (accept : Green → Bool) (cs : List Green) (offset : Nat) :
    nodeAmong? accept cs offset = across (nodeAt? accept) cs offset := by
  induction cs generalizing offset with
  | nil => rfl
  | cons c cs ih => rw [nodeAmong?, across, ih, nodeAt?]

/-! ## Searches are walks -/

section Searches

variable {α : Type} {f : Green → Nat → Option α} {hd : Header} {below : Nat}

/-- A walk through the children goes on in the child that is gone down to. -/
theorem across_of_childAcross? (h : (node hd cs).Exact) (hstart : start ≤ offset)
    (hfound : (node hd cs).childAcross? start offset = some (below, c)) :
    c ∈ cs ∧ below ≤ offset ∧ across f cs (offset - start) = f c (offset - below) := by
  obtain ⟨i, hi, rfl, hle, hlt⟩ := childAcross?_eq_some h rfl hfound
  simp only [children] at hi hle hlt ⊢
  refine ⟨List.mem_of_getElem? hi, by omega, ?_⟩
  rw [across_of_getElem? hi hle hlt, Nat.sub_sub]

theorem across_of_childAcross?_eq_none (h : (node hd cs).Exact)
    (hnone : (node hd cs).childAcross? start offset = none) : across f cs (offset - start) = none := by
  have hle := (childAcross?_eq_none_iff h rfl).1 hnone
  rw [show (node hd cs).width = widthAll cs from h.1.width] at hle
  exact across_eq_none hle

end Searches

/-- Going down to tokens by halving comes to what a walk comes to. -/
theorem tokenAcross?_eq (h : g.Exact) (hnode : g.isNode = true) (hstart : start ≤ offset) :
    g.tokenAcross? start offset = (g.tokenBelow? (offset - start)).map fun t => (offset, t) := by
  induction g using Green.induction generalizing start with
  | token t => cases hnode
  | node hd cs ih =>
    rw [tokenAcross?, tokenBelow?, tokenAmong?_eq_across]
    split
    · next hnone => rw [across_of_childAcross?_eq_none h hnone, Option.map_none]
    · next below t hfound =>
      obtain ⟨-, hle, hwalk⟩ := across_of_childAcross? (f := tokenBelow?) h hstart hfound
      have hat : offset - below = 0 ↔ below = offset := by omega
      rw [hwalk, tokenBelow?]
      simp only [hat]
      split_ifs with heq
      · rw [Option.map_some, heq]
      · rw [Option.map_none]
    · next below hd' ds hfound =>
      obtain ⟨hmem, hle, hwalk⟩ := across_of_childAcross? (f := tokenBelow?) h hstart hfound
      rw [hwalk, ih _ hmem (h.of_mem hmem) rfl hle]

/-- Going down to nodes by halving comes to what a walk comes to. -/
theorem nodeAcross?_eq (accept : Green → Bool) (h : g.Exact) (hstart : start ≤ offset) :
    g.nodeAcross? accept start offset = (g.nodeStarting? accept (offset - start)).map fun n => (offset, n) := by
  induction g using Green.induction generalizing start with
  | token t =>
    have hnone : (token t).childAcross? start offset = none := by
      rw [childAcross?]
      cases (token t).childAt? (offset - start) <;> rfl
    rw [nodeAcross?, nodeStarting?]
    split <;> simp_all
  | node hd cs ih =>
    rw [nodeAcross?, nodeStarting?, nodeAmong?_eq_across]
    split
    · next hnone => rw [across_of_childAcross?_eq_none h hnone, Option.map_none]
    · next below t hfound =>
      obtain ⟨-, -, hwalk⟩ := across_of_childAcross? (f := nodeAt? accept) h hstart hfound
      rw [hwalk, nodeAt?, nodeStarting?]
      simp [isNode]
    · next below hd' ds hfound =>
      obtain ⟨hmem, hle, hwalk⟩ := across_of_childAcross? (f := nodeAt? accept) h hstart hfound
      have hat : offset - below = 0 ↔ below = offset := by omega
      rw [hwalk, nodeAt?, ih _ hmem (h.of_mem hmem) hle]
      simp only [hat, isNode, Bool.and_true]
      split
      · next hfound' =>
        rw [Bool.and_eq_true, decide_eq_true_eq] at hfound'
        rw [hfound'.1, Option.map_some]
      · rfl

/-- **Tokens.** A search for a token has the answer of a walk. -/
theorem findToken?_eq (h : g.Exact) (hnode : g.isNode = true) (offset : Nat) :
    g.findToken? offset = (g.tokenStarting? offset).map fun t => (offset, t) := by
  rw [findToken?, tokenStarting?]
  split_ifs with hend
  · rfl
  · exact tokenAcross?_eq h hnode (Nat.zero_le offset)

/-- **Nodes.** A search for a node has the answer of a walk. -/
theorem findNode?_eq (h : g.Exact) (accept : Green → Bool) (offset : Nat) :
    g.findNode? accept offset = (g.nodeStarting? accept offset).map fun n => (offset, n) :=
  nodeAcross?_eq accept h (Nat.zero_le offset)

/-! ## Elements of no width -/

mutual

/-- **Thin.** The element without all that has no width below it. -/
def thin : Green → Green
  | token t => token t
  | node h cs => ofChildren h.id h.kind (thinAll cs) h.annotations

/-- Elements in a row without those that have no width, each without what has none below it. -/
def thinAll : List Green → List Green
  | [] => []
  | c :: cs => if c.width = 0 then thinAll cs else c.thin :: thinAll cs

end

theorem mem_thinAll {d : Green} (h : d ∈ thinAll cs) : ∃ c ∈ cs, d = c.thin := by
  induction cs with
  | nil => cases h
  | cons c cs ih =>
    rw [thinAll] at h
    split_ifs at h with hzero
    · obtain ⟨e, he, heq⟩ := ih h
      exact ⟨e, List.mem_cons_of_mem _ he, heq⟩
    · rcases List.mem_cons.1 h with rfl | h
      · exact ⟨c, List.mem_cons_self, rfl⟩
      · obtain ⟨e, he, heq⟩ := ih h
        exact ⟨e, List.mem_cons_of_mem _ he, heq⟩

theorem exact_thin (h : g.Exact) : g.thin.Exact := by
  induction g using Green.induction with
  | token t => trivial
  | node hd cs ih =>
    refine exact_ofChildren.2 fun d hd' => ?_
    obtain ⟨c, hc, rfl⟩ := mem_thinAll hd'
    exact ih c hc (h.of_mem hc)

theorem widthAll_thinAll (h : ∀ c ∈ cs, c.thin.width = c.width) : widthAll (thinAll cs) = widthAll cs := by
  induction cs with
  | nil => rfl
  | cons c cs ih =>
    have hcs := ih fun d hd => h d (List.mem_cons_of_mem _ hd)
    rw [thinAll]
    split_ifs with hzero
    · rw [widthAll, hcs, hzero, Nat.zero_add]
    · rw [widthAll, widthAll, hcs, h c List.mem_cons_self]

theorem width_thin (h : g.Exact) : g.thin.width = g.width := by
  induction g using Green.induction with
  | token t => rfl
  | node hd cs ih =>
    show widthAll (thinAll cs) = hd.width
    rw [h.1.width, widthAll_thinAll fun c hc => ih c hc (h.of_mem hc)]

theorem isNode_thin (g : Green) : g.thin.isNode = g.isNode := by
  cases g <;> rfl

/-- A walk passes elements of no width. -/
theorem across_thinAll {α : Type} {f : Green → Nat → Option α} (hcs : ∀ c ∈ cs, c.Exact) (offset : Nat) :
    across f (thinAll cs) offset = across (fun c o => f c.thin o) cs offset := by
  induction cs generalizing offset with
  | nil => rfl
  | cons c cs ih =>
    have hrest := ih fun d hd => hcs d (List.mem_cons_of_mem _ hd)
    rw [thinAll, across]
    split_ifs with hzero hlt hlt
    · -- no offset lies in an element of no width
      omega
    · rw [hrest, hzero, Nat.sub_zero]
    · rw [across, width_thin (hcs c List.mem_cons_self), if_pos hlt]
    · rw [across, width_thin (hcs c List.mem_cons_self), if_neg hlt, hrest]

theorem tokenBelow?_thin (h : g.Exact) (offset : Nat) : g.thin.tokenBelow? offset = g.tokenBelow? offset := by
  induction g using Green.induction generalizing offset with
  | token t => rfl
  | node hd cs ih =>
    have hcs : ∀ c ∈ cs, c.Exact := fun c hc => h.of_mem hc
    show tokenAmong? (thinAll cs) offset = tokenAmong? cs offset
    rw [tokenAmong?_eq_across, tokenAmong?_eq_across, across_thinAll hcs]
    exact across_congr (fun c hc => funext (ih c hc (hcs c hc))) offset

/-- A walk through a tree without elements of no width finds the node that is left of the one in the tree. -/
theorem nodeStarting?_thin (h : g.Exact) (accept : Green → Bool) (offset : Nat) :
    g.thin.nodeStarting? accept offset = (g.nodeStarting? (fun c => accept c.thin) offset).map thin := by
  induction g using Green.induction generalizing offset with
  | token t => rfl
  | node hd cs ih =>
    have hcs : ∀ c ∈ cs, c.Exact := fun c hc => h.of_mem hc
    show nodeAmong? accept (thinAll cs) offset = (nodeAmong? _ cs offset).map thin
    rw [nodeAmong?_eq_across, nodeAmong?_eq_across, across_thinAll hcs, ← across_map]
    refine across_congr (fun c hc => funext fun o => ?_) offset
    rw [nodeAt?, nodeAt?, isNode_thin, ih c hc (hcs c hc)]
    split_ifs <;> rfl

mutual

/-- The token whose range holds the offset, and how far into it the offset lies. -/
def tokenHolding? : Green → Nat → Option (Token × Nat)
  | token t, offset => some (t, offset)
  | node _ cs, offset => tokenHoldingAmong? cs offset

/-- Among elements in a row, the token whose range holds the offset, and how far into it the offset lies. -/
def tokenHoldingAmong? : List Green → Nat → Option (Token × Nat)
  | [], _ => none
  | c :: cs, offset =>
    if offset < c.width then c.tokenHolding? offset else tokenHoldingAmong? cs (offset - c.width)

end

theorem tokenHoldingAmong?_eq_across (cs : List Green) (offset : Nat) :
    tokenHoldingAmong? cs offset = across tokenHolding? cs offset := by
  induction cs generalizing offset with
  | nil => rfl
  | cons c cs ih => rw [tokenHoldingAmong?, across, ih]

theorem tokenHolding?_thin (h : g.Exact) (offset : Nat) : g.thin.tokenHolding? offset = g.tokenHolding? offset := by
  induction g using Green.induction generalizing offset with
  | token t => rfl
  | node hd cs ih =>
    have hcs : ∀ c ∈ cs, c.Exact := fun c hc => h.of_mem hc
    show tokenHoldingAmong? (thinAll cs) offset = tokenHoldingAmong? cs offset
    rw [tokenHoldingAmong?_eq_across, tokenHoldingAmong?_eq_across, across_thinAll hcs]
    exact across_congr (fun c hc => funext (ih c hc (hcs c hc))) offset

end Green

end IncrementalSyntax

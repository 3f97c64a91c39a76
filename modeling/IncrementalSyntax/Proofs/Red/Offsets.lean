import IncrementalSyntax.Proofs.Green.Search

/-!
# What stands at an offset

Each offset inside the range of a node lies in the range of one token below it, and in that of no other one.
The searches find this token, the token that starts at the offset, and the outermost node that starts there
and is accepted. Elements of no width hold no offset, so no search ever finds one, and leaving them all out
leaves the answers as they are.

## Main definitions

* `Range.Contains`: an offset inside a range
* `Red.StartsNode`: a node below a place that a search may find

## Main results

* `Red.tokenAt?_eq_some_iff`, `Red.tokenAt?_eq_none_iff`: the token at an offset
* `Red.eq_of_contains`: no two tokens hold one offset
* `Red.findToken?_eq_some_iff`, `Red.findNode?_eq_some_iff`: what starts at an offset
* `Red.offsets_spec`: all look-ups of an offset
-/

namespace IncrementalSyntax

/-- The offset lies in the range, and not at its end. -/
def Range.Contains (r : Range) (offset : Nat) : Prop := r.start ≤ offset ∧ offset < r.stop

namespace Red

open Green (widthAll)

variable {r c d d' : Red} {root : Green} {offset i : Nat} {accept : Green → Bool}

/-! ## Children -/

/-- A child holds the offsets from its start on, as many as it is wide. -/
theorem contains_child (hexact : r.green.Exact) (hc : r.child? i = some c) : c.fullRange.Contains offset ↔
    r.offset + widthAll (r.green.children.take i) ≤ offset ∧
      offset < r.offset + widthAll (r.green.children.take i) + c.green.width := by
  rw [Range.Contains, Range.stop, fullRange, offset_of_child? hexact hc]

/-- Inside the range of a place lie the ranges of all places below it. -/
theorem Contains.of_mem_descendants (hexact : r.green.Exact) (hd : d ∈ r.descendants)
    (h : d.fullRange.Contains offset) : r.fullRange.Contains offset := by
  have hinside := Inside.of_mem_descendants hexact hd
  exact ⟨hinside.le_offset.trans h.1, h.2.trans_le hinside.stop_le⟩

/-- The child that is gone down to is the one that holds the offset. -/
theorem childAt?_bind_eq_some_iff (hexact : r.green.Exact) (hnode : r.green.isNode = true) (hle : r.offset ≤ offset) :
    (r.green.childAt? (offset - r.offset)).bind r.child? = some c ↔
      ∃ i, r.child? i = some c ∧ c.fullRange.Contains offset := by
  constructor
  · intro h
    obtain ⟨i, hi, hc⟩ := Option.bind_eq_some_iff.1 h
    obtain ⟨g, hg, hstart, hstop⟩ := (Green.childAt?_eq_some_iff hexact hnode).1 hi
    obtain rfl : g = c.green := Option.some.inj (hg.symm.trans (child?_eq_some_iff.1 hc).1)
    exact ⟨i, hc, (contains_child hexact hc).2 ⟨by omega, by omega⟩⟩
  · rintro ⟨i, hc, hcontains⟩
    obtain ⟨hstart, hstop⟩ := (contains_child hexact hc).1 hcontains
    have hi : r.green.childAt? (offset - r.offset) = some i :=
      (Green.childAt?_eq_some_iff hexact hnode).2 ⟨c.green, (child?_eq_some_iff.1 hc).1, by omega, by omega⟩
    rw [hi, Option.bind_some, hc]

/-- Inside the range of a node some child is gone down to. -/
theorem exists_child_of_contains (hexact : r.green.Exact) (hnode : r.green.isNode = true)
    (h : r.fullRange.Contains offset) : ∃ i c, r.child? i = some c ∧ c.fullRange.Contains offset := by
  obtain ⟨hstart, hstop⟩ := h
  cases hi : r.green.childAt? (offset - r.offset) with
  | none =>
    have hle := (Green.childAt?_eq_none_iff hexact hnode).1 hi
    simp only [Range.stop, fullRange] at hstart hstop
    omega
  | some i =>
    obtain ⟨g, hg, -⟩ := (Green.childAt?_eq_some_iff hexact hnode).1 hi
    obtain ⟨c, hc⟩ : ∃ c, r.child? i = some c := by
      rw [child?, hg]
      exact ⟨_, rfl⟩
    have hfound : (r.green.childAt? (offset - r.offset)).bind r.child? = some c := by rw [hi, Option.bind_some, hc]
    obtain ⟨j, hj⟩ := (childAt?_bind_eq_some_iff hexact hnode hstart).1 hfound
    exact ⟨j, c, hj⟩

theorem descendants_of_token (h : r.green.isNode = false) : r.descendants = [r] := by
  obtain ⟨g, o, above⟩ := r
  cases g with
  | token t => rfl
  | node hd cs => cases h

/-- What lies below a node and is not the node lies in a child. -/
theorem exists_child_of_ne (hd : d ∈ r.descendants) (hne : d ≠ r) : ∃ i c, r.child? i = some c ∧ d ∈ c.descendants :=
  (eq_or_exists_of_mem_descendants hd).resolve_left hne

/-! ## Tokens -/

/-- **The token at an offset.** It is found just if its range holds the offset. -/
theorem tokenAt?_eq_some_iff (hexact : r.green.Exact) (hnode : r.green.isNode = true) :
    r.tokenAt? offset = some d ↔ d ∈ r.descendants ∧ d.green.isNode = false ∧ d.fullRange.Contains offset := by
  induction r using child_induction with
  | step r ih =>
    rw [tokenAt?]
    constructor
    · intro h
      split at h
      · cases h
      · next hle =>
        split at h
        · cases h
        · next c hfound =>
          obtain ⟨i, hc, hcontains⟩ := (childAt?_bind_eq_some_iff hexact hnode (Nat.le_of_not_lt hle)).1 hfound
          split at h
          · next hcnode =>
            obtain ⟨hd, htoken, hcontains'⟩ := (ih i c hc (exact_of_child? hexact hc) hcnode).1 h
            exact ⟨mem_descendants_of_child? hc hd, htoken, hcontains'⟩
          · next hctoken =>
            obtain rfl : c = d := Option.some.inj h
            exact ⟨mem_descendants_of_child? hc (mem_descendants_self c), by simpa using hctoken, hcontains⟩
    · rintro ⟨hd, htoken, hcontains⟩
      have hne : d ≠ r := by
        rintro rfl
        cases htoken.symm.trans hnode
      obtain ⟨i, c, hc, hdc⟩ := exists_child_of_ne hd hne
      -- the child around the token holds the offset as well, so it is the one that is gone down to
      have hle : r.offset ≤ offset := (Contains.of_mem_descendants hexact hd hcontains).1
      have hcontains' := Contains.of_mem_descendants (exact_of_child? hexact hc) hdc hcontains
      have hfound := (childAt?_bind_eq_some_iff hexact hnode hle).2 ⟨i, hc, hcontains'⟩
      rw [if_neg (Nat.not_lt_of_le hle)]
      split
      · next hnone => cases hnone.symm.trans hfound
      · next c' hfound' =>
        obtain rfl : c' = c := Option.some.inj (hfound'.symm.trans hfound)
        split_ifs with hcnode
        · exact (ih i c' hc (exact_of_child? hexact hc) hcnode).2 ⟨hdc, htoken, hcontains⟩
        · rw [descendants_of_token (by simpa using hcnode), List.mem_singleton] at hdc
          rw [hdc]

/-- A place holds an offset just if a token at or below it does. -/
theorem exists_token_iff (hexact : r.green.Exact) : r.fullRange.Contains offset ↔
    ∃ d ∈ r.descendants, d.green.isNode = false ∧ d.fullRange.Contains offset := by
  constructor
  · intro h
    induction r using child_induction with
    | step r ih =>
      cases hnode : r.green.isNode with
      | false => exact ⟨r, mem_descendants_self r, hnode, h⟩
      | true =>
        obtain ⟨i, c, hc, hcontains⟩ := exists_child_of_contains hexact hnode h
        obtain ⟨d, hd, htoken⟩ := ih i c hc (exact_of_child? hexact hc) hcontains
        exact ⟨d, mem_descendants_of_child? hc hd, htoken⟩
  · rintro ⟨d, hd, -, hcontains⟩
    exact Contains.of_mem_descendants hexact hd hcontains

/-- **No token at an offset.** None is found just if the offset lies outside the range of the node. -/
theorem tokenAt?_eq_none_iff (hexact : r.green.Exact) (hnode : r.green.isNode = true) :
    r.tokenAt? offset = none ↔ ¬ r.fullRange.Contains offset := by
  rw [exists_token_iff hexact, Option.eq_none_iff_forall_ne_some]
  simp only [ne_eq, tokenAt?_eq_some_iff hexact hnode, not_exists]

/-- No two tokens of a tree hold one offset. -/
theorem eq_of_contains (hexact : r.green.Exact) (hd : d ∈ r.descendants) (hd' : d' ∈ r.descendants)
    (ht : d.green.isNode = false) (ht' : d'.green.isNode = false) (h : d.fullRange.Contains offset)
    (h' : d'.fullRange.Contains offset) : d = d' := by
  cases hnode : r.green.isNode with
  | false =>
    rw [descendants_of_token hnode, List.mem_singleton] at hd hd'
    rw [hd, hd']
  | true =>
    have hfound := (tokenAt?_eq_some_iff hexact hnode).2 ⟨hd, ht, h⟩
    have hfound' := (tokenAt?_eq_some_iff hexact hnode).2 ⟨hd', ht', h'⟩
    exact Option.some.inj (hfound.symm.trans hfound')

/-- The walk to the token at an offset finds the same one. -/
theorem tokenAt?_map (hexact : r.green.Exact) (hnode : r.green.isNode = true) (hle : r.offset ≤ offset) :
    (r.tokenAt? offset).map (fun d => (d.green, d.offset)) =
      (r.green.tokenHolding? (offset - r.offset)).map fun p => (.token p.1, offset - p.2) := by
  induction r using child_induction with
  | step r ih =>
    have hwidth := hexact.width_eq_of_children hnode
    have hwalk : r.green.tokenHolding? (offset - r.offset) =
        Green.across Green.tokenHolding? r.green.children (offset - r.offset) := by
      cases hgreen : r.green with
      | token t => simp [hgreen, Green.isNode] at hnode
      | node hd cs => exact Green.tokenHoldingAmong?_eq_across cs _
    rw [tokenAt?, if_neg (Nat.not_lt_of_le hle), hwalk]
    split
    · next hnone =>
      -- no child holds the offset, so it lies behind all of them
      have hbehind : r.green.width ≤ offset - r.offset := by
        by_contra hnot
        have hcontains : r.fullRange.Contains offset := ⟨hle, by simp only [Range.stop, fullRange]; omega⟩
        obtain ⟨i, c, hc⟩ := exists_child_of_contains hexact hnode hcontains
        cases hnone.symm.trans ((childAt?_bind_eq_some_iff hexact hnode hle).2 ⟨i, hc⟩)
      rw [Green.across_eq_none (hwidth ▸ hbehind), Option.map_none, Option.map_none]
    · next c hfound =>
      obtain ⟨i, hc, hcontains⟩ := (childAt?_bind_eq_some_iff hexact hnode hle).1 hfound
      obtain ⟨hstart, hstop⟩ := (contains_child hexact hc).1 hcontains
      have hi := (child?_eq_some_iff.1 hc).1
      have hinner : offset - r.offset - widthAll (r.green.children.take i) = offset - c.offset := by
        rw [offset_of_child? hexact hc, Nat.sub_sub]
      rw [Green.across_of_getElem? hi (by omega) (by omega), hinner]
      split_ifs with hcnode
      · exact ih i c hc (exact_of_child? hexact hc) hcnode hcontains.1
      · cases hgreen : c.green with
        | node hd ds => simp [hgreen, Green.isNode] at hcnode
        | token t =>
          have hback : offset - (offset - c.offset) = c.offset := Nat.sub_sub_self hcontains.1
          rw [Green.tokenHolding?, Option.map_some, Option.map_some, hgreen, hback]

/-! ## What starts at an offset -/

/-- Going down from an element is going down from its place. -/
theorem childAcross?_eq_map (r : Red) (offset : Nat) : r.green.childAcross? r.offset offset =
    ((r.green.childAt? (offset - r.offset)).bind r.child?).map fun c => (c.offset, c.green) := by
  rw [Green.childAcross?]
  cases r.green.childAt? (offset - r.offset) with
  | none => rfl
  | some i =>
    rw [Option.bind_some, Option.bind_some, child?, Option.map_map]
    rfl

section Steps

variable (hfound : (r.green.childAt? (offset - r.offset)).bind r.child? = some c)
include hfound

theorem childAcross?_of_child : r.green.childAcross? r.offset offset = some (c.offset, c.green) := by
  rw [childAcross?_eq_map, hfound, Option.map_some]

theorem tokenAt?_of_child (hle : r.offset ≤ offset) :
    r.tokenAt? offset = if c.green.isNode then c.tokenAt? offset else some c := by
  rw [tokenAt?, if_neg (Nat.not_lt_of_le hle)]
  split
  · next hnone => cases hnone.symm.trans hfound
  · next c' hfound' => rw [Option.some.inj (hfound.symm.trans hfound')]

theorem tokenAcross?_of_token {t : Token} (hgreen : c.green = .token t) :
    r.green.tokenAcross? r.offset offset = if c.offset = offset then some (c.offset, t) else none := by
  have hdown := childAcross?_of_child hfound
  rw [hgreen] at hdown
  rw [Green.tokenAcross?]
  split
  · next hnone => cases hnone.symm.trans hdown
  · next below t' hdown' =>
    obtain ⟨rfl, ht⟩ := Prod.mk.inj (Option.some.inj (hdown'.symm.trans hdown))
    rw [Green.token.inj ht]
  · next below hd ds hdown' => cases hdown'.symm.trans hdown

theorem tokenAcross?_of_node (hnode : c.green.isNode = true) :
    r.green.tokenAcross? r.offset offset = c.green.tokenAcross? c.offset offset := by
  have hdown := childAcross?_of_child hfound
  rw [Green.tokenAcross?]
  split
  · next hnone => cases hnone.symm.trans hdown
  · next below t hdown' =>
    obtain ⟨-, ht⟩ := Prod.mk.inj (Option.some.inj (hdown'.symm.trans hdown))
    simp [← ht, Green.isNode] at hnode
  · next below hd ds hdown' =>
    obtain ⟨rfl, hds⟩ := Prod.mk.inj (Option.some.inj (hdown'.symm.trans hdown))
    rw [hds]

theorem nodeAcross?_of_token (hnode : c.green.isNode = false) :
    r.green.nodeAcross? accept r.offset offset = none := by
  have hdown := childAcross?_of_child hfound
  rw [Green.nodeAcross?]
  split
  · rfl
  · rfl
  · next below hd ds hdown' =>
    obtain ⟨-, hds⟩ := Prod.mk.inj (Option.some.inj (hdown'.symm.trans hdown))
    simp [← hds, Green.isNode] at hnode

theorem nodeAcross?_of_node (hnode : c.green.isNode = true) :
    r.green.nodeAcross? accept r.offset offset = if c.offset = offset && accept c.green then some (c.offset, c.green)
      else c.green.nodeAcross? accept c.offset offset := by
  have hdown := childAcross?_of_child hfound
  rw [Green.nodeAcross?]
  split
  · next hnone => cases hnone.symm.trans hdown
  · next below t hdown' =>
    obtain ⟨-, ht⟩ := Prod.mk.inj (Option.some.inj (hdown'.symm.trans hdown))
    simp [← ht, Green.isNode] at hnode
  · next below hd ds hdown' =>
    obtain ⟨rfl, hds⟩ := Prod.mk.inj (Option.some.inj (hdown'.symm.trans hdown))
    rw [hds]

end Steps

/-- The search for the token that starts at an offset goes down to the token at the offset. -/
theorem tokenAcross?_eq_some_iff (hexact : r.green.Exact) (hle : r.offset ≤ offset) {s : Nat} {t : Token} :
    r.green.tokenAcross? r.offset offset = some (s, t) ↔
      s = offset ∧ ∃ d, r.tokenAt? offset = some d ∧ d.green = .token t ∧ d.offset = offset := by
  induction r using child_induction with
  | step r ih =>
    cases hfound : (r.green.childAt? (offset - r.offset)).bind r.child? with
    | none =>
      have hdown : r.green.childAcross? r.offset offset = none := by rw [childAcross?_eq_map, hfound, Option.map_none]
      have hnone : r.green.tokenAcross? r.offset offset = none := by
        rw [Green.tokenAcross?]
        split <;> simp_all
      have hnone' : r.tokenAt? offset = none := by
        rw [tokenAt?, if_neg (Nat.not_lt_of_le hle)]
        split
        · rfl
        · next c hfound' => cases hfound'.symm.trans hfound
      simp [hnone, hnone']
    | some c =>
      obtain ⟨i, -, hc⟩ := Option.bind_eq_some_iff.1 hfound
      have hnode := Green.isNode_of_getElem? (child?_eq_some_iff.1 hc).1
      obtain ⟨j, hcj, hcontains⟩ := (childAt?_bind_eq_some_iff hexact hnode hle).1 hfound
      rw [tokenAt?_of_child hfound hle]
      cases hcnode : c.green.isNode with
      | true =>
        rw [tokenAcross?_of_node hfound hcnode, if_pos rfl]
        exact ih j c hcj (exact_of_child? hexact hcj) hcontains.1
      | false =>
        cases hgreen : c.green with
        | node hd cs => simp [hgreen, Green.isNode] at hcnode
        | token u =>
          -- both searches end here, and one of them asks where the token starts
          rw [tokenAcross?_of_token hfound hgreen, if_neg Bool.false_ne_true]
          simp only [Option.some_inj]
          constructor
          · intro h
            split_ifs at h with hat
            obtain ⟨rfl, rfl⟩ := Prod.mk.inj (Option.some.inj h)
            exact ⟨hat, c, rfl, hgreen, hat⟩
          · rintro ⟨rfl, d, rfl, ht, hat⟩
            rw [if_pos hat, hat, Green.token.inj (hgreen.symm.trans ht)]

/-- **The token that starts at an offset.** -/
theorem findToken?_eq_some_iff (hexact : root.Exact) (hnode : root.isNode = true) (hlt : offset < root.width)
    {s : Nat} {t : Token} : root.findToken? offset = some (s, t) ↔ s = offset ∧
      ∃ d ∈ (ofRoot root).descendants, d.green = .token t ∧ 0 < t.leaf.width ∧ d.offset = offset := by
  rw [Green.findToken?, if_neg hlt.ne]
  refine (tokenAcross?_eq_some_iff (r := ofRoot root) hexact (Nat.zero_le offset)).trans (and_congr_right fun _ => ?_)
  constructor
  · rintro ⟨d, hd, hgreen, hstart⟩
    obtain ⟨hmem, -, -, hstop⟩ := (tokenAt?_eq_some_iff (r := ofRoot root) hexact hnode).1 hd
    refine ⟨d, hmem, hgreen, ?_, hstart⟩
    simp only [Range.stop, fullRange, hgreen, Green.width] at hstop
    omega
  · rintro ⟨d, hmem, hgreen, hpos, hstart⟩
    refine ⟨d, (tokenAt?_eq_some_iff (r := ofRoot root) hexact hnode).2 ⟨hmem, by rw [hgreen]; rfl, ?_⟩, hgreen, hstart⟩
    refine ⟨hstart.le, ?_⟩
    simp only [Range.stop, fullRange, hgreen, Green.width]
    omega

/-- **Node that starts at an offset.** A node below the place, other than the one at the place, that has a width,
starts at the offset and is accepted. -/
structure StartsNode (r : Red) (accept : Green → Bool) (offset : Nat) (d : Red) : Prop where
  mem : d ∈ r.descendants
  ne : d ≠ r
  isNode : d.green.isNode = true
  pos : 0 < d.green.width
  start : d.offset = offset
  accepted : accept d.green = true

theorem StartsNode.contains (h : r.StartsNode accept offset d) : d.fullRange.Contains offset := by
  refine ⟨h.start.le, ?_⟩
  have := h.pos
  have := h.start
  simp only [Range.stop, fullRange]
  omega

/-- A place lies above all others below it. -/
theorem length_above_lt (hd : d ∈ r.descendants) (hne : d ≠ r) : r.above.length < d.above.length := by
  obtain ⟨i, c, hc, hdc⟩ := exists_child_of_ne hd hne
  obtain ⟨front, hfront⟩ := exists_above_eq hdc
  rw [hfront, above_of_child? hc, List.length_append, List.length_cons]
  omega

/-- Two places each of which lies on the way up from the other one are the same. -/
theorem eq_of_mem_descendants (h : d ∈ d'.descendants) (h' : d' ∈ d.descendants) : d = d' := by
  by_contra hne
  have hlt := length_above_lt h hne
  have hlt' := length_above_lt h' (Ne.symm hne)
  omega

/-- **Outermost.** The search for a node goes down to one that lies around all others, and where it finds none there
is none. -/
theorem nodeAcross?_cases (hexact : r.green.Exact) (hle : r.offset ≤ offset) :
    (r.green.nodeAcross? accept r.offset offset = none ∧ ∀ d, ¬ r.StartsNode accept offset d) ∨
      ∃ d, r.green.nodeAcross? accept r.offset offset = some (offset, d.green) ∧ r.StartsNode accept offset d ∧
        ∀ d', r.StartsNode accept offset d' → d' ∈ d.descendants := by
  induction r using child_induction with
  | step r ih =>
    -- all nodes that start there lie in the child that is gone down to
    have hin : ∀ d, r.StartsNode accept offset d → ∃ i c, r.child? i = some c ∧ d ∈ c.descendants ∧
        (r.green.childAt? (offset - r.offset)).bind r.child? = some c := by
      intro d hd
      obtain ⟨i, c, hc, hdc⟩ := exists_child_of_ne hd.mem hd.ne
      have hnode := Green.isNode_of_getElem? (child?_eq_some_iff.1 hc).1
      have hcontains := Contains.of_mem_descendants (exact_of_child? hexact hc) hdc hd.contains
      exact ⟨i, c, hc, hdc, (childAt?_bind_eq_some_iff hexact hnode hle).2 ⟨i, hc, hcontains⟩⟩
    cases hfound : (r.green.childAt? (offset - r.offset)).bind r.child? with
    | none =>
      have hdown : r.green.childAcross? r.offset offset = none := by rw [childAcross?_eq_map, hfound, Option.map_none]
      refine .inl ⟨?_, ?_⟩
      · rw [Green.nodeAcross?]
        split <;> simp_all
      · intro d hd
        obtain ⟨i, c, -, -, hsome⟩ := hin d hd
        cases hfound.symm.trans hsome
    | some c =>
      obtain ⟨j, -, hcj⟩ := Option.bind_eq_some_iff.1 hfound
      have hnode := Green.isNode_of_getElem? (child?_eq_some_iff.1 hcj).1
      obtain ⟨i, hc, hcontains⟩ := (childAt?_bind_eq_some_iff hexact hnode hle).1 hfound
      have hbelow : ∀ d, r.StartsNode accept offset d → d ∈ c.descendants := by
        intro d hd
        obtain ⟨-, c', -, hdc, hsome⟩ := hin d hd
        rwa [Option.some.inj (hfound.symm.trans hsome)]
      have hlength : r.above.length < c.above.length := by
        rw [above_of_child? hc, List.length_cons]
        exact Nat.lt_succ_self _
      cases hcnode : c.green.isNode with
      | false =>
        refine .inl ⟨nodeAcross?_of_token hfound hcnode, ?_⟩
        intro d hd
        have hdc := hbelow d hd
        rw [descendants_of_token hcnode, List.mem_singleton] at hdc
        cases hcnode.symm.trans (hdc ▸ hd.isNode)
      | true =>
        rw [nodeAcross?_of_node hfound hcnode]
        by_cases hhit : c.offset = offset ∧ accept c.green = true
        · have hpos : 0 < c.green.width := by
            have := hcontains.2
            simp only [Range.stop, fullRange] at this
            omega
          have hne : c ≠ r := fun heq => absurd (congrArg (List.length ∘ Red.above) heq) hlength.ne'
          rw [if_pos (by simp [hhit]), hhit.1]
          exact .inr ⟨c, rfl, ⟨mem_descendants_of_child? hc (mem_descendants_self c), hne, hcnode, hpos, hhit.1, hhit.2⟩,
            hbelow⟩
        · -- the child itself is not one of them, so the search goes on in it
          have hiff : ∀ d, r.StartsNode accept offset d ↔ c.StartsNode accept offset d := by
            intro d
            constructor
            · intro hd
              refine ⟨hbelow d hd, ?_, hd.isNode, hd.pos, hd.start, hd.accepted⟩
              rintro rfl
              exact hhit ⟨hd.start, hd.accepted⟩
            · intro hd
              refine ⟨mem_descendants_of_child? hc hd.mem, ?_, hd.isNode, hd.pos, hd.start, hd.accepted⟩
              rintro rfl
              exact absurd (length_above_lt hd.mem hd.ne) (Nat.not_lt_of_gt hlength)
          rw [if_neg (by simpa using hhit)]
          simp only [hiff]
          exact ih i c hc (exact_of_child? hexact hc) hcontains.1

/-- **The node that starts at an offset** is the outermost one. -/
theorem findNode?_eq_some_iff (hexact : root.Exact) {s : Nat} {n : Green} :
    root.findNode? accept offset = some (s, n) ↔ s = offset ∧ ∃ d, d.green = n ∧
      (ofRoot root).StartsNode accept offset d ∧
        ∀ d', (ofRoot root).StartsNode accept offset d' → d' ∈ d.descendants := by
  have hcases := @nodeAcross?_cases (ofRoot root) offset accept hexact (Nat.zero_le offset)
  constructor
  · intro h
    rcases hcases with ⟨hnone, -⟩ | ⟨d, hd, houter⟩
    · cases hnone.symm.trans h
    · obtain ⟨rfl, rfl⟩ := Prod.mk.inj (Option.some.inj (hd.symm.trans h))
      exact ⟨rfl, d, rfl, houter⟩
  · rintro ⟨rfl, d, rfl, hd, houter⟩
    rcases hcases with ⟨-, hnone⟩ | ⟨d', hd', hstarts, houter'⟩
    · exact absurd hd (hnone d)
    · -- of two outermost nodes each lies below the other one
      rw [eq_of_mem_descendants (houter' d hd) (houter d' hstarts)]
      exact hd'

theorem findNode?_eq_none_iff (hexact : root.Exact) :
    root.findNode? accept offset = none ↔ ∀ d, ¬ (ofRoot root).StartsNode accept offset d := by
  rcases @nodeAcross?_cases (ofRoot root) offset accept hexact (Nat.zero_le offset) with
    ⟨hnone, hall⟩ | ⟨d, hd, hstarts, -⟩
  · exact iff_of_true hnone hall
  · refine iff_of_false ?_ fun hall => hall d hstarts
    intro hnone
    cases hnone.symm.trans hd

/-! ## All look-ups -/

/-- **Offsets.** In a tree whose nodes keep the right summaries every look-up finds what its place in the text says:
the one token that holds an offset, from the root or from any node; the token with a width that starts at an offset,
and at the end of the text only a token of no width that ends it; the outermost node with a width that starts at an
offset and is accepted. The answers are those of walks from left to right, and without the elements of no width they
are the same. -/
theorem offsets_spec (hexact : root.Exact) (hnode : root.isNode = true) :
    (∀ r ∈ (ofRoot root).descendants, r.green.isNode = true → ∀ offset,
      (∀ d, r.tokenAt? offset = some d ↔
        d ∈ r.descendants ∧ d.green.isNode = false ∧ d.fullRange.Contains offset) ∧
      (r.tokenAt? offset = none ↔ ¬ r.fullRange.Contains offset) ∧
      ∀ above, (tokenAt? ⟨r.green.thin, r.offset, above⟩ offset).map (fun d => (d.green, d.offset)) =
        (r.tokenAt? offset).map fun d => (d.green, d.offset)) ∧
    (∀ offset < root.width,
      (∀ s t, root.findToken? offset = some (s, t) ↔ s = offset ∧ ∃ d ∈ (ofRoot root).descendants,
        d.green = .token t ∧ 0 < t.leaf.width ∧ d.offset = offset) ∧
      (root.findToken? offset = none ↔ ∀ d ∈ (ofRoot root).descendants, ∀ t, d.green = .token t →
        0 < t.leaf.width → d.offset ≠ offset) ∧
      root.thin.findToken? offset = root.findToken? offset) ∧
    (∀ s t, root.findToken? root.width = some (s, t) ↔ s = root.width ∧ root.lastToken? = some t ∧
      t.leaf.tokenKind = .eof ∧ t.leaf.width = 0) ∧
    (∀ offset > root.width, root.findToken? offset = none) ∧
    (∀ accept offset,
      (∀ s n, root.findNode? accept offset = some (s, n) ↔ s = offset ∧ ∃ d, d.green = n ∧
        (ofRoot root).StartsNode accept offset d ∧
          ∀ d', (ofRoot root).StartsNode accept offset d' → d' ∈ d.descendants) ∧
      (root.findNode? accept offset = none ↔ ∀ d, ¬ (ofRoot root).StartsNode accept offset d) ∧
      root.thin.findNode? accept offset =
        (root.findNode? (fun n => accept n.thin) offset).map fun p => (p.1, p.2.thin)) ∧
    ∀ accept offset, root.findToken? offset = (root.tokenStarting? offset).map (fun t => (offset, t)) ∧
      root.findNode? accept offset = (root.nodeStarting? accept offset).map fun n => (offset, n) := by
  refine ⟨?_, ?_, ?_, ?_, ?_, ?_⟩
  · intro r hr hrnode offset
    have hrexact := (Inside.of_mem_descendants hexact hr).exact
    refine ⟨fun d => tokenAt?_eq_some_iff hrexact hrnode, tokenAt?_eq_none_iff hrexact hrnode, ?_⟩
    intro above
    have hthin : r.green.thin.isNode = true := (Green.isNode_thin r.green).trans hrnode
    by_cases hle : r.offset ≤ offset
    · rw [tokenAt?_map hrexact hrnode hle,
        tokenAt?_map (r := ⟨r.green.thin, r.offset, above⟩) (Green.exact_thin hrexact) hthin hle]
      rw [Green.tokenHolding?_thin hrexact]
    · rw [tokenAt?, tokenAt?, if_pos (Nat.lt_of_not_le hle), if_pos (Nat.lt_of_not_le hle), Option.map_none]
  · intro offset hlt
    refine ⟨fun s t => findToken?_eq_some_iff hexact hnode hlt, ?_, ?_⟩
    · rw [Option.eq_none_iff_forall_ne_some]
      constructor
      · intro h d hd t hgreen hpos hstart
        exact h (offset, t) ((findToken?_eq_some_iff hexact hnode hlt).2 ⟨rfl, d, hd, hgreen, hpos, hstart⟩)
      · rintro h ⟨s, t⟩ hsome
        obtain ⟨rfl, d, hd, hgreen, hpos, hstart⟩ := (findToken?_eq_some_iff hexact hnode hlt).1 hsome
        exact h d hd t hgreen hpos hstart
    · have hthin : root.thin.isNode = true := (Green.isNode_thin root).trans hnode
      rw [Green.findToken?_eq hexact hnode, Green.findToken?_eq (Green.exact_thin hexact) hthin, Green.tokenStarting?,
        Green.tokenStarting?, Green.width_thin hexact, if_neg hlt.ne, if_neg hlt.ne, Green.tokenBelow?_thin hexact]
  · intro s t
    rw [Green.findToken?, if_pos rfl, Option.map_eq_some_iff]
    simp only [Option.filter_eq_some_iff, Bool.and_eq_true, decide_eq_true_eq, Prod.mk.injEq]
    constructor
    · rintro ⟨u, ⟨hlast, hend⟩, rfl, rfl⟩
      exact ⟨rfl, hlast, hend⟩
    · rintro ⟨rfl, hlast, hend⟩
      exact ⟨t, ⟨hlast, hend⟩, rfl, rfl⟩
  · intro offset hgt
    have hwidth := hexact.width_eq_of_children hnode
    rw [Green.findToken?_eq hexact hnode, Green.tokenStarting?, if_neg hgt.ne']
    cases root with
    | token t => cases hnode
    | node hd cs =>
      rw [Green.tokenBelow?, Green.tokenAmong?_eq_across, Green.across_eq_none, Option.map_none]
      exact hwidth ▸ hgt.le
  · intro accept offset
    refine ⟨fun s n => findNode?_eq_some_iff hexact, findNode?_eq_none_iff hexact, ?_⟩
    rw [Green.findNode?_eq hexact, Green.findNode?_eq (Green.exact_thin hexact), Green.nodeStarting?_thin hexact,
      Option.map_map, Option.map_map]
    rfl
  · intro accept offset
    exact ⟨Green.findToken?_eq hexact hnode offset, Green.findNode?_eq hexact accept offset⟩

/-- Two missing tokens at one offset, one of them inside a statement, in front of a token that is there. -/
theorem offsets_spec_missing :
    let name : Token := ⟨0, { kind := .token .ident, text := ['a'] }⟩
    let inside : Token := ⟨1, { kind := .token (.punct .semicolon), text := [], missing := true }⟩
    let beside : Token := ⟨2, { kind := .token (.punct .semicolon), text := [], missing := true }⟩
    let other : Token := ⟨3, { kind := .token .ident, text := ['b'] }⟩
    let statement := Green.ofChildren 4 (.node .exprStmt) [.token name, .token inside]
    let root := Green.ofChildren 5 (.node .compilationUnit) [statement, .token beside, .token other]
    root.Exact ∧ root.isNode = true ∧ root.findToken? 1 = some (1, other) ∧
      root.findNode? (fun _ => true) 0 = some (0, statement) ∧ (ofRoot root).tokenAt? 2 = none := by
  intro name inside beside other statement root
  have hexact : root.Exact := ⟨⟨rfl, rfl, rfl⟩, ⟨⟨rfl, rfl, rfl⟩, trivial, trivial, trivial⟩, trivial, trivial, trivial⟩
  obtain ⟨hat, -, -, -, -, hwalk⟩ := offsets_spec hexact rfl
  refine ⟨hexact, rfl, (hwalk (fun _ => true) 1).1, (hwalk (fun _ => true) 0).2, ?_⟩
  exact (hat (ofRoot root) (mem_descendants_self _) rfl 2).2.1.2 fun hcontains => Nat.lt_irrefl 2 hcontains.2

end Red

end IncrementalSyntax

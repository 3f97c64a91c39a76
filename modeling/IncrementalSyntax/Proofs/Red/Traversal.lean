import IncrementalSyntax.Proofs.Red.Offsets

/-!
# Walking through a tree

The places of a tree are visited with a stack: a place is taken off the stack, and its children are put on it from the
last one to the first one, so that the first one is taken next. In this way every place is visited once, each one in front
of all that lies below it. The children of a node stand one behind the other and fill its range, and so do the tokens below
it, whether the walk goes over places or over elements with offsets relative to the parent.

## Main definitions

* `Red.visit`: the places visited from a stack of places
* `Green.eachToken`: the tokens of an element with their offsets, from relative offsets
* `Range.Tile`: ranges that fill a stretch of text one behind the other

## Main results

* `Red.visit_eq`: a stack leads to the same visits as a recursion
* `Red.pairwise_path`: places are visited in the order of their paths
* `Red.tokens_eq`: the tokens that are visited, with their offsets
* `Red.traversal_spec`: what a walk visits, and how that fills the text
-/

namespace IncrementalSyntax

/-! ## Ranges in a row -/

/-- **Tile.** The ranges stand one behind the other, without a gap, from one offset to another. -/
def Range.Tile (start stop : Nat) : List Range → Prop
  | [] => start = stop
  | r :: rs => r.start = start ∧ Range.Tile r.stop stop rs

namespace Green

mutual

/-- The tokens of an element that stands at an offset, with their own offsets. Each child stands as far behind the start of
its parent as the parent keeps it. -/
def eachToken (start : Nat) : Green → List (Nat × Token)
  | token t => [(start, t)]
  | node h cs => eachTokenAll start (node h cs) 0 cs

/-- The tokens of the children of a parent from one index on. -/
def eachTokenAll (start : Nat) (parent : Green) (index : Nat) : List Green → List (Nat × Token)
  | [] => []
  | c :: cs => c.eachToken (start + parent.childStart index) ++ eachTokenAll start parent (index + 1) cs

end

/-! ## Tokens in a row -/

theorem placeTokens_append (start : Nat) (as bs : List Token) :
    placeTokens start (as ++ bs) = placeTokens start as ++ placeTokens (start + Leaf.widthAll (as.map Token.leaf)) bs := by
  induction as generalizing start with
  | nil => rfl
  | cons a as ih => simp [placeTokens, ih, Nat.add_assoc]

/-- A token in a row stands behind the tokens in front of it. -/
theorem exists_of_mem_placeTokens {start offset : Nat} {t : Token} {ts : List Token}
    (h : (offset, t) ∈ placeTokens start ts) :
    ∃ as bs, ts = as ++ t :: bs ∧ offset = start + Leaf.widthAll (as.map Token.leaf) := by
  induction ts generalizing start with
  | nil => cases h
  | cons u ts ih =>
    rcases List.mem_cons.1 h with heq | h
    · obtain ⟨rfl, rfl⟩ := Prod.mk.inj heq
      exact ⟨[], ts, rfl, rfl⟩
    · obtain ⟨as, bs, rfl, rfl⟩ := ih h
      exact ⟨u :: as, bs, rfl, by simp [Nat.add_assoc]⟩

/-- The tokens of an exact element, and behind them those of a row. -/
theorem Exact.tokensFrom_append {g : Green} (h : g.Exact) (start : Nat) (ts : List Token) :
    placeTokens start (g.tokens ++ ts) = g.tokensFrom start ++ placeTokens (start + g.width) ts := by
  rw [placeTokens_append, tokensFrom, h.width_eq_widthAll]
  rfl

/-- Relative offsets lead to the same tokens at the same offsets. -/
theorem Exact.eachToken_eq {g : Green} (h : g.Exact) (start : Nat) : g.eachToken start = g.tokensFrom start := by
  induction g using Green.induction generalizing start with
  | token t => rfl
  | node hd cs ih =>
    -- the row is shortened from the front, and what was taken from it lies in front of the rest
    have hall : ∀ ds taken, cs = taken ++ ds →
        eachTokenAll start (node hd cs) taken.length ds = placeTokens (start + widthAll taken) (tokensAll ds) := by
      intro ds
      induction ds with
      | nil => exact fun _ _ => rfl
      | cons d ds ihds =>
        intro taken hcs
        have hmem : d ∈ cs := by simp [hcs]
        have hexact := h.of_mem hmem
        have hrest := ihds (taken ++ [d]) (by simp [hcs])
        rw [List.length_append, widthAll_append, ← Nat.add_assoc] at hrest
        rw [eachTokenAll, ih d hmem hexact, h.childStart_of_append hcs, tokensAll, hexact.tokensFrom_append]
        exact congrArg _ hrest
    exact hall cs [] rfl

/-- Tokens in a row tile the text from the offset of the first one. -/
theorem tile_placeTokens (start : Nat) (ts : List Token) :
    Range.Tile start (start + Leaf.widthAll (ts.map Token.leaf))
      ((placeTokens start ts).map fun p => ⟨p.1, p.2.leaf.width⟩) := by
  induction ts generalizing start with
  | nil => rfl
  | cons t ts ih =>
    refine ⟨rfl, ?_⟩
    simpa [Range.stop, Nat.add_assoc] using ih (start + t.leaf.width)

end Green

namespace Red

variable {r c d p : Red} {root : Green} {i : Nat}

/-! ## Visits -/

/-- The children of a place put on a stack, the last one first. -/
def push (r : Red) (stack : List Red) : List Red :=
  (List.range r.green.children.length).foldr (fun i stack => ((r.child? i).map (· :: stack)).getD stack) stack

theorem getElem?_place (parent : Red) (index : Nat) (cs : List Green) (i : Nat) :
    (parent.place index cs)[i]? = cs[i]?.map (parent.below (index + i)) := by
  induction cs generalizing index i with
  | nil => simp [place]
  | cons c cs ih =>
    cases i with
    | zero => simp [place]
    | succ i => simp [place, ih, Nat.add_assoc, Nat.add_comm 1 i]

/-- The children in order are those that are found by their index. -/
theorem getElem?_children (r : Red) (i : Nat) : r.children[i]? = r.child? i := by
  rw [children, getElem?_place, child?, Nat.zero_add]

/-- The children are on top of the stack, the first one at the very top. -/
theorem push_eq (r : Red) (stack : List Red) : r.push stack = r.children ++ stack := by
  have hlength : r.children.length = r.green.children.length := by
    refine Nat.le_antisymm ?_ ?_
    · rw [← List.getElem?_eq_none_iff, getElem?_children, child?, List.getElem?_eq_none le_rfl]
      rfl
    · rw [← List.getElem?_eq_none_iff, ← Option.map_eq_none_iff, ← child?, ← getElem?_children,
        List.getElem?_eq_none le_rfl]
  -- the last of the first `n` children is put on the stack before the others
  have htake : ∀ n ≤ r.children.length, ∀ stack,
      (List.range n).foldr (fun i stack => ((r.child? i).map (· :: stack)).getD stack) stack =
        r.children.take n ++ stack := by
    intro n
    induction n with
    | zero => exact fun _ _ => rfl
    | succ n ih =>
      intro hn stack
      rw [List.range_succ, List.foldr_append, List.foldr_cons, List.foldr_nil, ih (Nat.le_of_succ_le hn),
        ← getElem?_children, List.getElem?_eq_getElem hn, List.take_succ_eq_append_getElem hn, List.append_assoc]
      rfl
  rw [push, htake _ hlength.ge, ← hlength, List.take_length]

theorem walkAll_eq_flatMap (parent : Red) (index : Nat) (cs : List Green) :
    walkAll parent index cs = (parent.place index cs).flatMap descendants := by
  induction cs generalizing index with
  | nil => rfl
  | cons c cs ih => rw [walkAll, ih]; rfl

/-- A place, and behind it all that lies at or below each of its children. -/
theorem descendants_eq (r : Red) : r.descendants = r :: r.children.flatMap descendants := by
  obtain ⟨g, offset, above⟩ := r
  cases g with
  | token t => rfl
  | node hd cs => exact congrArg _ (walkAll_eq_flatMap ⟨.node hd cs, offset, above⟩ 0 cs)

/-- **Visits.** The place on top of the stack is visited, and its children take its place. -/
def visit : List Red → List Red
  | [] => []
  | r :: stack => r :: visit (r.push stack)
termination_by stack => (stack.flatMap descendants).length
decreasing_by
  rw [push_eq, List.flatMap_append, List.flatMap_cons, r.descendants_eq, List.cons_append]
  exact Nat.lt_succ_self _

/-- **Stack and recursion.** From a stack on all places at or below those on the stack are visited, one place after the
other. -/
theorem visit_eq (stack : List Red) : visit stack = stack.flatMap descendants := by
  fun_induction visit stack with
  | case1 => rfl
  | case2 r stack ih => rw [ih, push_eq, List.flatMap_append, List.flatMap_cons, r.descendants_eq, List.cons_append]

/-! ## The order of visits -/

/-- The paths of all that lies at or below a child go through its index. -/
theorem exists_path_eq (hc : r.child? i = some c) (hd : d ∈ c.descendants) : ∃ rest, d.path = r.path ++ i :: rest := by
  obtain ⟨rest, hrest⟩ := mem_descendants_iff.1 hd
  exact ⟨rest, path_of_follow? (follow?_cons_eq_some_iff.2 ⟨c, hc, hrest⟩)⟩

theorem exists_child?_of_mem_children (hc : c ∈ r.children) : ∃ i, r.child? i = some c := by
  obtain ⟨i, hi⟩ := List.mem_iff_getElem?.1 hc
  exact ⟨i, getElem?_children r i ▸ hi⟩

/-- **Order.** Places are visited in the lexical order of their paths. So a place comes in front of all that lies below it,
and what lies at or below a child in front of what lies at or below a later one. -/
theorem pairwise_path (r : Red) : r.descendants.Pairwise fun a b => a.path < b.path := by
  induction r using child_induction with
  | step r ih =>
    rw [descendants_eq, List.pairwise_cons, List.pairwise_flatMap]
    refine ⟨fun d hd => ?_, fun c hc => ?_, List.pairwise_iff_getElem.2 fun i j hi hj hij => ?_⟩
    · obtain ⟨c, hc, hd⟩ := List.mem_flatMap.1 hd
      obtain ⟨i, hi⟩ := exists_child?_of_mem_children hc
      obtain ⟨rest, hrest⟩ := exists_path_eq hi hd
      have hlt : r.path ++ [] < r.path ++ i :: rest := List.Lex.append_left _ .nil _
      rwa [List.append_nil, ← hrest] at hlt
    · obtain ⟨i, hi⟩ := exists_child?_of_mem_children hc
      exact ih i c hi
    · intro d hd e he
      have hchild : ∀ k (hk : k < r.children.length), r.child? k = some r.children[k] := by
        intro k hk
        rw [← getElem?_children, List.getElem?_eq_getElem hk]
      obtain ⟨rest, hrest⟩ := exists_path_eq (hchild i hi) hd
      obtain ⟨rest', hrest'⟩ := exists_path_eq (hchild j hj) he
      rw [hrest, hrest']
      exact List.Lex.append_left _ (.rel hij) _

theorem nodup_descendants (r : Red) : r.descendants.Nodup := by
  refine (pairwise_path r).imp ?_
  rintro a b hlt rfl
  exact lt_irrefl _ hlt

/-! ## Steps up and down -/

theorem mem_descendants_of_parent? (hd : d ∈ (ofRoot root).descendants) (hp : d.parent? = some p) :
    p ∈ (ofRoot root).descendants := by
  refine mem_descendants_of_mem_ancestors hd (List.mem_cons_of_mem _ ?_)
  rw [parent?] at hp
  cases habove : d.above with
  | nil => simp [habove] at hp
  | cons crumb rest =>
    obtain rfl : (⟨crumb.parent, crumb.offset, rest⟩ : Red) = p := by simpa [habove] using hp
    exact List.mem_cons_self

/-- The step up from a place below a root is undone by the step down to its index, and leads in front of the place by what
its siblings in front of it are wide. -/
theorem child?_parent? (hexact : root.Exact) (hd : d ∈ (ofRoot root).descendants) (hp : d.parent? = some p) :
    p.child? d.index = some d ∧ d.offset = p.offset + Green.widthAll (p.green.children.take d.index) := by
  have hchild : p.child? d.index = some d := by
    refine forall_descendants (P := fun d => ∀ p, d.parent? = some p → p.child? d.index = some d) ?_ ?_ d hd p hp
    · rintro r i c - hc p hp
      obtain ⟨-, heq⟩ := child?_eq_some_iff.1 hc
      have hparent : c.parent? = some r := by rw [heq]; rfl
      have hindex : c.index = i := by rw [heq]; rfl
      obtain rfl : r = p := Option.some.inj (hparent.symm.trans hp)
      rwa [hindex]
    · intro p hp
      cases hp
  have hp' := mem_descendants_of_parent? hd hp
  exact ⟨hchild, offset_of_child? (Inside.of_mem_descendants (r := ofRoot root) hexact hp').exact hchild⟩

/-- Only from the root there is no step up. -/
theorem eq_of_parent?_eq_none (hd : d ∈ (ofRoot root).descendants) (hp : d.parent? = none) : d = ofRoot root := by
  revert hp
  refine forall_descendants (P := fun d => d.parent? = none → d = ofRoot root) ?_ (fun _ => rfl) d hd
  rintro r i c - hc hp
  rw [(child?_eq_some_iff.1 hc).2] at hp
  cases hp

/-! ## Ranges -/

theorem tile_place (hexact : r.green.Exact) (taken : List Green) {cs : List Green}
    (hcs : r.green.children = taken ++ cs) :
    Range.Tile (r.offset + Green.widthAll taken) (r.offset + Green.widthAll r.green.children)
      ((r.place taken.length cs).map fullRange) := by
  induction cs generalizing taken with
  | nil =>
    rw [List.append_nil] at hcs
    rw [hcs]
    rfl
  | cons c cs ih =>
    have hrest := ih (taken ++ [c]) (by simp [hcs])
    rw [List.length_append, Green.widthAll_append, ← Nat.add_assoc] at hrest
    have hstart : (r.below taken.length c).fullRange = ⟨r.offset + Green.widthAll taken, c.width⟩ := by
      rw [← hexact.childStart_of_append hcs]
      rfl
    rw [place, List.map_cons, hstart]
    exact ⟨rfl, hrest⟩

/-- The children of a node tile its range. -/
theorem tile_children (hexact : r.green.Exact) (hnode : r.green.isNode = true) :
    Range.Tile r.fullRange.start r.fullRange.stop (r.children.map fullRange) := by
  have hstop : r.fullRange.stop = r.offset + Green.widthAll r.green.children :=
    congrArg (r.offset + ·) (hexact.width_eq_of_children hnode)
  rw [hstop]
  exact tile_place hexact [] rfl

/-- **Tokens.** The places of tokens that are visited are those that the tokens have from left to right. -/
theorem tokens_eq (hexact : r.green.Exact) :
    r.tokens.map (fun d => (d.offset, d.green)) =
      (r.green.tokensFrom r.offset).map fun p => (p.1, Green.token p.2) := by
  obtain ⟨g, offset, above⟩ := r
  change ((walk g offset above).filter fun d => !d.green.isNode).map _ = _
  induction g using Green.induction generalizing offset above with
  | token t => rfl
  | node hd cs ih =>
    -- the row is shortened from the front, and what was taken from it lies in front of the rest
    have hall : ∀ ds taken, cs = taken ++ ds →
        ((walkAll ⟨.node hd cs, offset, above⟩ taken.length ds).filter fun d => !d.green.isNode).map
            (fun d => (d.offset, d.green)) =
          (Green.placeTokens (offset + Green.widthAll taken) (Green.tokensAll ds)).map
            fun p => (p.1, Green.token p.2) := by
      intro ds
      induction ds with
      | nil => exact fun _ _ => rfl
      | cons d ds ihds =>
        intro taken hcs
        have hmem : d ∈ cs := by simp [hcs]
        have hd' := hexact.of_mem hmem
        have hrest := ihds (taken ++ [d]) (by simp [hcs])
        rw [List.length_append, Green.widthAll_append, ← Nat.add_assoc] at hrest
        have hstart : (below ⟨.node hd cs, offset, above⟩ taken.length d).offset = offset + Green.widthAll taken := by
          rw [← hexact.childStart_of_append hcs]
          rfl
        rw [walkAll, List.filter_append, List.map_append, ih d hmem _ _ hd', hstart, Green.tokensAll,
          hd'.tokensFrom_append, List.map_append]
        exact congrArg _ hrest
    rw [walk, List.filter_cons_of_neg (by simp [Green.isNode])]
    exact hall cs [] rfl

/-- A token in a tree stands behind the leaves in front of it. -/
theorem exists_leaves_of_token (hexact : root.Exact) (hd : d ∈ (ofRoot root).descendants) {t : Token}
    (ht : d.green = .token t) : ∃ as bs, root.leaves = as ++ t.leaf :: bs ∧ d.offset = Leaf.widthAll as := by
  have hmem : (d.offset, d.green) ∈ (ofRoot root).tokens.map fun d => (d.offset, d.green) :=
    List.mem_map.2 ⟨d, List.mem_filter.2 ⟨hd, by rw [ht]; rfl⟩, rfl⟩
  rw [tokens_eq (r := ofRoot root) hexact] at hmem
  obtain ⟨⟨offset, u⟩, hplace, heq⟩ := List.mem_map.1 hmem
  obtain ⟨hoffset, hgreen⟩ := Prod.mk.inj heq
  obtain rfl : u = t := Green.token.inj (hgreen.trans ht)
  obtain ⟨as, bs, htokens, hstart⟩ := Green.exists_of_mem_placeTokens hplace
  refine ⟨as.map Token.leaf, bs.map Token.leaf, ?_, ?_⟩
  · have hrow : root.tokens = as ++ u :: bs := htokens
    rw [Green.leaves, hrow, List.map_append, List.map_cons]
  · rw [← hoffset, hstart]
    exact Nat.zero_add _

/-- The tokens at and below a place tile its range. -/
theorem tile_tokens (hexact : r.green.Exact) :
    Range.Tile r.fullRange.start r.fullRange.stop (r.tokens.map fullRange) := by
  have htokens : r.tokens.map fullRange =
      (r.green.tokensFrom r.offset).map fun p => ⟨p.1, p.2.leaf.width⟩ := by
    have hmap := congrArg (List.map fun p : Nat × Green => (⟨p.1, p.2.width⟩ : Range)) (tokens_eq hexact)
    rwa [List.map_map, List.map_map] at hmap
  have hstop : r.fullRange.stop = r.offset + Leaf.widthAll (r.green.tokens.map Token.leaf) :=
    congrArg (r.offset + ·) hexact.width_eq_widthAll
  rw [htokens, hstop]
  exact Green.tile_placeTokens r.offset r.green.tokens

/-- The range without outer trivia lies inside the range with them. -/
theorem range_inside (hexact : r.green.Exact) :
    r.fullRange.start ≤ r.range.start ∧ r.range.stop ≤ r.fullRange.stop := by
  have hleading : (r.green.firstToken?.map (·.leaf.leadingWidth)).getD 0 ≤ r.green.width := by
    rw [hexact.width_eq_widthAll, Green.firstToken?, Green.leaves]
    cases r.green.tokens with
    | nil => exact Nat.zero_le _
    | cons t ts =>
      simp only [List.head?_cons, Option.map_some, Option.getD_some, List.map_cons, Leaf.widthAll_cons, Leaf.width]
      omega
  simp only [range, Range.between, Range.stop, fullRange]
  omega

/-- **Traversal.** Let every node below a root keep the right summary. Walking from the root with a stack visits what the
recursive walk visits: all places that paths lead to, each of them once, in the lexical order of the paths. From each of them
but the root the way up leads to a place that is visited too, and its index leads back. The place stands behind the start of
its parent by the widths of the siblings in front of it, the children of a node tile its range, and the range without outer
trivia lies inside. The tokens tile the text, and they are those of the root with their offsets, as the walk with relative
offsets finds them. -/
theorem traversal_spec (hexact : root.Exact) :
    visit [ofRoot root] = (ofRoot root).descendants ∧
    (∀ d, d ∈ visit [ofRoot root] ↔ ∃ path, (ofRoot root).follow? path = some d) ∧
    (visit [ofRoot root]).Nodup ∧
    (visit [ofRoot root]).Pairwise (fun a b => a.path < b.path) ∧
    (∀ d ∈ visit [ofRoot root],
      (∀ p, d.parent? = some p → p ∈ visit [ofRoot root] ∧ p.child? d.index = some d ∧
        d.offset = p.offset + Green.widthAll (p.green.children.take d.index)) ∧
      (d.parent? = none → d = ofRoot root) ∧
      (d.green.isNode = true → Range.Tile d.fullRange.start d.fullRange.stop (d.children.map fullRange)) ∧
      d.fullRange.start ≤ d.range.start ∧ d.range.stop ≤ d.fullRange.stop) ∧
    Range.Tile 0 root.width ((ofRoot root).tokens.map fullRange) ∧
    (ofRoot root).tokens.map (fun d => (d.offset, d.green)) =
      (root.eachToken 0).map fun p => (p.1, Green.token p.2) := by
  have hvisit : visit [ofRoot root] = (ofRoot root).descendants := by rw [visit_eq, List.flatMap_singleton]
  rw [hvisit]
  refine ⟨rfl, fun d => mem_descendants_iff, nodup_descendants _, pairwise_path _, fun d hd => ?_, ?_, ?_⟩
  · have hd' := (Inside.of_mem_descendants (r := ofRoot root) hexact hd).exact
    exact ⟨fun p hp => ⟨mem_descendants_of_parent? hd hp, child?_parent? hexact hd hp⟩, eq_of_parent?_eq_none hd,
      tile_children hd', range_inside hd'⟩
  · simpa [fullRange, ofRoot, Range.stop] using tile_tokens (r := ofRoot root) hexact
  · rw [hexact.eachToken_eq]
    exact tokens_eq (r := ofRoot root) hexact

/-- Nodes without children and a missing token, in front of the only token with a text and behind it. -/
theorem traversal_spec_empty :
    let gone : Token := ⟨0, { kind := .token (.punct .semicolon), text := [], missing := true }⟩
    let name : Token := ⟨1, { kind := .token .ident, text := ['a'] }⟩
    let empty := Green.ofChildren 2 (.node .exprStmt) []
    let statement := Green.ofChildren 3 (.node .exprStmt) [empty, .token gone, .token name]
    let root := Green.ofChildren 4 (.node .compilationUnit) [empty, statement, empty]
    root.Exact ∧
      (visit [ofRoot root]).map (fun d => (d.path, d.offset)) =
        [([], 0), ([0], 0), ([1], 0), ([1, 0], 0), ([1, 1], 0), ([1, 2], 0), ([2], 1)] ∧
      (visit [ofRoot root]).Nodup ∧ Range.Tile 0 1 ((ofRoot root).tokens.map fullRange) ∧
      (ofRoot root).tokens.map (fun d => (d.offset, d.green)) = [(0, .token gone), (0, .token name)] := by
  intro gone name empty statement root
  have hexact : root.Exact := ⟨⟨rfl, rfl, rfl⟩, ⟨⟨rfl, rfl, rfl⟩, trivial⟩,
    ⟨⟨rfl, rfl, rfl⟩, ⟨⟨rfl, rfl, rfl⟩, trivial⟩, trivial, trivial, trivial⟩, ⟨⟨rfl, rfl, rfl⟩, trivial⟩, trivial⟩
  obtain ⟨hvisit, -, hnodup, -, -, htile, htokens⟩ := traversal_spec hexact
  exact ⟨hexact, by rw [hvisit]; rfl, hnodup, htile, htokens⟩

end Red

end IncrementalSyntax

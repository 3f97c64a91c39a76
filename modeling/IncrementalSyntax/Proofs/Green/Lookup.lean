import IncrementalSyntax.Proofs.Green.Leaves
import IncrementalSyntax.Proofs.Token.Lossless

/-!
# What a look-up finds

The token or the node that a look-up finds at an offset takes its place among the leaves of the tree: the
leaves in front of it are as wide as the offset says.

## Main results

* `Green.exists_of_tokenAmong?`: the place of a token that was looked up
* `Green.exists_of_nodeStarting?`: the place of a node that was looked up, and what it would miss there
-/

namespace IncrementalSyntax

/-- The kind of the first of some leaves that is not missing, and of `next` behind them if there is none. -/
def Leaf.firstKind (ls : List Leaf) (next : TokenKind) : TokenKind :=
  ((ls.filter fun l => !l.missing).head?.map Leaf.tokenKind).getD next

theorem Leaf.firstKind_append (as bs : List Leaf) (next : TokenKind) :
    firstKind (as ++ bs) next = firstKind as (firstKind bs next) := by
  rw [firstKind, firstKind, firstKind, List.filter_append]
  cases as.filter fun l => !l.missing <;> simp

namespace Green

theorem firstKind_eq (cs : List Green) (next : TokenKind) :
    firstKind cs next = Leaf.firstKind (leavesAll cs) next := by
  rw [firstKind, Leaf.firstKind, scannedAll, List.head?_map, Option.map_map]
  rfl

theorem Exact.width_eq_widthAll {g : Green} (h : g.Exact) : g.width = Leaf.widthAll g.leaves := h.width_eq

theorem Exact.of_mem {h : Header} {cs : List Green} (hg : (node h cs).Exact) {c : Green} (hc : c ∈ cs) :
    c.Exact :=
  (exact_node.1 hg).2 c hc

/-! ## Tokens -/

/-- A token that was looked up takes its place among the leaves. -/
def FindsToken (ls : List Leaf) (offset : Nat) (t : Token) : Prop :=
  ∃ as bs, ls = as ++ t.leaf :: bs ∧ Leaf.widthAll as = offset ∧ 0 < t.leaf.width

theorem finds_tokenAmong? {cs : List Green} {offset : Nat} {t : Token} (hexact : ∀ c ∈ cs, c.Exact)
    (hcs : ∀ c ∈ cs, ∀ offset, offset < c.width → c.tokenBelow? offset = some t → FindsToken c.leaves offset t)
    (h : tokenAmong? cs offset = some t) : FindsToken (leavesAll cs) offset t := by
  induction cs generalizing offset with
  | nil => cases h
  | cons c cs ih =>
    rw [tokenAmong?] at h
    rw [leavesAll_cons]
    split at h
    · next hlt =>
      obtain ⟨as, bs, hls, hw, hpos⟩ := hcs c List.mem_cons_self offset hlt h
      exact ⟨as, bs ++ leavesAll cs, by rw [hls, List.append_assoc, List.cons_append], hw, hpos⟩
    · next hge =>
      obtain ⟨as, bs, hls, hw, hpos⟩ := ih (fun d hd => hexact d (List.mem_cons_of_mem _ hd))
        (fun d hd => hcs d (List.mem_cons_of_mem _ hd)) h
      refine ⟨c.leaves ++ as, bs, by rw [hls, List.append_assoc], ?_, hpos⟩
      rw [Leaf.widthAll_append, ← (hexact c List.mem_cons_self).width_eq_widthAll, hw]
      omega

theorem exists_of_tokenBelow? {g : Green} (hexact : g.Exact) {offset : Nat} {t : Token}
    (hlt : offset < g.width) (h : g.tokenBelow? offset = some t) : FindsToken g.leaves offset t := by
  induction g using Green.induction generalizing offset with
  | token u =>
    rw [tokenBelow?] at h
    split at h
    · next h0 =>
      cases h
      exact ⟨[], [], rfl, h0.symm, (Nat.zero_le _).trans_lt hlt⟩
    · cases h
  | node hd cs ih =>
    rw [tokenBelow?] at h
    exact finds_tokenAmong? (fun c hc => hexact.of_mem hc) (fun c hc _ hlt' => ih c hc (hexact.of_mem hc) hlt') h

theorem exists_of_tokenAmong? {cs : List Green} (hexact : ∀ c ∈ cs, c.Exact) {offset : Nat} {t : Token}
    (h : tokenAmong? cs offset = some t) : FindsToken (leavesAll cs) offset t :=
  finds_tokenAmong? hexact (fun c hc _ => exists_of_tokenBelow? (hexact c hc)) h

/-- Every token with a width is found where it stands. -/
theorem tokenAmong?_of_leavesAll {cs : List Green} (hexact : ∀ c ∈ cs, c.Exact) {as bs : List Leaf} {l : Leaf}
    (hcs : ∀ c ∈ cs, ∀ as bs, c.leaves = as ++ l :: bs → ∃ t, c.tokenBelow? (Leaf.widthAll as) = some t ∧
      t.leaf = l)
    (hls : leavesAll cs = as ++ l :: bs) (hpos : 0 < l.width) :
    ∃ t, tokenAmong? cs (Leaf.widthAll as) = some t ∧ t.leaf = l := by
  induction cs generalizing as with
  | nil => simp at hls
  | cons c cs ih =>
    have hwidth := (hexact c List.mem_cons_self).width_eq_widthAll
    rw [leavesAll_cons] at hls
    rw [tokenAmong?]
    -- the token stands in the first element, or behind it
    by_cases hin : ∃ as', as = c.leaves ++ as'
    · obtain ⟨as', rfl⟩ := hin
      rw [List.append_assoc] at hls
      have hge : ¬ Leaf.widthAll (c.leaves ++ as') < c.width := by
        rw [Leaf.widthAll_append]
        omega
      rw [if_neg hge, Leaf.widthAll_append, ← hwidth, Nat.add_sub_cancel_left]
      exact ih (fun d hd => hexact d (List.mem_cons_of_mem _ hd)) (fun d hd => hcs d (List.mem_cons_of_mem _ hd))
        (List.append_cancel_left hls)
    · obtain ⟨bs', hleaves⟩ : ∃ bs', c.leaves = as ++ l :: bs' := by
        rcases List.append_eq_append_iff.1 hls with ⟨as', h, -⟩ | ⟨bs', h, hbs⟩
        · exact absurd ⟨as', h⟩ hin
        · cases bs' with
          | nil => exact absurd ⟨[], by rw [h, List.append_nil, List.append_nil]⟩ hin
          | cons k bs' =>
            obtain ⟨rfl, -⟩ := List.cons.inj hbs
            exact ⟨bs', h⟩
      have hlt : Leaf.widthAll as < c.width := by
        rw [hwidth, hleaves, Leaf.widthAll_append, Leaf.widthAll_cons]
        omega
      rw [if_pos hlt]
      exact hcs c List.mem_cons_self as bs' hleaves

theorem tokenBelow?_of_leaves {g : Green} (hexact : g.Exact) {as bs : List Leaf} {l : Leaf}
    (hls : g.leaves = as ++ l :: bs) (hpos : 0 < l.width) :
    ∃ t, g.tokenBelow? (Leaf.widthAll as) = some t ∧ t.leaf = l := by
  induction g using Green.induction generalizing as bs with
  | token u =>
    obtain ⟨rfl, h⟩ : as = [] ∧ u.leaf = l ∧ bs = [] := by
      cases as with
      | nil => simpa [eq_comm] using hls
      | cons a as => simp at hls
    exact ⟨u, by simp [tokenBelow?], h.1⟩
  | node hd cs ih =>
    rw [tokenBelow?]
    exact tokenAmong?_of_leavesAll (fun c hc => hexact.of_mem hc) (fun c hc _ _ => ih c hc (hexact.of_mem hc))
      hls hpos

/-! ## Nodes -/

/-- A node that was looked up takes the place of its leaves among the leaves of some elements. An `else` that
it would miss there is missed below them. -/
structure FindsNode (accept : Green → Bool) (cs : List Green) (offset : Nat) (g : Green) (as bs : List Leaf) :
    Prop where
  leaves : leavesAll cs = as ++ (g.leaves ++ bs)
  width : Leaf.widthAll as = offset
  pos : 0 < g.width
  accepted : accept g = true
  isNode : g.isNode = true
  sub : ∃ c ∈ cs, Sub g c
  misses : ∀ next, g.missesElse (Leaf.firstKind bs next) = true → missesElseAll cs next = true

theorem exists_of_nodeAmong? {accept : Green → Bool} {cs : List Green} {offset : Nat} {g : Green}
    (hexact : ∀ c ∈ cs, c.Exact)
    (hcs : ∀ c ∈ cs, ∀ offset, c.nodeStarting? accept offset = some g →
      ∃ as bs, FindsNode accept c.children offset g as bs)
    (h : nodeAmong? accept cs offset = some g) : ∃ as bs, FindsNode accept cs offset g as bs := by
  induction cs generalizing offset with
  | nil => cases h
  | cons c cs ih =>
    rw [nodeAmong?] at h
    split at h
    · next hlt =>
      split at h
      · next hfound =>
        obtain rfl : c = g := Option.some.inj h
        simp only [Bool.and_eq_true, decide_eq_true_eq] at hfound
        refine ⟨[], leavesAll cs, ⟨by simp, by rw [hfound.1.1]; rfl, (Nat.zero_le _).trans_lt hlt, hfound.2,
          hfound.1.2, ⟨c, List.mem_cons_self, .self c⟩, fun next hm => ?_⟩⟩
        rw [← firstKind_eq] at hm
        rw [missesElseAll, hm, Bool.true_or]
      · obtain ⟨as, bs, hf⟩ := hcs c List.mem_cons_self offset h
        cases c with
        | token t => cases h
        | node hd ds =>
          obtain ⟨d, hd', hsub⟩ := hf.sub
          refine ⟨as, bs ++ leavesAll cs, ⟨?_, hf.width, hf.pos, hf.accepted, hf.isNode,
            ⟨_, List.mem_cons_self, .child hd' hsub⟩, fun next hm => ?_⟩⟩
          · rw [leavesAll_cons, leaves_node, show leavesAll ds = _ from hf.leaves, List.append_assoc,
              List.append_assoc]
          · rw [Leaf.firstKind_append, ← firstKind_eq] at hm
            have := hf.misses _ hm
            rw [missesElseAll, missesElse, show missesElseAll ds _ = true from this, Bool.or_true, Bool.true_or]
    · next hge =>
      obtain ⟨as, bs, hf⟩ := ih (fun d hd => hexact d (List.mem_cons_of_mem _ hd))
        (fun d hd => hcs d (List.mem_cons_of_mem _ hd)) h
      obtain ⟨d, hd, hsub⟩ := hf.sub
      refine ⟨c.leaves ++ as, bs, ⟨by rw [leavesAll_cons, hf.leaves, List.append_assoc], ?_, hf.pos, hf.accepted,
        hf.isNode, ⟨d, List.mem_cons_of_mem _ hd, hsub⟩, fun next hm => ?_⟩⟩
      · rw [Leaf.widthAll_append, ← (hexact c List.mem_cons_self).width_eq_widthAll, hf.width]
        omega
      · rw [missesElseAll, hf.misses next hm, Bool.or_true]

/-- What is looked up is accepted. -/
theorem accept_of_nodeStarting? {accept : Green → Bool} {root g : Green} {offset : Nat}
    (h : root.nodeStarting? accept offset = some g) : accept g = true := by
  induction root using Green.induction generalizing offset with
  | token u => cases h
  | node hd cs ih =>
    rw [nodeStarting?] at h
    induction cs generalizing offset with
    | nil => cases h
    | cons c cs ih' =>
      rw [nodeAmong?] at h
      split_ifs at h with hlt hfound
      · obtain rfl : c = g := Option.some.inj h
        exact (Bool.and_eq_true_iff.1 hfound).2
      · exact ih c List.mem_cons_self h
      · exact ih' (fun d hd => ih d (List.mem_cons_of_mem _ hd)) h

theorem exists_of_nodeStarting? {accept : Green → Bool} {g root : Green} (hexact : root.Exact) {offset : Nat}
    (h : root.nodeStarting? accept offset = some g) :
    ∃ as bs, FindsNode accept root.children offset g as bs := by
  induction root using Green.induction generalizing offset with
  | token u => cases h
  | node hd cs ih =>
    exact exists_of_nodeAmong? (fun c hc => hexact.of_mem hc) (fun c hc _ => ih c hc (hexact.of_mem hc)) h

end Green

end IncrementalSyntax

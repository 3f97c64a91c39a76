import IncrementalSyntax.Proofs.Green.Leaves
import IncrementalSyntax.Proofs.Green.Pool

/-!
# Elements that are made for one place

A node is made for one place of a tree, under an identity of its own, and so is a missing token. A token of the text
may be one that a pool has handed out before, so it can stand at several places. The identities of the two sorts never
meet, and a pool never hands out one of the first sort.

## Main definitions

* `Green.ownIdsAll`, `Green.sharedIdsAll`: the identities of the nodes and the missing tokens, and of all other tokens
* `Green.Distinct`: no element but a token of the text stands at two places
* `Pool.Grows`: a pool after further requests
* `Pool.Clear`: elements in whose places the pool puts no other

## Main results

* `Green.distinct_append`: elements in a row
* `Green.Renewed.replaceChild`: a copy of a node with another child
* `Pool.Clear.mono`: what is clear of a pool stays clear of it
-/

namespace IncrementalSyntax

namespace Green

/-! ## The same element -/

theorem isSame_self (g : Green) : g.isSame g = true := by
  cases g <;> simp [isSame, Token.isSame]

theorem id_eq_of_isSame {g g' : Green} (h : g.isSame g' = true) : g.id = g'.id := by
  cases g <;> cases g' <;> simp_all [isSame, Token.isSame, Green.id]

/-! ## Two sorts of identities -/

mutual

/-- The identities of the nodes and of the missing tokens, each of which is made for one place. -/
def ownIds : Green → List Id
  | token t => if t.leaf.missing then [t.id] else []
  | node h cs => h.id :: ownIdsAll cs

/-- The identities of the nodes and of the missing tokens of elements in a row. -/
def ownIdsAll : List Green → List Id
  | [] => []
  | c :: cs => c.ownIds ++ ownIdsAll cs

end

/-- The identities of the tokens of the text. -/
def sharedIdsAll (cs : List Green) : List Id := ((tokensAll cs).filter fun t => !t.leaf.missing).map Token.id

variable {g c : Green} {as bs cs : List Green} {n m x : Id}

@[simp] theorem ownIdsAll_nil : ownIdsAll [] = [] := rfl

@[simp] theorem ownIdsAll_cons (c : Green) (cs : List Green) : ownIdsAll (c :: cs) = c.ownIds ++ ownIdsAll cs := rfl

theorem ownIdsAll_singleton (g : Green) : ownIdsAll [g] = g.ownIds := List.append_nil _

@[simp] theorem ownIdsAll_append (as bs : List Green) : ownIdsAll (as ++ bs) = ownIdsAll as ++ ownIdsAll bs := by
  induction as with
  | nil => rfl
  | cons a as ih => simp [ih]

@[simp] theorem ownIds_node (h : Header) (cs : List Green) : (node h cs).ownIds = h.id :: ownIdsAll cs := rfl

@[simp] theorem ownIds_ofChildren (id : Id) (kind : Kind) (cs : List Green) (as : List Annotation) :
    (ofChildren id kind cs as).ownIds = id :: ownIdsAll cs := rfl

theorem ownIds_token_of_missing {t : Token} (h : t.leaf.missing = true) : (token t).ownIds = [t.id] := if_pos h

theorem ownIds_token_of_present {t : Token} (h : t.leaf.missing = false) : (token t).ownIds = [] := by
  rw [ownIds, h, if_neg Bool.false_ne_true]

@[simp] theorem sharedIdsAll_nil : sharedIdsAll [] = [] := rfl

@[simp] theorem sharedIdsAll_append (as bs : List Green) :
    sharedIdsAll (as ++ bs) = sharedIdsAll as ++ sharedIdsAll bs := by
  simp [sharedIdsAll]

theorem sharedIdsAll_cons (c : Green) (cs : List Green) : sharedIdsAll (c :: cs) = sharedIdsAll [c] ++ sharedIdsAll cs :=
  sharedIdsAll_append [c] cs

@[simp] theorem sharedIdsAll_node (h : Header) (cs : List Green) : sharedIdsAll [node h cs] = sharedIdsAll cs := by
  simp [sharedIdsAll, tokens]

@[simp] theorem sharedIdsAll_ofChildren (id : Id) (kind : Kind) (cs : List Green) (as : List Annotation) :
    sharedIdsAll [ofChildren id kind cs as] = sharedIdsAll cs := sharedIdsAll_node _ cs

theorem sharedIdsAll_token_of_missing {t : Token} (h : t.leaf.missing = true) : sharedIdsAll [token t] = [] := by
  simp [sharedIdsAll, tokens, h]

theorem sharedIdsAll_token_of_present {t : Token} (h : t.leaf.missing = false) : sharedIdsAll [token t] = [t.id] := by
  simp [sharedIdsAll, tokens, h]

theorem eq_of_mem_ownIdsAll_token {t : Token} (h : x ∈ ownIdsAll [token t]) : x = t.id := by
  cases hm : t.leaf.missing with
  | true => simpa [ownIds_token_of_missing hm] using h
  | false => simp [ownIds_token_of_present hm] at h

theorem eq_of_mem_sharedIdsAll_token {t : Token} (h : x ∈ sharedIdsAll [token t]) : x = t.id := by
  cases hm : t.leaf.missing with
  | true => simp [sharedIdsAll_token_of_missing hm] at h
  | false => simpa [sharedIdsAll_token_of_present hm] using h

theorem Sub.ownIds_subset {root : Green} (h : Sub g root) : ∀ x ∈ g.ownIds, x ∈ root.ownIds := by
  induction h with
  | self => exact fun _ hx => hx
  | @child c h cs hc _ ih =>
    intro x hx
    obtain ⟨as, bs, rfl⟩ := List.append_of_mem hc
    have hx : x ∈ c.ownIds := ih x hx
    simp [hx]

theorem Sub.sharedIds_subset {root : Green} (h : Sub g root) : ∀ x ∈ sharedIdsAll [g], x ∈ sharedIdsAll [root] := by
  induction h with
  | self => exact fun _ hx => hx
  | @child c h cs hc _ ih =>
    intro x hx
    obtain ⟨as, bs, rfl⟩ := List.append_of_mem hc
    have hx : x ∈ sharedIdsAll [c] := ih x hx
    rw [sharedIdsAll_node, sharedIdsAll_append, sharedIdsAll_cons]
    exact List.mem_append_right _ (List.mem_append_left _ hx)

/-! ## Distinct elements -/

/-- **Distinct.** All identities are used up, no two nodes or missing tokens have the same one, and no token of the text
has that of one of them. -/
structure Distinct (n : Id) (cs : List Green) : Prop where
  nodup : (ownIdsAll cs).Nodup
  own_lt : ∀ x ∈ ownIdsAll cs, x < n
  shared_lt : ∀ x ∈ sharedIdsAll cs, x < n
  disjoint : ∀ x ∈ sharedIdsAll cs, x ∉ ownIdsAll cs

/-- **Apart.** No node and no missing token of either row is an element of the other one. -/
structure Apart (as bs : List Green) : Prop where
  own : ∀ x ∈ ownIdsAll as, x ∉ ownIdsAll bs
  ownShared : ∀ x ∈ ownIdsAll as, x ∉ sharedIdsAll bs
  sharedOwn : ∀ x ∈ sharedIdsAll as, x ∉ ownIdsAll bs

theorem distinct_nil (n : Id) : Distinct n [] := ⟨.nil, nofun, nofun, nofun⟩

theorem Distinct.mono (h : Distinct n cs) (hle : n ≤ m) : Distinct m cs :=
  { h with
    own_lt := fun x hx => (h.own_lt x hx).trans_le hle
    shared_lt := fun x hx => (h.shared_lt x hx).trans_le hle }

/-- Elements in a row are distinct if those of both parts are and the parts lie apart. -/
theorem distinct_append : Distinct n (as ++ bs) ↔ Distinct n as ∧ Distinct n bs ∧ Apart as bs := by
  constructor
  · rintro ⟨hnodup, hown, hshared, hdisjoint⟩
    simp only [ownIdsAll_append, sharedIdsAll_append, List.mem_append, List.nodup_append] at *
    refine ⟨⟨hnodup.1, fun x hx => hown x (.inl hx), fun x hx => hshared x (.inl hx), ?_⟩,
      ⟨hnodup.2.1, fun x hx => hown x (.inr hx), fun x hx => hshared x (.inr hx), ?_⟩, ?_, ?_, ?_⟩
    · exact fun x hx hx' => hdisjoint x (.inl hx) (.inl hx')
    · exact fun x hx hx' => hdisjoint x (.inr hx) (.inr hx')
    · exact fun x hx hx' => hnodup.2.2 x hx x hx' rfl
    · exact fun x hx hx' => hdisjoint x (.inr hx') (.inl hx)
    · exact fun x hx hx' => hdisjoint x (.inl hx) (.inr hx')
  · rintro ⟨ha, hb, hapart⟩
    refine ⟨?_, ?_, ?_, ?_⟩
    · rw [ownIdsAll_append, List.nodup_append]
      refine ⟨ha.nodup, hb.nodup, ?_⟩
      rintro x hx _ hx' rfl
      exact hapart.own x hx hx'
    · rw [ownIdsAll_append, List.forall_mem_append]
      exact ⟨ha.own_lt, hb.own_lt⟩
    · rw [sharedIdsAll_append, List.forall_mem_append]
      exact ⟨ha.shared_lt, hb.shared_lt⟩
    · rw [sharedIdsAll_append, ownIdsAll_append, List.forall_mem_append]
      constructor
      · intro x hx hx'
        exact (List.mem_append.1 hx').elim (ha.disjoint x hx) (hapart.sharedOwn x hx)
      · intro x hx hx'
        exact (List.mem_append.1 hx').elim (fun hown => hapart.ownShared x hown hx) (hb.disjoint x hx)

theorem Apart.symm (h : Apart as bs) : Apart bs as where
  own x hx hx' := h.own x hx' hx
  ownShared x hx hx' := h.sharedOwn x hx' hx
  sharedOwn x hx hx' := h.ownShared x hx' hx

theorem apart_append_right : Apart as (bs ++ cs) ↔ Apart as bs ∧ Apart as cs := by
  constructor
  · rintro ⟨hown, hownShared, hsharedOwn⟩
    simp only [ownIdsAll_append, sharedIdsAll_append, List.mem_append, not_or] at hown hownShared hsharedOwn
    exact ⟨⟨fun x hx => (hown x hx).1, fun x hx => (hownShared x hx).1, fun x hx => (hsharedOwn x hx).1⟩,
      ⟨fun x hx => (hown x hx).2, fun x hx => (hownShared x hx).2, fun x hx => (hsharedOwn x hx).2⟩⟩
  · rintro ⟨hb, hc⟩
    refine ⟨fun x hx => ?_, fun x hx => ?_, fun x hx => ?_⟩
    · rw [ownIdsAll_append, List.mem_append, not_or]
      exact ⟨hb.own x hx, hc.own x hx⟩
    · rw [sharedIdsAll_append, List.mem_append, not_or]
      exact ⟨hb.ownShared x hx, hc.ownShared x hx⟩
    · rw [ownIdsAll_append, List.mem_append, not_or]
      exact ⟨hb.sharedOwn x hx, hc.sharedOwn x hx⟩

/-- A node under a new identity. -/
theorem Distinct.ofChildren (h : Distinct n cs) (kind : Kind) (annotations : List Annotation) :
    Distinct (n + 1) [ofChildren n kind cs annotations] where
  nodup := by
    rw [ownIdsAll_singleton, ownIds_ofChildren, List.nodup_cons]
    exact ⟨fun hmem => Nat.lt_irrefl n (h.own_lt n hmem), h.nodup⟩
  own_lt := by
    rw [ownIdsAll_singleton, ownIds_ofChildren, List.forall_mem_cons]
    exact ⟨Nat.lt_succ_self n, fun x hx => Nat.lt_succ_of_lt (h.own_lt x hx)⟩
  shared_lt x hx := Nat.lt_succ_of_lt (h.shared_lt x (by simpa using hx))
  disjoint x hx := by
    rw [sharedIdsAll_ofChildren] at hx
    rw [ownIdsAll_singleton, ownIds_ofChildren, List.mem_cons, not_or]
    exact ⟨(h.shared_lt x hx).ne, h.disjoint x hx⟩

theorem Distinct.children {h : Header} (hd : Distinct n [node h cs]) : Distinct n cs := by
  obtain ⟨hnodup, hown, hshared, hdisjoint⟩ := hd
  simp only [ownIdsAll_singleton, ownIds_node, sharedIdsAll_node] at *
  exact ⟨hnodup.of_cons, fun x hx => hown x (List.mem_cons_of_mem _ hx), hshared,
    fun x hx hx' => hdisjoint x hx (List.mem_cons_of_mem _ hx')⟩

theorem Distinct.of_sub {root : Green} (h : Distinct n [root]) (hsub : Sub g root) : Distinct n [g] := by
  induction hsub with
  | self => exact h
  | @child c hd cs hc _ ih =>
    obtain ⟨as, bs, rfl⟩ := List.append_of_mem hc
    have hrow : Distinct n ([c] ++ bs) := (distinct_append.1 h.children).2.1
    exact ih (distinct_append.1 hrow).1

/-- A token under a new identity. -/
theorem distinct_token (n : Id) (l : Leaf) : Distinct (n + 1) [token ⟨n, l⟩] := by
  cases hm : l.missing with
  | true =>
    refine ⟨?_, ?_, ?_, ?_⟩ <;> simp [ownIds, sharedIdsAll, tokens, hm]
  | false =>
    refine ⟨?_, ?_, ?_, ?_⟩ <;> simp [ownIds, sharedIdsAll, tokens, hm]

/-- A token of the text may have been used before. -/
theorem distinct_token_of_present {t : Token} (h : t.leaf.missing = false) (hlt : t.id < n) : Distinct n [token t] := by
  refine ⟨?_, ?_, ?_, ?_⟩
  · rw [ownIdsAll_singleton, ownIds_token_of_present h]
    exact .nil
  · simp [ownIds_token_of_present h]
  · simpa [sharedIdsAll_token_of_present h] using hlt
  · simp [ownIds_token_of_present h]

/-! ## Copies -/

/-- **Renewed.** A copy whose new elements have identities that were not used before. -/
structure Renewed (n m : Id) (g g' : Green) : Prop where
  le : n ≤ m
  own : ∀ x ∈ ownIdsAll [g'], x ∈ ownIdsAll [g] ∨ n ≤ x
  shared : ∀ x ∈ sharedIdsAll [g'], x ∈ sharedIdsAll [g] ∨ n ≤ x
  distinct : Distinct n [g] → Distinct m [g']

theorem renewed_annotate (n : Id) (g : Green) (a : Annotation) : Renewed n (n + 1) g (g.annotate n a) := by
  cases g with
  | token t =>
    refine ⟨Nat.le_succ n, fun x hx => ?_, fun x hx => ?_, fun _ => distinct_token n _⟩
    · exact .inr (eq_of_mem_ownIdsAll_token hx).ge
    · exact .inr (eq_of_mem_sharedIdsAll_token hx).ge
  | node h cs =>
    refine ⟨Nat.le_succ n, ?_, ?_, fun hd => hd.children.ofChildren h.kind _⟩
    · intro x hx
      simp only [annotate, ownIdsAll_singleton, ownIds_ofChildren, ownIds_node, List.mem_cons] at hx ⊢
      rcases hx with rfl | hx
      · exact .inr le_rfl
      · exact .inl (.inr hx)
    · intro x hx
      exact .inl (by simpa [annotate] using hx)

section Replaced

variable {c' : Green}

/-- A copy lies apart from what its original lies apart from. -/
theorem Renewed.apart (hr : Renewed n m c c') (hbs : Distinct n bs) (h : Apart [c] bs) : Apart [c'] bs where
  own x hx hx' := (hr.own x hx).elim (fun hold => h.own x hold hx') fun hnew => (hbs.own_lt x hx').not_ge hnew
  ownShared x hx hx' :=
    (hr.own x hx).elim (fun hold => h.ownShared x hold hx') fun hnew => (hbs.shared_lt x hx').not_ge hnew
  sharedOwn x hx hx' :=
    (hr.shared x hx).elim (fun hold => h.sharedOwn x hold hx') fun hnew => (hbs.own_lt x hx').not_ge hnew

/-- A copy takes the place of its original in a row. -/
theorem Renewed.distinct_row (hr : Renewed n m c c') (h : Distinct n (as ++ ([c] ++ bs))) :
    Distinct m (as ++ ([c'] ++ bs)) := by
  obtain ⟨has, hrow, hapart⟩ := distinct_append.1 h
  obtain ⟨hc, hbs, hcbs⟩ := distinct_append.1 hrow
  obtain ⟨hasc, hasbs⟩ := apart_append_right.1 hapart
  refine distinct_append.2 ⟨has.mono hr.le, distinct_append.2 ⟨hr.distinct hc, hbs.mono hr.le, hr.apart hbs hcbs⟩, ?_⟩
  exact apart_append_right.2 ⟨(hr.apart has hasc.symm).symm, hasbs⟩

/-- **A copy with another child** under a new identity, if the child is a copy of the one that was there. -/
theorem Renewed.replaceChild {h : Header} {i : Nat} (hr : Renewed n m c c') (hc : cs[i]? = some c) :
    Renewed n (m + 1) (node h cs) ((node h cs).replaceChild m i c') := by
  obtain ⟨hcs, hcs'⟩ : cs = cs.take i ++ ([c] ++ cs.drop (i + 1)) ∧ cs.set i c' = cs.take i ++ ([c'] ++ cs.drop (i + 1)) :=
    row_eq hc c'
  show Renewed n (m + 1) (node h cs) (Green.ofChildren m h.kind (cs.set i c') h.annotations)
  refine ⟨hr.le.trans (Nat.le_succ m), ?_, ?_, fun hd => ?_⟩
  · -- besides the children that stay there are only the copy of the node and the copy of the child
    intro x hx
    rw [ownIdsAll_singleton, ownIds_ofChildren, hcs', ownIdsAll_append, ownIdsAll_append] at hx
    rw [ownIdsAll_singleton, ownIds_node, hcs, ownIdsAll_append, ownIdsAll_append]
    have hchild := hr.own x
    have := hr.le
    grind
  · intro x hx
    rw [sharedIdsAll_ofChildren, hcs', sharedIdsAll_append, sharedIdsAll_append] at hx
    rw [sharedIdsAll_node, hcs, sharedIdsAll_append, sharedIdsAll_append]
    have hchild := hr.shared x
    grind
  · have hrow : Distinct m (cs.set i c') := by
      rw [hcs']
      exact hr.distinct_row (hcs ▸ hd.children)
    exact hrow.ofChildren h.kind h.annotations

end Replaced

end Green

/-! ## Pools -/

namespace Pool

open Green (Distinct Apart ownIdsAll sharedIdsAll Renewed Sub)

variable {p p' p'' : Pool} {g g' : Green} {as bs cs : List Green}

/-- The identities of the tokens of a pool. -/
def ids (p : Pool) : List Id := p.entries.map Token.id

/-- **Grows.** A pool after further requests: what it has taken in has new identities. -/
structure Grows (p p' : Pool) : Prop where
  nextId_le : p.nextId ≤ p'.nextId
  ids : ∀ x ∈ p'.ids, x ∈ p.ids ∨ p.nextId ≤ x
  wellFormed : p.WellFormed → p'.WellFormed

theorem Grows.refl (p : Pool) : p.Grows p := ⟨le_rfl, fun _ hx => .inl hx, id⟩

theorem Grows.trans (h : p.Grows p') (h' : p'.Grows p'') : p.Grows p'' where
  nextId_le := h.nextId_le.trans h'.nextId_le
  ids x hx := (h'.ids x hx).elim (h.ids x) fun hnew => .inr (h.nextId_le.trans hnew)
  wellFormed hp := h'.wellFormed (h.wellFormed hp)

theorem grows_token (p : Pool) (l : Leaf) : p.Grows (p.token l).2 where
  nextId_le := p.nextId_le_token l
  ids x hx := by
    obtain ⟨t, ht, rfl⟩ := List.mem_map.1 hx
    exact (mem_entries_token ht).imp List.mem_map_of_mem (fun heq => heq.ge)
  wellFormed hp := hp.token l

/-- Identities may be used up without a request. -/
theorem grows_of_le {n : Id} (h : p.nextId ≤ n) : p.Grows { p with nextId := n } where
  nextId_le := h
  ids _ hx := .inl hx
  wellFormed hp := { hp with used := fun t ht => (hp.used t ht).trans_le h }

theorem grows_fresh (p : Pool) : p.Grows p.fresh.2 := grows_of_le (Nat.le_succ p.nextId)

theorem WellFormed.lt_of_mem_ids (hp : p.WellFormed) {x : Id} (hx : x ∈ p.ids) : x < p.nextId := by
  obtain ⟨t, ht, rfl⟩ := List.mem_map.1 hx
  exact hp.used t ht

/-- A token that is handed out is one of the pool, or it has a new identity. -/
theorem id_token_cases (p : Pool) (l : Leaf) :
    (p.token l).1.id ∈ p.ids ∨ (p.token l).1.id = p.nextId ∧ p.nextId < (p.token l).2.nextId := by
  rcases p.token_cases l with ⟨-, t, hfind, h⟩ | ⟨-, -, -, h⟩ | ⟨-, h⟩ <;> rw [h]
  · exact .inl (List.mem_map_of_mem (mem_of_find? hfind))
  · exact .inr ⟨rfl, Nat.lt_succ_self _⟩
  · exact .inr ⟨rfl, Nat.lt_succ_self _⟩

/-- **Clear.** The elements are distinct, and the pool hands out none of their nodes and missing tokens. -/
structure Clear (p : Pool) (cs : List Green) : Prop where
  distinct : Distinct p.nextId cs
  pooled : ∀ x ∈ p.ids, x ∉ ownIdsAll cs

theorem clear_nil (p : Pool) : p.Clear [] := ⟨Green.distinct_nil _, fun _ _ => nofun⟩

/-- What is clear of a pool stays clear of it. -/
theorem Clear.mono (h : p.Clear cs) (hgrows : p.Grows p') : p'.Clear cs where
  distinct := h.distinct.mono hgrows.nextId_le
  pooled x hx hx' := (hgrows.ids x hx).elim (fun hold => h.pooled x hold hx') fun hnew =>
    (h.distinct.own_lt x hx').not_ge hnew

theorem Clear.append (ha : p.Clear as) (hb : p.Clear bs) (hapart : Apart as bs) : p.Clear (as ++ bs) where
  distinct := Green.distinct_append.2 ⟨ha.distinct, hb.distinct, hapart⟩
  pooled x hx := by
    rw [Green.ownIdsAll_append, List.mem_append, not_or]
    exact ⟨ha.pooled x hx, hb.pooled x hx⟩

theorem Clear.of_sub (h : p.Clear [g']) (hsub : Sub g g') : p.Clear [g] where
  distinct := h.distinct.of_sub hsub
  pooled x hx := by
    rw [Green.ownIdsAll_singleton]
    exact fun hx' => h.pooled x hx (Green.ownIdsAll_singleton g' ▸ hsub.ownIds_subset x hx')

/-- A copy whose new elements have new identities. -/
theorem Clear.renewed {n : Id} (h : p.Clear [g]) (hp : p.WellFormed) (hr : Renewed p.nextId n g g') :
    Clear { p with nextId := n } [g'] where
  distinct := hr.distinct h.distinct
  pooled x hx hx' := (hr.own x hx').elim (h.pooled x hx) fun hnew => (hp.lt_of_mem_ids hx).not_ge hnew

/-- A node under a new identity. -/
theorem Clear.ofChildren (h : p.Clear cs) (hp : p.WellFormed) (kind : Kind) :
    p.fresh.2.Clear [.ofChildren p.fresh.1 kind cs] where
  distinct := h.distinct.ofChildren kind []
  pooled x hx := by
    rw [Green.ownIdsAll_singleton, Green.ownIds_ofChildren, List.mem_cons, not_or]
    exact ⟨(hp.lt_of_mem_ids hx).ne, h.pooled x hx⟩

/-- A token under a new identity. -/
theorem clear_token (hp : p.WellFormed) (l : Leaf) : p.fresh.2.Clear [.token ⟨p.fresh.1, l⟩] where
  distinct := Green.distinct_token _ _
  pooled x hx hx' := by
    have heq : x = p.nextId := Green.eq_of_mem_ownIdsAll_token hx'
    exact (hp.lt_of_mem_ids hx).ne heq

/-- A token of the text. -/
theorem clear_token_of_present {t : Token} (h : t.leaf.missing = false) (hlt : t.id < p.nextId) :
    p.Clear [.token t] where
  distinct := Green.distinct_token_of_present h hlt
  pooled x _ := by simp [Green.ownIds_token_of_present h]

end Pool

end IncrementalSyntax

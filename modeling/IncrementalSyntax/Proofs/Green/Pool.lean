import Mathlib
import IncrementalSyntax.Green.Pool

/-!
# Shared tokens

What a pool holds after any requests, and which requests get the same token. A token found in the pool is
never lost again, and one that is new has an identity that no token had before.

## Main definitions

* `Pool.entries`: the tokens of a pool
* `Pool.WellFormed`: what holds of a pool after any requests
* `Pool.answer`: the tokens for requests in a row, and the pool behind them

## Main results

* `Pool.WellFormed.token`, `Pool.wellFormed_answer`: a request keeps a pool well-formed, and so do requests
  in a row
* `Pool.id_eq_iff`: which two requests get the same token
-/

namespace IncrementalSyntax

namespace TokenTree

/-- The tokens from left to right. -/
def toList : TokenTree → List Token
  | empty => []
  | branch _ tokens left right => left.toList ++ (tokens ++ right.toList)

theorem mem_toList_of_withText {t : Token} {text : Text} {tree : TokenTree} (h : t ∈ tree.withText text) :
    t ∈ tree.toList := by
  induction tree with
  | empty => cases h
  | branch x tokens left right ihl ihr =>
    rw [withText] at h
    rw [toList, List.mem_append, List.mem_append]
    split at h
    · exact .inr (.inl h)
    · split at h
      · exact .inl (ihl h)
      · exact .inr (.inr (ihr h))

/-- An inserted token joins the others. -/
theorem toList_insert_perm (t : Token) (tree : TokenTree) : (tree.insert t).toList.Perm (t :: tree.toList) := by
  induction tree with
  | empty => exact .refl _
  | branch x tokens left right ihl ihr =>
    rw [insert]
    split
    · exact List.perm_middle
    · split
      · exact ihl.append_right _
      · have h : (tokens ++ (right.insert t).toList).Perm (t :: (tokens ++ right.toList)) :=
          (ihr.append_left tokens).trans List.perm_middle
        exact (h.append_left left.toList).trans List.perm_middle

end TokenTree

namespace Pool

/-- The tokens of a pool. -/
def entries (p : Pool) : List Token := p.tokens.toList

theorem entries_add_perm (p : Pool) (l : Leaf) : (p.add l).entries.Perm (⟨p.nextId, l⟩ :: p.entries) :=
  TokenTree.toList_insert_perm _ _

@[simp] theorem entries_fresh (p : Pool) : p.fresh.2.entries = p.entries := rfl

/-- **Well-formed.** Every token is found by its text. The tokens are poolable, have different leaves and
different identities, all of them used up, and there are as many as counted, at most as many as fit in. -/
structure WellFormed (p : Pool) : Prop where
  found : ∀ t ∈ p.entries, t ∈ p.tokens.withText t.leaf.text
  poolable : ∀ t ∈ p.entries, t.leaf.isPoolable = true
  leaves : (p.entries.map Token.leaf).Nodup
  ids : (p.entries.map Token.id).Nodup
  used : ∀ t ∈ p.entries, t.id < p.nextId
  count : p.count = p.entries.length
  count_le : p.count ≤ limit

theorem wellFormed_empty : WellFormed {} where
  found := nofun
  poolable := nofun
  leaves := .nil
  ids := .nil
  used := nofun
  count := rfl
  count_le := Nat.zero_le _

/-! ## What is found -/

section Find

variable {p : Pool} {l : Leaf} {t : Token}

theorem mem_of_find? (h : p.find? l = some t) : t ∈ p.entries :=
  TokenTree.mem_toList_of_withText (List.mem_of_find?_eq_some h)

theorem WellFormed.leaf_injective (hp : p.WellFormed) {u : Token} (ht : t ∈ p.entries) (hu : u ∈ p.entries)
    (h : t.leaf = u.leaf) : t = u :=
  List.inj_on_of_nodup_map hp.leaves ht hu h

/-- The pool finds its tokens and no others. -/
theorem WellFormed.find?_eq_some (hp : p.WellFormed) : p.find? l = some t ↔ t ∈ p.entries ∧ t.leaf = l := by
  refine ⟨fun h => ⟨mem_of_find? h, leaf_of_find? h⟩, ?_⟩
  rintro ⟨ht, rfl⟩
  have hsome : (p.find? t.leaf).isSome = true := by
    rw [find?, List.find?_isSome]
    exact ⟨t, hp.found t ht, by simp⟩
  obtain ⟨u, hu⟩ := Option.isSome_iff_exists.1 hsome
  rw [hu, hp.leaf_injective (mem_of_find? hu) ht (leaf_of_find? hu)]

/-- A token that is found is never lost. -/
theorem find?_add (h : p.find? l = some t) {l' : Leaf} (hne : l ≠ l') : (p.add l').find? l = some t := by
  rw [find?, add, TokenTree.withText_insert]
  split
  · rw [List.find?_cons_of_neg (by simpa using Ne.symm hne)]
    exact h
  · exact h

theorem find?_token (h : p.find? l = some t) (l' : Leaf) : (p.token l').2.find? l = some t := by
  unfold token
  split
  · split
    · exact h
    · next hnone =>
      have hne : l ≠ l' := by
        rintro rfl
        rw [h] at hnone
        cases hnone
      dsimp only
      split
      · exact find?_add h hne
      · exact h
  · exact h

end Find

/-! ## Requests -/

/-- How a request is answered: with a token of the pool, with a new one that the pool keeps, or with a new
one that it does not keep. -/
theorem token_cases (p : Pool) (l : Leaf) :
    (l.isPoolable = true ∧ ∃ t, p.find? l = some t ∧ p.token l = (t, p)) ∨
      (l.isPoolable = true ∧ p.find? l = none ∧ p.count < limit ∧ p.token l = (⟨p.nextId, l⟩, p.add l)) ∨
      ((l.isPoolable = true → p.find? l = none ∧ limit ≤ p.count) ∧
        p.token l = (⟨p.nextId, l⟩, p.fresh.2)) := by
  unfold token
  by_cases hl : l.isPoolable = true
  · rw [if_pos hl]
    cases hf : p.find? l with
    | some t => exact .inl ⟨hl, t, rfl, rfl⟩
    | none =>
      by_cases hc : p.count < limit
      · exact .inr (.inl ⟨hl, rfl, hc, by simp [hc]⟩)
      · exact .inr (.inr ⟨fun _ => ⟨rfl, Nat.le_of_not_lt hc⟩, by simp [hc]⟩)
  · rw [if_neg hl]
    exact .inr (.inr ⟨fun h => absurd h hl, rfl⟩)

namespace WellFormed

variable {p : Pool}

theorem fresh (hp : p.WellFormed) : p.fresh.2.WellFormed :=
  { hp with used := fun t ht => Nat.lt_succ_of_lt (hp.used t ht) }

/-- A new token joins the pool. -/
theorem add (hp : p.WellFormed) {l : Leaf} (hl : l.isPoolable = true) (hnone : p.find? l = none)
    (hcount : p.count < limit) : (p.add l).WellFormed := by
  have hperm := p.entries_add_perm l
  have hmem : ∀ t, t ∈ (p.add l).entries ↔ t = ⟨p.nextId, l⟩ ∨ t ∈ p.entries := fun t => by
    rw [hperm.mem_iff, List.mem_cons]
  refine ⟨fun t ht => ?_, fun t ht => ?_, ?_, ?_, fun t ht => ?_, ?_, hcount⟩
  · rw [Pool.add, TokenTree.withText_insert]
    rcases (hmem t).1 ht with rfl | ht
    · simp
    · have hfound := hp.found t ht
      split
      · exact List.mem_cons_of_mem _ hfound
      · exact hfound
  · rcases (hmem t).1 ht with rfl | ht
    · exact hl
    · exact hp.poolable t ht
  · rw [(hperm.map _).nodup_iff, List.map_cons, List.nodup_cons]
    refine ⟨fun hin => ?_, hp.leaves⟩
    obtain ⟨t, ht, htl⟩ := List.mem_map.1 hin
    rw [hp.find?_eq_some.2 ⟨ht, htl⟩] at hnone
    cases hnone
  · rw [(hperm.map _).nodup_iff, List.map_cons, List.nodup_cons]
    refine ⟨fun hin => ?_, hp.ids⟩
    obtain ⟨t, ht, hid⟩ := List.mem_map.1 hin
    exact absurd hid (Nat.ne_of_lt (hp.used t ht))
  · rcases (hmem t).1 ht with rfl | ht
    · exact Nat.lt_succ_self _
    · exact Nat.lt_succ_of_lt (hp.used t ht)
  · rw [hperm.length_eq, List.length_cons, ← hp.count]
    rfl

/-- **A request** keeps the pool well-formed. -/
theorem token (hp : p.WellFormed) (l : Leaf) : (p.token l).2.WellFormed := by
  rcases p.token_cases l with ⟨-, t, -, h⟩ | ⟨hl, hnone, hcount, h⟩ | ⟨-, h⟩
  · rw [h]
    exact hp
  · rw [h]
    exact hp.add hl hnone hcount
  · rw [h]
    exact hp.fresh

end WellFormed

/-- Identities are used up one after the other, and what the pool takes in has a new one. -/
theorem nextId_le_token (p : Pool) (l : Leaf) : p.nextId ≤ (p.token l).2.nextId := by
  rcases p.token_cases l with ⟨-, t, -, h⟩ | ⟨-, -, -, h⟩ | ⟨-, h⟩ <;> rw [h]
  · exact Nat.le_succ p.nextId
  · exact Nat.le_succ p.nextId

theorem mem_entries_token {p : Pool} {l : Leaf} {t : Token} (h : t ∈ (p.token l).2.entries) :
    t ∈ p.entries ∨ t.id = p.nextId := by
  rcases p.token_cases l with ⟨-, _, -, heq⟩ | ⟨-, -, -, heq⟩ | ⟨-, heq⟩ <;> rw [heq] at h
  · exact .inl h
  · rcases List.mem_cons.1 ((p.entries_add_perm l).mem_iff.1 h) with rfl | h
    · exact .inr rfl
    · exact .inl h
  · exact .inl h

/-! ## Requests in a row -/

/-- The tokens for requests in a row, and the pool behind them. -/
def answer (p : Pool) : List Leaf → List Token × Pool
  | [] => ([], p)
  | l :: ls => ((p.token l).1 :: ((p.token l).2.answer ls).1, ((p.token l).2.answer ls).2)

section Answer

variable {p : Pool} {ls : List Leaf}

theorem answer_append (p : Pool) (ls ms : List Leaf) : p.answer (ls ++ ms) =
    ((p.answer ls).1 ++ ((p.answer ls).2.answer ms).1, ((p.answer ls).2.answer ms).2) := by
  induction ls generalizing p with
  | nil => rfl
  | cons l ls ih => simp [answer, ih]

/-- The pool never changes the content of tokens. -/
theorem leaves_answer (p : Pool) (ls : List Leaf) : (p.answer ls).1.map Token.leaf = ls := by
  induction ls generalizing p with
  | nil => rfl
  | cons l ls ih => simp [answer, ih, leaf_token]

@[simp] theorem length_answer (p : Pool) (ls : List Leaf) : (p.answer ls).1.length = ls.length := by
  rw [← List.length_map Token.leaf, leaves_answer]

/-- **Requests in a row** keep the pool well-formed. -/
theorem wellFormed_answer (hp : p.WellFormed) (ls : List Leaf) : (p.answer ls).2.WellFormed := by
  induction ls generalizing p with
  | nil => exact hp
  | cons l ls ih => exact ih (hp.token l)

theorem find?_answer {l : Leaf} {t : Token} (h : p.find? l = some t) (ls : List Leaf) :
    (p.answer ls).2.find? l = some t := by
  induction ls generalizing p with
  | nil => exact h
  | cons l' ls ih => exact ih (find?_token h l')

theorem nextId_le_answer (p : Pool) (ls : List Leaf) : p.nextId ≤ (p.answer ls).2.nextId := by
  induction ls generalizing p with
  | nil => exact le_refl _
  | cons l ls ih => exact (p.nextId_le_token l).trans (ih _)

/-- A token whose identity was used up before was in the pool before. -/
theorem mem_entries_of_answer {t : Token} (h : t ∈ (p.answer ls).2.entries) (hid : t.id < p.nextId) :
    t ∈ p.entries := by
  induction ls generalizing p with
  | nil => exact h
  | cons l ls ih =>
    have hmem := ih h (hid.trans_le (p.nextId_le_token l))
    exact (mem_entries_token hmem).resolve_right (Nat.ne_of_lt hid)

/-- The token for a request, between those before and those behind it. -/
theorem getElem?_answer {i : Nat} (hi : i < ls.length) :
    (p.answer ls).1[i]? = some ((p.answer (ls.take i)).2.token ls[i]).1 := by
  have hsplit : ls = ls.take i ++ ls[i] :: ls.drop (i + 1) := by simp
  have h : (p.answer ls).1 = (p.answer (ls.take i)).1 ++
      ((p.answer (ls.take i)).2.answer (ls[i] :: ls.drop (i + 1))).1 := by
    conv_lhs => rw [hsplit, answer_append]
  have hlen : (p.answer (ls.take i)).1.length = i := by
    rw [length_answer, List.length_take, Nat.min_eq_left hi.le]
  rw [h, List.getElem?_append_right hlen.le, hlen, Nat.sub_self]
  rfl

end Answer

/-! ## The same token twice -/

/-- Where an identity is given out twice, it is that of a token which is in the pool in between. -/
theorem mem_entries_of_id_eq {p : Pool} (hp : p.WellFormed) {l m : Leaf} {ls : List Leaf}
    (h : (p.token l).1.id = (((p.token l).2.answer ls).2.token m).1.id) :
    m.isPoolable = true ∧ (p.token l).1 = (((p.token l).2.answer ls).2.token m).1 ∧
      (p.token l).1 ∈ (p.token l).2.entries := by
  set q := (p.token l).2 with hq
  have hused : (p.token l).1.id < q.nextId := by
    rcases p.token_cases l with ⟨-, t, ht, heq⟩ | ⟨-, -, -, heq⟩ | ⟨-, heq⟩ <;> rw [hq, heq]
    · exact hp.used t (mem_of_find? ht)
    · exact Nat.lt_succ_self _
    · exact Nat.lt_succ_self _
  have hnot : ∀ t : Token, t.id = (q.answer ls).2.nextId → (p.token l).1.id ≠ t.id := fun t ht he =>
    absurd (he.trans ht) (Nat.ne_of_lt (hused.trans_le (q.nextId_le_answer ls)))
  rcases (q.answer ls).2.token_cases m with ⟨hm, t, ht, heq⟩ | ⟨-, -, -, heq⟩ | ⟨-, heq⟩
  · rw [heq] at h ⊢
    have hmem : t ∈ q.entries := mem_entries_of_answer (mem_of_find? ht) (h ▸ hused)
    -- a new token that the pool does not keep has an identity that no token of the pool has
    have hfirst : (p.token l).1 ∈ q.entries := by
      rcases p.token_cases l with ⟨-, u, hu, heq'⟩ | ⟨-, -, -, heq'⟩ | ⟨-, heq'⟩
      · rw [hq, heq']
        exact mem_of_find? hu
      · rw [hq, heq']
        exact (p.entries_add_perm l).mem_iff.2 List.mem_cons_self
      · rw [hq, heq', entries_fresh] at hmem
        rw [heq'] at h
        exact absurd h (Nat.ne_of_gt (hp.used t hmem))
    exact ⟨hm, List.inj_on_of_nodup_map (hp.token l).ids hfirst hmem h, hfirst⟩
  · rw [heq] at h
    exact absurd h (hnot _ rfl)
  · rw [heq] at h
    exact absurd h (hnot _ rfl)

/-- A leaf that is in the pool behind a request for it gets the same token again. -/
theorem token_eq_of_find? {p : Pool} {l : Leaf} (hl : l.isPoolable = true) {t : Token}
    (h : (p.token l).2.find? l = some t) (hp : p.WellFormed) (ls : List Leaf) :
    (((p.token l).2.answer ls).2.token l).1 = (p.token l).1 := by
  have hlast : (((p.token l).2.answer ls).2.token l).1 = t := by
    rw [token, if_pos hl, find?_answer h ls]
  rw [hlast]
  rcases p.token_cases l with ⟨-, u, hu, heq⟩ | ⟨-, -, -, heq⟩ | ⟨hnone, heq⟩
  · rw [heq] at h ⊢
    exact Option.some.inj (h.symm.trans hu)
  · have hwell := hp.token l
    rw [heq] at h hwell ⊢
    have hnew : (⟨p.nextId, l⟩ : Token) ∈ (p.add l).entries := (p.entries_add_perm l).mem_iff.2 List.mem_cons_self
    exact hwell.leaf_injective (mem_of_find? h) hnew (leaf_of_find? h)
  · rw [heq] at h
    have hnone : p.find? l = none := (hnone hl).1
    exact absurd (hnone.symm.trans h) nofun

/-- **Sharing.** Of two requests the later one gets the token of the earlier one just if both ask for the
same poolable leaf, and this leaf is in the pool right behind the earlier request. -/
theorem id_eq_iff {p : Pool} (hp : p.WellFormed) (l m : Leaf) (ls : List Leaf) :
    (p.token l).1.id = (((p.token l).2.answer ls).2.token m).1.id ↔
      l = m ∧ m.isPoolable = true ∧ ((p.token l).2.find? m).isSome = true := by
  constructor
  · intro h
    obtain ⟨hm, heq, hmem⟩ := mem_entries_of_id_eq hp h
    have hleaf : l = m := by rw [← leaf_token p l, heq, leaf_token]
    refine ⟨hleaf, hm, Option.isSome_iff_exists.2 ⟨_, (hp.token l).find?_eq_some.2 ⟨hmem, ?_⟩⟩⟩
    rw [leaf_token, hleaf]
  · rintro ⟨rfl, hl, hsome⟩
    obtain ⟨t, ht⟩ := Option.isSome_iff_exists.1 hsome
    rw [token_eq_of_find? hl ht hp ls]

end Pool

end IncrementalSyntax

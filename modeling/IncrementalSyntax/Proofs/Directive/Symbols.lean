import Mathlib
import IncrementalSyntax.Directive.State

/-!
# Sets of symbols

The defined symbols are kept in one order, each of them once. A lookup by halving relies on that order, and two
lists in order are equal just if they have the same symbols.

## Main results

* `SymbolSet.pairwise_insert`, `SymbolSet.pairwise_erase`, `SymbolSet.pairwise_ofList`: what keeps the order
* `SymbolSet.mem_insert`, `SymbolSet.mem_erase`, `SymbolSet.mem_ofList`: the symbols in a set
* `SymbolSet.search_iff`: a lookup finds a symbol just if it is there
-/

namespace IncrementalSyntax

namespace SymbolSet

variable {x y : Text} {symbols : List Text}

/-! ## One more symbol, one less -/

theorem mem_insert : y ∈ insert x symbols ↔ y = x ∨ y ∈ symbols := by
  induction symbols with
  | nil => simp [insert]
  | cons z zs ih =>
    rw [insert]
    split_ifs with hlt heq
    · exact List.mem_cons
    · subst heq
      constructor
      · intro h
        exact .inr h
      · rintro (rfl | h)
        · exact List.mem_cons_self
        · exact h
    · rw [List.mem_cons, ih, List.mem_cons]
      tauto

theorem pairwise_insert (h : symbols.Pairwise (· < ·)) : (insert x symbols).Pairwise (· < ·) := by
  induction symbols with
  | nil => exact List.pairwise_singleton _ x
  | cons z zs ih =>
    obtain ⟨hz, hzs⟩ := List.pairwise_cons.1 h
    rw [insert]
    split_ifs with hlt heq
    · refine List.pairwise_cons.2 ⟨fun y hy => ?_, h⟩
      rcases List.mem_cons.1 hy with rfl | hy
      · exact hlt
      · exact hlt.trans (hz y hy)
    · exact h
    · refine List.pairwise_cons.2 ⟨fun y hy => ?_, ih hzs⟩
      rcases mem_insert.1 hy with rfl | hy
      · exact lt_of_le_of_ne (not_lt.1 hlt) (Ne.symm heq)
      · exact hz y hy

theorem mem_erase : y ∈ erase x symbols ↔ y ∈ symbols ∧ y ≠ x := by
  simp [erase]

theorem pairwise_erase (h : symbols.Pairwise (· < ·)) : (erase x symbols).Pairwise (· < ·) :=
  h.filter _

/-! ## A list in any order, with repetitions -/

theorem mem_foldl_insert {set : List Text} :
    y ∈ symbols.foldl (fun s x => insert x s) set ↔ y ∈ symbols ∨ y ∈ set := by
  induction symbols generalizing set with
  | nil => simp
  | cons z zs ih =>
    rw [List.foldl_cons, ih, mem_insert, List.mem_cons]
    tauto

theorem mem_ofList : y ∈ ofList symbols ↔ y ∈ symbols := by
  simp [ofList, mem_foldl_insert]

theorem pairwise_ofList (symbols : List Text) : (ofList symbols).Pairwise (· < ·) := by
  suffices h : ∀ set : List Text, set.Pairwise (· < ·) →
      (symbols.foldl (fun s x => insert x s) set).Pairwise (· < ·) from h [] .nil
  induction symbols with
  | nil => exact fun _ h => h
  | cons z zs ih => exact fun _ h => ih _ (pairwise_insert h)

/-! ## Lookup -/

/-- What is found is there, whatever the order. -/
theorem mem_of_search {fuel : Nat} (h : search x fuel symbols = true) : x ∈ symbols := by
  induction fuel generalizing symbols with
  | zero => cases h
  | succ fuel ih =>
    rw [search] at h
    split at h
    · cases h
    · next y above habove =>
      have hmem : ∀ z ∈ y :: above, z ∈ symbols := fun z hz => List.mem_of_mem_drop (habove ▸ hz)
      split_ifs at h with heq hlt
      · exact heq ▸ hmem y List.mem_cons_self
      · exact List.mem_of_mem_take (ih h)
      · exact hmem x (List.mem_cons_of_mem _ (ih h))

/-- In a list in order every symbol is found. -/
theorem search_of_mem {fuel : Nat} (hfuel : symbols.length ≤ fuel) (h : symbols.Pairwise (· < ·)) (hx : x ∈ symbols) :
    search x fuel symbols = true := by
  induction fuel generalizing symbols with
  | zero =>
    rw [List.length_eq_zero_iff.1 (Nat.le_zero.1 hfuel)] at hx
    cases hx
  | succ fuel ih =>
    have hpos : 0 < symbols.length := List.length_pos_of_mem hx
    have hsplit := List.take_append_drop (symbols.length / 2) symbols
    rw [search]
    split
    · next hnil =>
      have := congrArg List.length hnil
      rw [List.length_drop, List.length_nil] at this
      omega
    · next y above habove =>
      rw [habove] at hsplit
      rw [← hsplit] at h hx
      obtain ⟨hbelow, hrest, hlt⟩ := List.pairwise_append.1 h
      obtain ⟨habove', hup⟩ := List.pairwise_cons.1 hrest
      have hlength := congrArg List.length hsplit
      rw [List.length_append, List.length_cons, List.length_take] at hlength
      split_ifs with heq hless
      · rfl
      · -- what is less than the middle one can only stand below it
        refine ih (by rw [List.length_take]; omega) hbelow ?_
        rcases List.mem_append.1 hx with hx | hx
        · exact hx
        · rcases List.mem_cons.1 hx with rfl | hx
          · exact absurd rfl heq
          · exact absurd (hless.trans (habove' x hx)) (lt_irrefl x)
      · refine ih (by omega) hup ?_
        rcases List.mem_append.1 hx with hx | hx
        · exact absurd (hlt x hx y List.mem_cons_self) hless
        · exact (List.mem_cons.1 hx).resolve_left heq

theorem search_iff (h : symbols.Pairwise (· < ·)) : search x symbols.length symbols = true ↔ x ∈ symbols :=
  ⟨mem_of_search, search_of_mem le_rfl h⟩

end SymbolSet

end IncrementalSyntax

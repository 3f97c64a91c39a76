import IncrementalSyntax.Proofs.Grammar.Lists

/-!
# What is skipped

Skipping goes on up to the first token that ends the text or that an open list can use. All tokens on the way end up in
one node as they are, but the first one gets a diagnostic that covers its text.

## Main definitions

* `Parse.Skipping`: the tokens that have been skipped since a state

## Main results

* `Parse.loop_ends`: what holds behind a repetition
* `Parse.skipToRecovery_spec`: the tokens that are skipped, and where this ends
-/

namespace IncrementalSyntax

namespace Parse

open Green hiding id
open ListContext (stops stops_eq_false_iff)

variable {version : LanguageVersion} {σ : Type} [TokenSource σ] {S : Supply version σ}

/-- What holds where a round says no holds behind the repetition, if every other round takes a token. -/
theorem loop_ends {m : Parse σ Bool} {I Q : Parser σ → Prop}
    (hround : ∀ p, Ready S p → I p → Kept S p (m p).2 ∧ I (m p).2 ∧
      ((m p).1 = false → Q (m p).2) ∧
      ((m p).1 = true → (S.upcoming (m p).2.source).length < (S.upcoming p.source).length))
    {p : Parser σ} (hp : Ready S p) (hI : I p) : Q (loop m p).2 := by
  have hup : ∀ d p, Ready S p → I p → (S.upcoming p.source).length ≤ d →
      Q (fixUpTo (fun again => do if ← m then again) d p).2 := by
    intro d
    induction d with
    | zero => exact fun p hp _ h0 => absurd h0 (S.not_length_le_zero hp.ok)
    | succ d ih =>
      intro p hp hI hlen
      obtain ⟨hk, hI', hfalse, htrue⟩ := hround p hp hI
      show Q ((if (m p).1 = true then fixUpTo (fun again => do if ← m then again) d
        else Pure.pure () : Parse σ Unit) (m p).2).2
      cases hb : (m p).1 with
      | false => exact hfalse hb
      | true =>
        have hlt := htrue hb
        exact ih _ hk.ready hI' (by omega)
  exact hup _ p hp hI (S.remaining hp.ok)

/-- Some tokens have been skipped since a state, and they are all that was emitted. -/
structure Skipping (S : Supply version σ) (p q : Parser σ) (rest : List Token) : Prop where
  state : q = { p with source := q.source, out := p.out ++ rest.map .token }
  upcoming : S.upcoming p.source = rest.map Token.leaf ++ S.upcoming q.source
  skipped : ∀ t ∈ rest, stops p.contexts t.leaf.tokenKind = false

/-- A token that no list can use is skipped like those before it. -/
theorem Skipping.bump {p q : Parser σ} {rest : List Token} (h : Skipping S p q rest) (hq : Ready S q)
    (hfront : stops p.contexts (front S q) = false) :
    Skipping S p (bump q).2 (rest ++ [(TokenSource.next q.source).1]) := by
  rw [front, S.frontKind_upcoming hq.ok] at hfront
  obtain ⟨-, hcons⟩ := S.next_of_ne hq.ok (stops_eq_false_iff.1 hfront).1
  refine ⟨?_, ?_, fun t ht => ?_⟩
  · show ({ q with source := _, out := q.out ++ [.token _] } : Parser σ) = _
    rw [h.state]
    simp
    rfl
  · rw [h.upcoming, hcons]
    simp
    rfl
  · rcases List.mem_append.1 ht with ht | ht
    · exact h.skipped t ht
    · rwa [List.mem_singleton.1 ht]

/-- The tokens behind the first one that is skipped. -/
theorem skipRest_spec {p : Parser σ} (hp : Ready S p) :
    ∃ rest, Skipping S p (skipRest p).2 rest ∧ stops p.contexts (front S (skipRest p).2) = true := by
  refine loop_ends (S := S) (I := fun q => ∃ rest, Skipping S p q rest)
    (Q := fun q => ∃ rest, Skipping S p q rest ∧ stops p.contexts (front S q) = true) ?_ hp
    ⟨[], by simp, by simp, nofun⟩
  rintro q hq ⟨rest, h⟩
  -- skipping opens no list, so every round asks the same lists
  have hcontexts : q.contexts = p.contexts := by rw [h.state]
  have hround : (do if ← atRecoveryPoint then return false else bump; return true : Parse σ Bool) q =
      (if stops p.contexts (front S q) = true then Pure.pure false else do bump; return true : Parse σ Bool) q := by
    rw [← hcontexts, ← atRecoveryPoint_apply hq]
    rfl
  rw [hround]
  cases hfront : stops p.contexts (front S q) with
  | true => exact ⟨.refl hq, ⟨rest, h⟩, fun _ => ⟨rest, h, hfront⟩, nofun⟩
  | false =>
    have hne : front S q ≠ .eof := (stops_eq_false_iff.1 hfront).1
    refine ⟨.bump hq hne, ⟨_, h.bump hq hfront⟩, nofun, fun _ => ?_⟩
    obtain ⟨-, hcons⟩ := S.next_of_ne hq.ok (by rwa [← S.frontKind_upcoming hq.ok])
    rw [hcons]
    exact Nat.lt_succ_self _

/-- **Skipping.** Nothing happens in front of a token that ends the text or that an open list can use. Otherwise all
tokens up to such a one are put in a node. -/
theorem skipToRecovery_spec {p : Parser σ} (hp : Ready S p) :
    (stops p.contexts (front S p) = true ∧ skipToRecovery p = (false, p)) ∨
      ∃ (id id' : Id) (l : Leaf) (rest : List Token) (s : σ),
        skipToRecovery p = (true, { p with
          source := s
          out := p.out ++ [.ofChildren id (.node .skippedTokens) (.token ⟨id', unexpected l⟩ :: rest.map .token)] }) ∧
        S.upcoming p.source = l :: rest.map Token.leaf ++ S.upcoming s ∧
        (∀ k ∈ l :: rest.map Token.leaf, stops p.contexts k.tokenKind = false) ∧
        stops p.contexts (frontKind (S.upcoming s)) = true := by
  rw [skipToRecovery_apply, atRecoveryPoint_apply hp]
  cases hfront : stops p.contexts (front S p) with
  | true => exact .inl ⟨rfl, rfl⟩
  | false =>
    right
    have hne : front S p ≠ .eof := (stops_eq_false_iff.1 hfront).1
    -- in the scope of the node nothing stands in front of the first token
    let first : Parser σ := (bumpUnexpected { p with out := [] }).2
    have hfirst : Ready S first :=
      (Kept.bumpUnexpected (S := S) (p := { p with out := [] }) ⟨hp.ok, hp.version⟩ hne).ready
    obtain ⟨rest, h, hstops⟩ := skipRest_spec hfirst
    have hlast : Ready S (skipRest first).2 :=
      ((Meets.skipRest (S := S) (M := .whole) (n := 0) trivial).keeps _ hfirst trivial).1.ready
    rw [front, S.frontKind_upcoming hp.ok] at hne hfront
    obtain ⟨hok, hcons⟩ := S.next_of_ne hp.ok hne
    have hup : S.upcoming first.source = S.upcoming (TokenSource.next p.source).2 := (S.fresh hok).2
    refine ⟨(TokenSource.fresh (skipRest first).2.source).1, (TokenSource.fresh (TokenSource.next p.source).2).1,
      (TokenSource.next p.source).1.leaf, rest, (TokenSource.fresh (skipRest first).2.source).2, ?_, ?_, ?_, ?_⟩
    · show ((true, { (skipRest first).2 with
        source := _
        out := p.out ++ [.ofChildren _ _ (skipRest first).2.out] }) : Bool × Parser σ) = _
      rw [h.state]
      rfl
    · rw [hcons, ← hup, h.upcoming, (S.fresh hlast.ok).2]
      rfl
    · refine List.forall_mem_cons.2 ⟨hfront, fun k hk => ?_⟩
      obtain ⟨t, ht, rfl⟩ := List.mem_map.1 hk
      exact h.skipped t ht
    · rw [(S.fresh hlast.ok).2]
      exact hstops

end Parse

end IncrementalSyntax

import IncrementalSyntax.Proofs.Grammar.StepsMembers

/-!
# What is emitted between two states of the source

Some properties of what the parser emits depend on the source in front of it and on the source behind it. Such a
property holds of all that is emitted if it holds of nothing at all, of each token, of each node that is used again and
of each new node around elements of which it holds, and if it carries over to elements in a row.

## Main definitions

* `Parse.Emission`: a property that all ways to emit something keep

## Main results

* `Parse.Steps.emits`: steps of the parser keep it
* `parse_emits`: it holds of the root
-/

namespace IncrementalSyntax

variable {version : LanguageVersion} {σ : Type} [TokenSource σ]

namespace Parse

open Green hiding id
open TokenSource (next reuse?)
open ListContext (stops_iff)

/-- **Emission.** A property of a state of the source, a later one and what is emitted between them, which all ways to
emit something keep. -/
structure Emission (S : Supply version σ) (R : σ → σ → List Green → Prop) : Prop where
  nothing : ∀ {s}, S.Ok s → R s s []
  append : ∀ {s s' s'' gs hs}, R s s' gs → R s' s'' hs → R s s'' (gs ++ hs)
  token : ∀ {s}, S.Ok s → R s (next s).2 [.token (next s).1]
  missing : ∀ {s} (kind : TokenKind) (d : Diagnostic), S.Ok s →
    R s (TokenSource.fresh s).2 [.token ⟨(TokenSource.fresh s).1, .absent kind d⟩]
  unexpected : ∀ {s}, S.Ok s →
    R s (TokenSource.fresh (next s).2).2 [.token ⟨(TokenSource.fresh (next s).2).1, unexpected (next s).1.leaf⟩]
  reuse : ∀ {s kinds g s'}, S.Ok s → reuse? kinds s = some (g, s') → R s s' [g]
  node : ∀ {s s' gs} (kind : NodeKind), R s s' gs →
    R s (TokenSource.fresh s').2 [.ofChildren (TokenSource.fresh s').1 (.node kind) gs]

variable {S : Supply version σ} {R : σ → σ → List Green → Prop} {p p' : Parser σ} {lists lists' : List ListContext} {s : σ}

/-- Where skipping need not stop there is another token. -/
theorem front_ne_of_not_atRecoveryPoint (hp : Ready S p) (h : ¬ (atRecoveryPoint p).1 = true) : front S p ≠ .eof := by
  intro heof
  apply h
  rw [atRecoveryPoint_apply hp]
  exact stops_iff.2 (.inl heof)

/-- Skipped tokens are emitted one by one, and then made one node. -/
theorem Emission.skipToRecovery (hR : Emission S R) (hp : Ready S p) (hs : R s p.source p.out) :
    R s (skipToRecovery p).2.source (skipToRecovery p).2.out := by
  rw [skipToRecovery_apply]
  by_cases hstops : (atRecoveryPoint p).1 = true
  · rwa [if_pos hstops]
  · rw [if_neg hstops]
    have hne : front S p ≠ .eof := front_ne_of_not_atRecoveryPoint hp hstops
    let first : Parser σ := (bumpUnexpected { p with out := [] }).2
    have hfirst : Ready S first :=
      (Kept.bumpUnexpected (S := S) (p := { p with out := [] }) ⟨hp.ok, hp.version⟩ hne).ready
    -- every round that does not stop takes one more token
    have hrest : Ready S (skipRest first).2 ∧ R p.source (skipRest first).2.source (skipRest first).2.out := by
      refine loop_keeps (I := fun q => Ready S q ∧ R p.source q.source q.out) ?_ ⟨hfirst, hR.unexpected hp.ok⟩
      rintro q ⟨hq, hout⟩
      have hround : (do if ← atRecoveryPoint then return false else bump; return true : Parse σ Bool) q =
          (if (atRecoveryPoint q).1 = true then Pure.pure false else do bump; return true : Parse σ Bool) q := rfl
      rw [hround]
      by_cases hstop : (atRecoveryPoint q).1 = true
      · rw [if_pos hstop]
        exact ⟨hq, hout⟩
      · rw [if_neg hstop]
        exact ⟨(Kept.bump hq (front_ne_of_not_atRecoveryPoint hq hstop)).ready, hR.append hout (hR.token hq.ok)⟩
    exact hR.append hs (hR.node .skippedTokens hrest.2)

/-- **Steps keep an emission.** -/
theorem Steps.emits (hR : Emission S R) (h : Steps S lists p lists' p') (hp : Ready S p) (hs : R s p.source p.out) :
    R s p'.source p'.out := by
  induction h generalizing s with
  | refl => exact hs
  | trans h _ ih ih' => exact ih' (h.kept hp).ready (ih hp hs)
  | bump => exact hR.append hs (hR.token hp.ok)
  | missing kind hcode =>
    rw [missing_apply]
    exact hR.append hs (hR.missing kind _ hp.ok)
  | reuse _ h => exact hR.append hs (hR.reuse hp.ok h)
  | skip => exact hR.skipToRecovery hp hs
  | @enclose _ p kind => exact hR.node kind hs
  | @scope _ _ p _ _ ih => exact hR.append hs (ih ⟨hp.ok, hp.version⟩ (hR.nothing hp.ok))
  | within _ ih => exact ih ⟨hp.ok, hp.version⟩ hs

end Parse

/-- **The root.** It is emitted between the start of the text and its end. -/
theorem parse_emits {S : Supply version σ} {R : σ → σ → List Green → Prop} (hR : Parse.Emission S R) {s : σ}
    (h : S.Ok s) (entry : EntryPoint) : R s (parse version entry s).source [(parse version entry s).root] := by
  have hok := (kept_atEnd h entry).ready.ok
  have hout : R s (Parser.atEnd version entry s).source (Parser.atEnd version entry s).out :=
    (Parse.steps_atEnd h entry).emits hR (ready_start h) (hR.nothing h)
  rw [parse_eq]
  exact hR.node _ (hR.append hout (hR.token hok))

end IncrementalSyntax

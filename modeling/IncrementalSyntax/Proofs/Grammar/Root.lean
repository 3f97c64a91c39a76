import IncrementalSyntax.Proofs.Grammar.GoodMembers
import IncrementalSyntax.Proofs.Grammar.Skipped

/-!
# Whole texts and their tokens

The parse of a whole text takes all of its tokens, whatever the entry point. Its result is the same for all
sources that feed the same tokens, unless an `else` got lost in it, which cannot happen on a source that
offers no open-ended node in front of an `else`.

## Main definitions

* `Parse.rootInner`: all that stands below the root but the token that ends the text

## Main results

* `parse_scanned`: the scanned leaves of a tree are the leaves of the source
* `parse_shape_iff`: the parse gives the same for all sources, unless an `else` got lost
-/

namespace IncrementalSyntax

namespace Parse

open Green hiding id

variable {version : LanguageVersion} {σ : Type} [TokenSource σ] {S : Supply version σ} {M : Mode}
variable {n : Nat}

/-! ## Below the root -/

/-- Skipping stops only at the end of the text where no list is open that could use a token. -/
theorem skipToRecovery_ends {p : Parser σ} (hp : Ready S p) (hcontexts : p.contexts = []) :
    front S (skipToRecovery p).2 = .eof := by
  have hstops : ∀ k, ListContext.stops p.contexts k = true → k = .eof := by
    intro k hk
    rw [hcontexts] at hk
    simpa [ListContext.stops] using hk
  rcases skipToRecovery_spec hp with ⟨hfront, heq⟩ | ⟨id, id', l, rest, s, heq, -, -, hfront⟩
  · rw [heq]
    exact hstops _ hfront
  · rw [heq]
    exact hstops _ hfront

/-- All that stands below the root in front of the token that ends the text. -/
def rootInner {τ : Type} [TokenSource τ] : EntryPoint → Parse τ Unit
  | .compilationUnit => members
  | .member => do
    ifStarts TokenKind.startsMember member
    let _ ← skipToRecovery
  | .statement => do
    ifStarts TokenKind.startsStatement statement
    let _ ← skipToRecovery
  | .expression => do
    ifStarts TokenKind.startsExpression expression
    let _ ← skipToRecovery

theorem rootBody_eq {τ : Type} [TokenSource τ] (entry : EntryPoint) :
    (rootBody entry : Parse τ Unit) = (do rootInner entry; bump) := by
  cases entry <;> rfl

namespace Meets

theorem members (hM : M.strict) : Meets S M {} n members members :=
  within (list_strict hM member)

/-- One production, if the token at the front can begin it, and the tokens that it leaves. -/
theorem fragmentBody {starts : TokenKind → Bool} {m₁ : Parse σ Unit} {m₂ : Parse TokenList Unit}
    (hM : M.strict) (h : Meets S M { pre := fun L => starts (frontKind L) = true } n m₁ m₂) :
    Meets S M {} n (do ifStarts starts m₁; let _ ← Parse.skipToRecovery)
      (do ifStarts starts m₂; let _ ← Parse.skipToRecovery) := by
  refine bind (C := {}) (peek_bind fun k => ?_) (fun _ => ?_) (fun _ => id) id trivial
  · by_cases hk : starts k = true
    · rw [if_pos hk, if_pos hk]
      exact h.mono (fun _ hL => (congrArg starts hL.1).trans hk) (fun _ _ => id) (fun _ => le_rfl) .rfl id le_rfl
    · rw [if_neg hk, if_neg hk]
      exact pure (fun _ _ => trivial) rfl id
  · exact bind (skipToRecovery hM) (fun _ => pure (fun _ _ => trivial) (by simp) id) (fun _ => id) id trivial

theorem rootInner (hM : M.strict) (entry : EntryPoint) :
    Meets S M {} n (rootInner entry) (rootInner entry) := by
  cases entry with
  | compilationUnit => exact members hM
  | member =>
    exact fragmentBody hM ((of_strict hM member).mono (fun L hL _ => hL) (fun _ _ => id)
      (fun _ => Nat.zero_le _) .rfl id le_rfl)
  | statement =>
    exact fragmentBody hM ((of_strict hM (statement_deep (deep_remaining S) (deep_remaining _))).mono
      (fun L hL _ => hL) (fun _ _ => id) (fun _ => Nat.zero_le _) .rfl id le_rfl)
  | expression =>
    exact fragmentBody hM (expression.mono (fun _ _ => trivial) (fun _ _ => id) (fun _ => le_rfl) .rfl id le_rfl)

end Meets

/-- A round among the members of a file, by the token at the front. -/
theorem memberRound_apply {q : Parser σ} (hq : Ready S q) :
    memberRound member none q = (if front S q = .eof then (Pure.pure false : Parse σ Bool)
      else if (front S q).startsMember = true then (do member; return true) else skipToRecovery) q := by
  show (if (decide ((TokenSource.next q.source).1.leaf.tokenKind = .eof) || decide (_ = none)) = true then _
    else _ : Parse σ Bool) q = _
  rw [← S.frontKind_upcoming hq.ok]
  simp [front]
  rfl

/-- Among the members of a file every token is taken or skipped. -/
theorem memberRound_ends {q : Parser σ} (hq : Ready S q) (hc : q.contexts = [.compilationUnit]) :
    Kept S q (memberRound member none q).2 ∧ (memberRound member none q).2.contexts = [.compilationUnit] ∧
      ((memberRound member none q).1 = false → front S (memberRound member none q).2 = .eof) ∧
      ((memberRound member none q).1 = true →
        (S.upcoming (memberRound member none q).2.source).length < (S.upcoming q.source).length) := by
  rw [memberRound_apply hq]
  by_cases hf : front S q = .eof
  · rw [if_pos hf]
    exact ⟨.refl hq, hc, fun _ => hf, fun h => Bool.noConfusion h⟩
  rw [if_neg hf]
  by_cases hs : (front S q).startsMember = true
  · rw [if_pos hs]
    obtain ⟨hk, -, hlen⟩ := (Meets.member (S := S) (M := .whole)).keeps q hq fun _ => hs
    exact ⟨hk, hk.contexts.trans hc, fun h => Bool.noConfusion h, fun _ => hlen le_rfl⟩
  · rw [if_neg hs]
    obtain ⟨hk, -, hlen⟩ := (Meets.skipToRecovery (S := S) (M := .whole) trivial).keeps q hq trivial
    have hstops : ListContext.stops q.contexts (front S q) = false := by
      simp [ListContext.stops, hc, ListContext.isRecoveryPoint, ListContext.closer?, ListContext.canStart, hf, hs]
    have htrue : (skipToRecovery q).1 = true := by
      rcases skipToRecovery_spec hq with ⟨htrue, -⟩ | ⟨_, _, _, _, _, heq, -⟩
      · exact absurd (hstops.symm.trans htrue) Bool.false_ne_true
      · rw [heq]
    refine ⟨hk, hk.contexts.trans hc, fun hb => Bool.noConfusion (htrue.symm.trans hb), fun _ => ?_⟩
    have := hlen le_rfl
    rw [htrue] at this
    exact this

/-- The text has ended behind all that stands below the root. -/
theorem rootInner_ends (entry : EntryPoint) {p : Parser σ} (hp : Ready S p) (hcontexts : p.contexts = []) :
    front S (rootInner entry p).2 = .eof := by
  have hfragment : ∀ (starts : TokenKind → Bool) (m : Parse σ Unit),
      (∀ q, Ready S q → Kept S q (m q).2) →
      front S ((do ifStarts starts m; let _ ← skipToRecovery : Parse σ Unit) p).2 = .eof := by
    intro starts m hm
    have hk : Kept S p (ifStarts starts m p).2 := by
      show Kept S p ((if starts (peek p).1 = true then m else Pure.pure () : Parse σ Unit) p).2
      split
      · exact hm p hp
      · exact .refl hp
    exact skipToRecovery_ends hk.ready (hk.contexts.trans hcontexts)
  cases entry with
  | compilationUnit =>
    show front S (loop (memberRound member none) { p with contexts := .compilationUnit :: p.contexts }).2 = .eof
    refine loop_ends (I := fun q => q.contexts = [.compilationUnit]) (Q := fun q => front S q = .eof)
      (fun q hq hc => ?_) ⟨hp.ok, hp.version⟩ (by rw [hcontexts])
    exact memberRound_ends hq hc
  | member => exact hfragment _ _ fun q hq => memberUpTo_kept _ hq
  | statement => exact hfragment _ _ fun q hq => statementUpTo_kept _ hq
  | expression =>
    exact hfragment _ _ fun q hq => ((Meets.expression (S := S) (M := .whole) (n := 0)).keeps q hq trivial).1

end Parse

/-! ## The root -/

open Green hiding id

section Root

variable {σ : Type} [TokenSource σ]

/-- The state in which the parse of a whole text begins. -/
def Parser.start (version : LanguageVersion) (s : σ) : Parser σ := { source := s, version := version }

/-- The state of a parse in front of the token that ends the text. -/
def Parser.atEnd (version : LanguageVersion) (entry : EntryPoint) (s : σ) : Parser σ :=
  (Parse.rootInner entry (.start version s)).2

theorem parse_eq (version : LanguageVersion) (entry : EntryPoint) (s : σ) :
    parse version entry s =
      ⟨.ofChildren (TokenSource.fresh (TokenSource.next (Parser.atEnd version entry s).source).2).1
          (.node (Parse.rootKind entry))
          ((Parser.atEnd version entry s).out ++ [.token (TokenSource.next (Parser.atEnd version entry s).source).1]),
        (Parser.atEnd version entry s).status,
        (TokenSource.fresh (TokenSource.next (Parser.atEnd version entry s).source).2).2⟩ := by
  have h : Parse.rootBody entry (.start version s) = Parse.bump (Parser.atEnd version entry s) := by
    rw [Parse.rootBody_eq]
    rfl
  have hparse : parse version entry s =
      ⟨.ofChildren (TokenSource.fresh (Parse.rootBody entry (.start version s)).2.source).1
          (.node (Parse.rootKind entry)) (Parse.rootBody entry (.start version s)).2.out,
        (Parse.rootBody entry (.start version s)).2.status,
        (TokenSource.fresh (Parse.rootBody entry (.start version s)).2.source).2⟩ := rfl
  rw [hparse, h]
  rfl

end Root

section Supplies

variable {version : LanguageVersion} {σ : Type} [TokenSource σ] {S : Supply version σ} {s : σ}

theorem ready_start (h : S.Ok s) : Parse.Ready S (.start version s) := ⟨h, rfl⟩

theorem kept_atEnd (h : S.Ok s) (entry : EntryPoint) :
    Parse.Kept S (.start version s) (.atEnd version entry s) :=
  ((Parse.Meets.rootInner (M := .whole) (n := 0) trivial entry).keeps _ (ready_start h) trivial).1

theorem front_atEnd (h : S.Ok s) (entry : EntryPoint) :
    Parse.front S (.atEnd version entry s) = .eof :=
  Parse.rootInner_ends entry (ready_start h) rfl

theorem tokenKind_next_atEnd (h : S.Ok s) (entry : EntryPoint) :
    (TokenSource.next (Parser.atEnd version entry s).source).1.leaf.tokenKind = .eof := by
  rw [← S.frontKind_upcoming (kept_atEnd h entry).ready.ok]
  exact front_atEnd h entry

/-- The last token of a parse is the last one of the source. -/
theorem upcoming_atEnd (h : S.Ok s) (entry : EntryPoint) :
    S.upcoming (Parser.atEnd version entry s).source =
      [(TokenSource.next (Parser.atEnd version entry s).source).1.leaf] :=
  S.next_of_eq (kept_atEnd h entry).ready.ok (tokenKind_next_atEnd h entry)

/-- The scanned leaves of a tree are the leaves of the source, one for one. -/
theorem parse_scanned (h : S.Ok s) (entry : EntryPoint) :
    scannedAll [(parse version entry s).root] = (S.upcoming s).map Leaf.bare := by
  obtain ⟨taken, htaken, hout, -⟩ := (kept_atEnd h entry).taken
  have hstart : S.upcoming s = taken ++ S.upcoming (Parser.atEnd version entry s).source := htaken
  rw [parse_eq, scannedAll_ofChildren, scannedAll_append, hout, hstart, upcoming_atEnd h, List.map_append]
  simp [Parser.start, scannedAll, S.present (kept_atEnd h entry).ready.ok]

theorem parse_fine (h : S.Ok s) (entry : EntryPoint) : (parse version entry s).root.Fine := by
  rw [parse_eq]
  refine fine_ofChildren fun g hg => ?_
  rcases List.mem_append.1 hg with hg | hg
  · exact (kept_atEnd h entry).fine (by simp [Parser.start]) g hg
  · obtain rfl := List.mem_singleton.1 hg
    exact fine_token fun hm => by simp [S.present (kept_atEnd h entry).ready.ok] at hm

theorem parse_sound (h : S.Ok s) (entry : EntryPoint) : (parse version entry s).root.Sound version := by
  rw [parse_eq]
  refine sound_ofChildren (fun g hg => ?_) fun hu => ?_
  · rcases List.mem_append.1 hg with hg | hg
    · exact ((Parse.Meets.rootInner (M := .whole) trivial entry).sound _ (ready_start h) trivial le_rfl
        (by simp [Parser.start]) g hg).1 trivial
    · obtain rfl := List.mem_singleton.1 hg
      exact sound_token _
  · cases entry <;> cases hu

theorem firstKind_next_atEnd (h : S.Ok s) (entry : EntryPoint) :
    firstKind [.token (TokenSource.next (Parser.atEnd version entry s).source).1] .eof = .eof := by
  simp [firstKind, scannedAll, S.present (kept_atEnd h entry).ready.ok, tokenKind_next_atEnd h]

theorem missesElse_root (entry : EntryPoint) (s : σ) :
    (parse version entry s).root.missesElse .eof =
      missesElseAll (Parser.atEnd version entry s).out
        (firstKind [.token (TokenSource.next (Parser.atEnd version entry s).source).1] .eof) := by
  rw [parse_eq, missesElse_ofChildren (by cases entry <;> decide), missesElseAll_append]
  simp

/-- An `else` got lost below the root if the parse was torn. -/
theorem torn_atEnd (h : S.Ok s) (entry : EntryPoint) :
    Parse.Torn S 0 (.atEnd version entry s) ↔ (parse version entry s).root.missesElse .eof = true := by
  have hok := (kept_atEnd h entry).ready.ok
  rw [missesElse_root, firstKind_next_atEnd h, Parse.Torn, Parse.frontUpTo, if_neg (S.not_length_le_zero hok),
    front_atEnd h]

/-- Where no open-ended node is offered in front of an `else` no `else` gets lost. -/
theorem parse_missesElse_of_careful (h : S.Ok s) (hcareful : S.Careful) (entry : EntryPoint) :
    (parse version entry s).root.missesElse .eof = false := by
  rw [← Bool.not_eq_true, ← torn_atEnd h]
  intro ht
  have hnone : Parse.Torn S 0 (.start version s) := (kept_atEnd h entry).untorn hcareful ht
  simp [Parse.Torn, Parser.start] at hnone

/-- The parse of a source and that of the list of its tokens are the same, unless an `else` got lost. -/
theorem parse_shape_iff (h : S.Ok s) {ts : TokenList} (hts : ts.WellFormed) (hup : S.upcoming s = ts.upcoming)
    (entry : EntryPoint) :
    ((parse version entry s).root.shape = (parse version entry ts).root.shape ∧
      (parse version entry s).status = (parse version entry ts).status) ↔
      (parse version entry s).root.missesElse .eof = false := by
  constructor
  · rintro ⟨hshape, -⟩
    rw [missesElse_eq_of_shape hshape]
    exact parse_missesElse_of_careful (S := .ofTokenList version) hts trivial entry
  · intro hmiss
    obtain ⟨init, l, hlast, heof⟩ := S.exists_upcoming_eq_append h
    have hat : Parse.At S .whole (.start version s) (.start version ts) (S.upcoming s) :=
      { alike :=
          { ready₁ := ready_start h
            ready₂ := ready_start (S := .ofTokenList version) hts
            left := by simp [Parser.start, Parse.Mode.whole]
            right := by simp [Parser.start, Parse.Mode.whole, hup]
            closes := by simp [hlast, heof, TokenKind.closes] }
        shapes := rfl
        strict := fun _ => ⟨rfl, rfl⟩ }
    rcases (Parse.Meets.rootInner (M := .whole) trivial entry).follows _ _ _ hat (S.upcoming_ne_nil h) le_rfl
      trivial with hl | ⟨ho, -⟩ | ⟨-, rest, hat', -⟩
    · rcases hl.2 with ht | hlt | ⟨hs, -⟩
      · have := (torn_atEnd h entry).1 ht
        rw [hmiss] at this
        cases this
      · cases hlt
      · exact absurd trivial hs
    · cases ho
    · have hleft := upcoming_atEnd h entry
      have hright := upcoming_atEnd (S := .ofTokenList version) hts entry
      have hsame : S.upcoming (Parser.atEnd version entry s).source =
          (Parser.atEnd version entry ts).source.upcoming :=
        hat'.alike.left.trans hat'.alike.right.symm
      rw [hleft] at hsame
      have hleaf := (List.cons.inj (hsame.trans hright)).1
      rw [parse_eq, parse_eq]
      refine ⟨?_, ((hat'.strict trivial).2).symm⟩
      have hshapes : (Parser.atEnd version entry s).out.map shape = (Parser.atEnd version entry ts).out.map shape :=
        hat'.shapes
      simp [ofChildren, shape, hshapes, hleaf]

end Supplies

end IncrementalSyntax

import IncrementalSyntax.Proofs.Grammar.Root

/-!
# The members of a file

Below the root of a file there is one element for each round of the parse. It is a member, or it carries a
diagnostic. So a file without diagnostics consists of members, each of which begins with a token that can begin a
member and ends with one that nothing can follow.

## Main definitions

* `Green.Listed`: members as they stand in a file
* `Parse.RoundKeeps`: what a round among the members of a file preserves

## Main results

* `Parse.out_memberRound`: one round emits one element at most
* `Parse.memberRound_of_reuse`: a round in front of a member that the source offers
* `atEnd_of_roundKeeps`: what the rounds of a file lead to
* `exists_listed`: the children of the root of a file without diagnostics
-/

namespace IncrementalSyntax

open Green hiding id

/-- **Listed.** A member as it stands in a file: its first token can begin a member, and nothing behind it could
belong to it. -/
structure Green.Listed (g : Green) : Prop where
  member : g.nodeKind?.any NodeKind.isMember = true
  starts : (frontKind g.leaves).startsMember = true
  shut : g.isOpenEnded = false

theorem Green.Listed.isNode {g : Green} (h : g.Listed) : g.isNode = true := by
  have hmember := h.member
  cases g with
  | token t => cases hmember
  | node hd cs => rfl

theorem Green.Listed.leaves_ne_nil {g : Green} (h : g.Listed) : g.leaves ≠ [] := by
  intro hnil
  have hstarts := h.starts
  rw [hnil] at hstarts
  cases hstarts

namespace Parse

variable {version : LanguageVersion} {σ : Type} [TokenSource σ] {S : Supply version σ} {q : Parser σ}

theorem Scoped.reuseOr {kinds : NodeKind → Bool} {m : Parse σ Unit} (h : Scoped m) : Scoped (reuseOr kinds m) := by
  funext p
  rw [scope, Parse.reuseOr, Parse.reuseOr]
  cases hr : TokenSource.reuse? kinds p.source with
  | none => exact (h.apply p).symm
  | some r => simp only [List.nil_append]

/-- On any source a member is one node, with a diagnostic if it is incomplete. -/
theorem exists_out_member (S : Supply version σ) (q : Parser σ) :
    ∃ g, (member q).2.out = q.out ++ [g] ∧
      (g.nodeKind?.any NodeKind.isMember = true ∨ g.nodeKind? = some .incompleteMember ∧ Flagged [g]) := by
  show ∃ g, (reuseOr NodeKind.isMember (memberOf (memberUpTo (TokenSource.remaining q.source))) q).2.out = _ ∧ _
  rw [reuseOr]
  cases hr : TokenSource.reuse? NodeKind.isMember q.source with
  | some r => exact ⟨r.1, rfl, .inl (S.offered hr)⟩
  | none =>
    obtain ⟨g, k, hout, hk, ⟨hmember, -⟩ | ⟨rfl, hflag⟩⟩ := memberOf_out S (memberUpTo (TokenSource.remaining q.source)) q
    · exact ⟨g, hout, .inl (by simpa [hk] using hmember)⟩
    · exact ⟨g, hout, .inr ⟨hk, hflag⟩⟩

/-- A member in front of a token that can begin one is listed, unless it carries a diagnostic. -/
theorem out_member (hq : Ready S q) (hs : (front S q).startsMember = true) :
    ∃ g, (member q).2.out = q.out ++ [g] ∧ (Flagged [g] ∨ g.Listed) := by
  let q' : Parser σ := { q with out := [] }
  have hq' : Ready S q' := ⟨hq.ok, hq.version⟩
  have hscoped : Scoped (memberUpTo (TokenSource.remaining q.source + 1) : Parse σ Unit) := (scoped_scope _).reuseOr
  have hrun : (member q).2.out = q.out ++ (member q').2.out :=
    congrArg (fun r : Unit × Parser σ => r.2.out) (hscoped.apply q)
  obtain ⟨g, hout, hg⟩ := exists_out_member S q'
  have hout : (member q').2.out = [g] := hout
  refine ⟨g, hrun.trans (congrArg (q.out ++ ·) hout), ?_⟩
  by_cases hflag : Flagged [g]
  · exact .inl hflag
  · have hmember : g.nodeKind?.any NodeKind.isMember = true := hg.resolve_right fun h => hflag h.2
    obtain ⟨k, hk, hkind⟩ := (Option.any_eq_true _ _).1 hmember
    have hmeets := Meets.member (S := S) (M := .whole) (n := (S.upcoming q.source).length)
    obtain ⟨hkept, -, hlen⟩ := hmeets.keeps q' hq' fun _ => hs
    -- the leaves of the member are the tokens that were taken, the first of which was at the front
    obtain ⟨taken, htaken, -, hplain⟩ := hkept.taken
    have hleaves : g.leaves = taken := by
      simpa [hout, q'] using hplain (hout ▸ hflag)
    have hne : taken ≠ [] := by
      rintro rfl
      have hlt := hlen le_rfl
      rw [htaken] at hlt
      simp [Contract.unit, Contract.starting] at hlt
    have hfront : front S q = frontKind g.leaves := by
      have htaken : S.upcoming q.source = taken ++ _ := htaken
      rw [front, htaken, frontKind_append hne, hleaves]
    have hsound : g.Sound version :=
      (hmeets.sound q' hq' (fun _ => hs) le_rfl (by simp [q']) g (by simp [hout])).1 trivial
    have hgood : Good version g := hsound g (.self g) (by simp [isUnit, hk, hkind])
    exact .inr ⟨hmember, hfront ▸ hs, hgood.shut (by simp [hk, hkind])⟩

/-- **A round.** It emits one element at most, a listed member or one with a diagnostic. -/
theorem out_memberRound (hq : Ready S q) : ∃ es, (memberRound member none q).2.out = q.out ++ es ∧
    ∀ g ∈ es, Flagged [g] ∨ g.Listed := by
  rw [memberRound_apply hq]
  by_cases hf : front S q = .eof
  · rw [if_pos hf]
    exact ⟨[], (List.append_nil _).symm, nofun⟩
  rw [if_neg hf]
  by_cases hs : (front S q).startsMember = true
  · rw [if_pos hs]
    obtain ⟨g, hout, hg⟩ := out_member hq hs
    exact ⟨[g], hout, by simpa using hg⟩
  · rw [if_neg hs]
    rcases skipToRecovery_spec hq with ⟨-, heq⟩ | ⟨_, _, l, rest, _, heq, -⟩
    · rw [heq]
      exact ⟨[], (List.append_nil _).symm, nofun⟩
    · rw [heq]
      refine ⟨_, rfl, fun g hg => .inl ?_⟩
      rw [List.mem_singleton.1 hg]
      exact flagged_ofChildren.2 (flagged_cons.2 (.inl (flagged_unexpected _ l)))

/-- A round among the members of a file keeps `I`, and where it is the last one it leads to `Q`. -/
def RoundKeeps (S : Supply version σ) (I Q : List Green → σ → Prop) : Prop :=
  ∀ q, Ready S q → I q.out q.source →
    I (memberRound member none q).2.out (memberRound member none q).2.source ∧
      ((memberRound member none q).1 = false →
        Q (memberRound member none q).2.out (memberRound member none q).2.source)

/-- In front of a member that the source offers, a round takes it. -/
theorem memberRound_of_reuse (hq : Ready S q) {g : Green} {s : σ}
    (hg : TokenSource.reuse? NodeKind.isMember q.source = some (g, s)) (hlisted : g.Listed) :
    memberRound member none q = (true, { q with source := s, out := q.out ++ [g] }) := by
  obtain ⟨-, hup, hne, -⟩ := S.reuse hq.ok hg
  have hfront : front S q = frontKind g.leaves := by rw [front, hup, frontKind_append hne]
  have hneof : front S q ≠ .eof := by
    intro heq
    have hstarts := hlisted.starts
    rw [← hfront, heq] at hstarts
    cases hstarts
  have hmember : member q = ((), { q with source := s, out := q.out ++ [g] }) := by
    show reuseOr NodeKind.isMember (memberOf (memberUpTo (TokenSource.remaining q.source))) q = _
    rw [reuseOr, hg]
  rw [memberRound_apply hq, if_neg hneof, if_pos (hfront ▸ hlisted.starts)]
  show (true, (member q).2) = _
  rw [hmember]

end Parse

section Root

variable {version : LanguageVersion} {σ : Type} [TokenSource σ] {S : Supply version σ} {s : σ}

/-- **The rounds of a file.** What they keep leads to what the last one of them leads to. -/
theorem atEnd_of_roundKeeps {I Q : List Green → σ → Prop} (h : S.Ok s) (hstart : I [] s)
    (hround : Parse.RoundKeeps S I Q) :
    Q (Parser.atEnd version .compilationUnit s).out (Parser.atEnd version .compilationUnit s).source := by
  refine Parse.loop_ends (S := S) (I := fun q => q.contexts = [.compilationUnit] ∧ I q.out q.source)
    (Q := fun q => Q q.out q.source) (m := Parse.memberRound Parse.member none) ?_
    (p := { Parser.start version s with contexts := [.compilationUnit] }) ⟨h, rfl⟩ ⟨rfl, hstart⟩
  rintro q hq ⟨hc, hI⟩
  obtain ⟨hk, hc', -, hlen⟩ := Parse.memberRound_ends hq hc
  obtain ⟨hI', hlast⟩ := hround q hq hI
  exact ⟨hk, ⟨hc', hI'⟩, hlast, hlen⟩

/-- Everything in a file in front of the token that ends the text. -/
theorem listed_atEnd (h : S.Ok s) : ∀ g ∈ (Parser.atEnd version .compilationUnit s).out, Flagged [g] ∨ g.Listed := by
  apply atEnd_of_roundKeeps (I := fun out _ => ∀ g ∈ out, Flagged [g] ∨ g.Listed)
    (Q := fun out _ => ∀ g ∈ out, Flagged [g] ∨ g.Listed) h nofun
  intro q hq hall
  obtain ⟨es, hout, hes⟩ := Parse.out_memberRound hq
  have hall' : ∀ g ∈ (Parse.memberRound Parse.member none q).2.out, Flagged [g] ∨ g.Listed := by
    intro g hg
    rw [hout] at hg
    exact (List.mem_append.1 hg).elim (hall g) (hes g)
  exact ⟨hall', fun _ => hall'⟩

/-- **A file without diagnostics** consists of members, and of the token that ends the text. -/
theorem exists_listed (h : S.Ok s) (hflag : ¬ Flagged [(parse version .compilationUnit s).root]) :
    ∃ ms e, (parse version .compilationUnit s).root.children = ms ++ [.token e] ∧ e.leaf.tokenKind = .eof ∧
      ∀ m ∈ ms, m.Listed := by
  refine ⟨(Parser.atEnd version .compilationUnit s).out, _, by rw [parse_eq]; rfl, tokenKind_next_atEnd h _,
    fun m hm => ?_⟩
  refine (listed_atEnd h m hm).resolve_left fun hf => hflag ?_
  rw [parse_eq, flagged_ofChildren, flagged_append]
  exact .inl (flagged_iff_exists.2 ⟨m, hm, hf⟩)

end Root

end IncrementalSyntax

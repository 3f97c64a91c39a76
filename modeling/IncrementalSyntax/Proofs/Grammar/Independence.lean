import IncrementalSyntax.Proofs.Grammar.Root

/-!
# Productions do not depend on what is around them

A statement, a block or a member without a diagnostic depends on its own tokens only. The lists that are
open around it, what was emitted before it and what comes behind it make no difference, but for an `else`
behind an `if` that has none.

## Main results

* `production_independent`: the production takes the same tokens anywhere and builds the same node
-/

namespace IncrementalSyntax

open Green hiding id

namespace Parse

variable {version : LanguageVersion}

theorem scoped_statement : Scoped (statement : Parse TokenList Unit) := by
  funext p
  exact congrFun (scoped_statementUpTo (Nat.succ_pos (TokenSource.remaining p.source))) p

theorem scoped_member : Scoped (member : Parse TokenList Unit) := by
  funext p
  exact congrFun (scoped_memberUpTo (Nat.succ_pos (TokenSource.remaining p.source))) p

/-- A production that keeps its contract in front of any token replays the nodes without a diagnostic that
it builds. -/
theorem replays_of_any {C : Contract Unit} {R : Parse TokenList Unit} {p : Parser TokenList} {g : Green}
    (h : ∀ M k, Meets (.ofTokenList version) M C k R R) (hpre : ∀ L, C.pre L) (houter : C.outer)
    (hscoped : Scoped R) (hp : Ready (.ofTokenList version) p) (hout : (R p).2.out = p.out ++ [g])
    (hclean : g.flags.diagnostics = false) :
    p.source.upcoming = g.leaves ++ (R p).2.source.upcoming ∧ Replays version (fun _ => R) g := by
  have hkept : ∀ q, Ready (.ofTokenList version) q → Kept (.ofTokenList version) q (R q).2 := fun q hq =>
    ((h .whole 0).keeps q hq (hpre _)).1
  let p' : Parser TokenList := { p with out := [] }
  have hp' : Ready (.ofTokenList version) p' := ⟨hp.ok, hp.version⟩
  have hrun : (R p).2 = { (R p').2 with out := p.out ++ (R p').2.out } :=
    congrArg Prod.snd (hscoped.apply p)
  have hout' : (R p').2.out = [g] := by
    rw [hrun] at hout
    exact List.append_cancel_left hout
  have hk := hkept p' hp'
  have hflag : ¬ Flagged [g] := by
    have hfine : g.Fine := hk.fine (by simp [p']) g (by simp [hout'])
    rw [hfine.exact.flagged_iff, hclean]
    exact Bool.false_ne_true
  have hmiss : g.missesElse .eof = false := by
    by_contra hm
    have ht : Torn (.ofTokenList version) 0 (R p').2 := by
      simpa [Torn, hout'] using missesElse_of_eof (Bool.eq_true_of_not_eq_false hm)
    have hnone : Torn (.ofTokenList version) 0 p' := hk.untorn trivial ht
    simp [Torn, p'] at hnone
  refine ⟨?_, replays_of_meets (p := p') (fun M _ k _ _ => h M k) (fun _ _ => hscoped) (fun _ => hkept) hp'
    (hpre _) le_rfl rfl hout' (hout' ▸ (h .whole _).closed houter p' hp' (hpre _) le_rfl) hflag hmiss⟩
  obtain ⟨taken, htaken, -, hplain⟩ := hk.taken
  have hleaves : g.leaves = taken := by
    simpa [hout', p'] using hplain (hout' ▸ hflag)
  have hsource : (R p).2.source = (R p').2.source := by rw [hrun]
  rw [hleaves, hsource]
  exact htaken

end Parse

/-- Tokens of some kinds without any text. -/
def TokenList.bareOf (kinds : List TokenKind) : TokenList where
  tokens := kinds.map fun k => ⟨0, { kind := .token k, text := [] }⟩
  last := ⟨0, { kind := .token .eof, text := [] }⟩
  nextId := 1

theorem TokenList.wellFormed_bareOf {kinds : List TokenKind} (h : .eof ∉ kinds) :
    (bareOf kinds).WellFormed := by
  refine ⟨rfl, ?_, ?_⟩
  · simp only [bareOf, List.mem_map]
    rintro _ ⟨k, hk, rfl⟩ rfl
    exact h hk
  · simp only [upcoming, bareOf, List.mem_append, List.mem_map, List.mem_singleton]
    rintro _ (⟨_, ⟨k, -, rfl⟩, rfl⟩ | rfl) <;> rfl

/-- **Productions are independent of what is around them.** Let a statement, a block or a member without a
diagnostic be built of the next tokens of some list. Wherever the same tokens come next, the production
takes just them and emits a node of the same shape, whatever was emitted before, whatever lists are open
and whatever comes behind. Only if the node is open-ended, no `else` may come behind. -/
theorem production_independent {R : Parse TokenList Unit}
    (hR : R ∈ [Parse.statement, Parse.block, Parse.member]) {p : Parser TokenList} {g : Green}
    (hp : p.source.WellFormed) (hout : (R p).2.out = p.out ++ [g]) (hclean : g.flags.diagnostics = false) :
    ∃ ts, p.source.upcoming = ts ++ (R p).2.source.upcoming ∧ g.leaves = ts ∧
      ∀ (q : Parser TokenList) (rest : List Leaf), q.source.WellFormed → q.version = p.version →
        q.source.upcoming = ts ++ rest → (g.isOpenEnded = true → frontKind rest ≠ .keyword .elseKw) →
        ∃ g' s', R q = ((), { q with source := s', out := q.out ++ [g'] }) ∧ g'.shape = g.shape ∧
          s'.upcoming = rest := by
  have hready : Parse.Ready (.ofTokenList p.version) p := ⟨hp, rfl⟩
  have hreplays : p.source.upcoming = g.leaves ++ (R p).2.source.upcoming ∧
      Replays p.version (fun _ => R) g := by
    simp only [List.mem_cons, List.not_mem_nil, or_false] at hR
    rcases hR with rfl | rfl | rfl
    · exact Parse.replays_of_any (fun M k => Parse.Meets.statement_any) (fun _ => nofun) trivial
        Parse.scoped_statement hready hout hclean
    · exact Parse.replays_of_any (fun M k => Parse.Meets.block_any) (fun _ => trivial) trivial
        (Parse.scoped_scope _) hready hout hclean
    · exact Parse.replays_of_any (fun M k => Parse.Meets.member_any) (fun _ => nofun) trivial
        Parse.scoped_member hready hout hclean
  obtain ⟨htaken, hreplay⟩ := hreplays
  refine ⟨g.leaves, htaken, rfl, fun q rest hq hversion hup hopen => ?_⟩
  obtain ⟨g', s', hrun, hshape, -, hrest⟩ := hreplay _ q rest hq hversion hup le_rfl hopen
  exact ⟨g', s', hrun, hshape, hrest⟩

/-- The `if` in front of a `while` is built again in front of the brace that closes a block. -/
theorem production_independent_if :
    ∃ g : Green,
      (Parse.statement { source := TokenList.bareOf [.keyword .ifKw, .punct .lParen, .ident, .punct .rParen,
        .punct .semicolon, .keyword .whileKw] }).2.out = [g] ∧ g.isOpenEnded = true ∧
      ∃ g' s',
        Parse.statement { source := TokenList.bareOf [.keyword .ifKw, .punct .lParen, .ident, .punct .rParen,
            .punct .semicolon, .punct .rBrace], contexts := [.block] } =
          ((), { source := s', out := [g'], contexts := [.block] }) ∧
        g'.shape = g.shape ∧ s'.upcoming = (TokenList.bareOf [.punct .rBrace]).upcoming := by
  generalize hp : ({ source := TokenList.bareOf [.keyword .ifKw, .punct .lParen, .ident, .punct .rParen,
    .punct .semicolon, .keyword .whileKw] } : Parser TokenList) = p
  have hrun : (Parse.statement p).2.out.length = 1 ∧
      ((Parse.statement p).2.out.all fun g => !g.flags.diagnostics && g.isOpenEnded) = true ∧
      (Parse.statement p).2.out.flatMap leaves = (TokenList.bareOf [.keyword .ifKw, .punct .lParen,
        .ident, .punct .rParen, .punct .semicolon]).tokens.map Token.leaf := by
    subst hp
    decide +kernel
  obtain ⟨hone, hall, hleaves⟩ := hrun
  obtain ⟨g, hg⟩ := List.length_eq_one_iff.1 hone
  rw [hg] at hall hleaves
  simp only [List.all_cons, List.all_nil, Bool.and_true, Bool.and_eq_true, Bool.not_eq_true'] at hall
  simp only [List.flatMap_cons, List.flatMap_nil, List.append_nil] at hleaves
  obtain ⟨ts, -, rfl, h⟩ := production_independent (R := Parse.statement) (by simp) (p := p) (g := g)
    (hp ▸ TokenList.wellFormed_bareOf (by decide)) (hp ▸ hg) hall.1
  obtain ⟨g', s', hrun, hshape, hrest⟩ := h
    { source := TokenList.bareOf [.keyword .ifKw, .punct .lParen, .ident, .punct .rParen, .punct .semicolon,
        .punct .rBrace], contexts := [.block] }
    (TokenList.bareOf [.punct .rBrace]).upcoming (TokenList.wellFormed_bareOf (by decide)) (hp ▸ rfl)
    (by rw [hleaves]; rfl) (fun _ => by decide)
  exact ⟨g, hg, hall.2, g', s', hrun, hshape, hrest⟩

end IncrementalSyntax

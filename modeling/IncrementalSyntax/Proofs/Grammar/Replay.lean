import IncrementalSyntax.Proofs.Grammar.Lookahead

/-!
# Nodes that are taken over

A statement or a member that is built meets its contract on any list of tokens that begins with the same
leaves, so it is built again there: this makes it good. A good node that a source offers in place of its
tokens can be taken over, since a list of tokens leads to a node of the same shape.

## Main definitions

* `Parse.Scoped`: actions that do not look at what was emitted before
* `Parse.Emits`: actions that emit one node

## Main results

* `Parse.replays_of_meets`: a node that is built without a diagnostic is built again
* `Parse.Meets.whole`: a production of good nodes
* `Parse.Meets.reuseOr`: a node of the source in place of its tokens
-/

namespace IncrementalSyntax

namespace Parse

open Green hiding id

/-- **Scoped.** The action does not look at the elements emitted before. -/
def Scoped {σ : Type} (m : Parse σ Unit) : Prop := scope m = m

theorem scoped_scope {σ : Type} (m : Parse σ Unit) : Scoped (scope m) := by
  funext p
  simp [scope]

theorem Scoped.apply {σ : Type} {m : Parse σ Unit} (h : Scoped m) (p : Parser σ) :
    m p = ((), { (m { p with out := [] }).2 with out := p.out ++ (m { p with out := [] }).2.out }) :=
  (congrFun h p).symm

theorem Scoped.bind {σ α : Type} {m : Parse σ α} {f : α → Parse σ Unit} (h : Silent m)
    (hf : ∀ a, Scoped (f a)) : Scoped (m >>= f) := by
  funext p
  show ((), { (f (m { p with out := [] }).1 (m { p with out := [] }).2).2 with
    out := p.out ++ (f (m { p with out := [] }).1 (m { p with out := [] }).2).2.out }) = f (m p).1 (m p).2
  rw [h p [], (hf (m p).1).apply (m p).2, h.out_eq p]

variable {version : LanguageVersion} {σ : Type} [TokenSource σ] {S : Supply version σ} {M : Mode}
variable {n : Nat} {C : Contract Unit} {m₁ : Parse σ Unit}

variable (S) in
/-- **Emits.** The action emits one node, of one of some kinds. -/
def Emits (kinds : NodeKind → Bool) (m : Parse σ Unit) : Prop :=
  ∀ p, Ready S p → ∃ g, (m p).2.out = p.out ++ [g] ∧ g.nodeKind?.any kinds = true

theorem Emits.reuseOr {kinds : NodeKind → Bool} (h : Emits S kinds m₁) :
    Emits S kinds (reuseOr kinds m₁) := by
  intro p hp
  unfold Parse.reuseOr
  cases hr : TokenSource.reuse? kinds p.source with
  | none => exact h p hp
  | some r => exact ⟨r.1, rfl, (S.reuse hp.ok hr).2.2.2.1⟩

/-- The leaves of a closed node without diagnostics end with a closing token. -/
theorem getLast?_of_closed {g : Green} (hclosed : Closed [g]) (hflag : ¬ Flagged [g]) :
    ∃ l, g.leaves.getLast? = some l ∧ l.tokenKind.closes = true := by
  rcases hclosed with hf | ⟨l, hl, hc⟩
  · exact absurd hf hflag
  · exact ⟨l, by simpa using hl, hc⟩

/-- A node that is built without a diagnostic is built again, since both runs have its leaves in common and
nothing else. -/
theorem replays_of_meets {R : Nat → Parse TokenList Unit} {p : Parser σ} {g : Green}
    (h : ∀ M d k, k ≤ n → k ≤ d → Meets S M C k m₁ (R d))
    (hscoped : ∀ d, 0 < d → Scoped (R d))
    (hkept : ∀ d q, Ready (Supply.ofTokenList version) q → Kept (Supply.ofTokenList version) q (R d q).2)
    (hp : Ready S p) (hP : C.pre (S.upcoming p.source)) (hn : (S.upcoming p.source).length ≤ n)
    (hnil : p.out = []) (hout : (m₁ p).2.out = [g]) (hclosed : Closed [g]) (hflag : ¬ Flagged [g])
    (hmiss : g.missesElse .eof = false) : Replays version R g := by
  intro depth q rest hwf hv hup hlen hopen
  obtain ⟨l, hlast, hcl⟩ := getLast?_of_closed hclosed hflag
  have hne : g.leaves ≠ [] := by
    rintro hnil
    simp [hnil] at hlast
  let M : Mode := ⟨False, S.upcoming (m₁ p).2.source, rest, False.elim⟩
  obtain ⟨hk, -, -⟩ := (h M n n le_rfl le_rfl).keeps p hp hP
  have htaken : S.upcoming p.source = g.leaves ++ M.left := by
    obtain ⟨taken, htaken, -, hplain⟩ := hk.taken
    have hleaves : g.leaves = taken := by
      simpa [hout, hnil] using hplain (hout ▸ hflag)
    rw [hleaves]
    exact htaken
  have hat : At S M p { q with out := [] } g.leaves := by
    refine ⟨⟨hp, ⟨hwf, hv⟩, htaken, hup, fun l' hl' => ?_⟩, by simp [hnil], False.elim⟩
    obtain rfl : l = l' := by simpa [hlast] using hl'
    exact hcl
  have hn' : g.leaves.length ≤ n := by
    rw [htaken, List.length_append] at hn
    omega
  rcases (h M depth _ hn' hlen).follows p _ _ hat hne le_rfl hP with
    hl | ⟨-, hh⟩ | ⟨-, r, hat', -, -⟩
  · rcases hl.2 with ht | hlt | ⟨-, hf⟩
    · simp only [Torn, frontUpTo, hout, missesElseAll_singleton] at ht
      rw [if_pos (le_refl M.left.length), hmiss] at ht
      cases ht
    · exact absurd hlt (lt_irrefl _)
    · exact absurd (hout ▸ hf) hflag
  · refine absurd hh.2.2.2.1 (hopen ?_)
    simpa [hout, lastIsOpenEnded] using hh.2.2.2.2
  · -- The run on the right has taken the leaves of the node and emitted one of the same shape.
    obtain rfl : r = [] := by
      have : M.left = r ++ M.left := hat'.alike.left
      simpa using this.symm
    have hdepth : 0 < depth := (List.length_pos_of_ne_nil hne).trans_le hlen
    have hkq := hkept depth { q with out := [] } ⟨hwf, hv⟩
    have hshapes := hat'.shapes
    rw [hout] at hshapes
    obtain ⟨g', hg', hshape⟩ : ∃ g', (R depth { q with out := [] }).2.out = [g'] ∧ g'.shape = g.shape := by
      cases ho : (R depth { q with out := [] }).2.out with
      | nil => simp [ho] at hshapes
      | cons g' gs =>
        cases gs with
        | nil => exact ⟨g', rfl, by simpa [ho] using hshapes.symm⟩
        | cons => simp [ho] at hshapes
    have hstatus : (R depth { q with out := [] }).2.status = q.status := by
      rcases hkq.status with hs | hf
      · exact hs
      · exact absurd (flagged_of_shapes hshapes.symm hf) hflag
    refine ⟨g', (R depth { q with out := [] }).2.source, ?_, hshape, hat'.alike.ready₂.ok, hat'.alike.right⟩
    rw [(hscoped depth hdepth).apply q]
    show ((), (⟨_, q.out ++ (R depth { q with out := [] }).2.out, (R depth { q with out := [] }).2.contexts,
      (R depth { q with out := [] }).2.status, (R depth { q with out := [] }).2.version⟩ :
        Parser TokenList)) = _
    rw [hg', hkq.contexts, hstatus, hkq.ready.version, ← hv]

namespace Meets

variable {m₂ : Parse TokenList Unit}

/-- A production all of whose nodes are good. -/
theorem whole (h : Meets S M { C with whole := False } n m₁ m₂) (hscoped : Scoped m₁)
    (hgood : ∀ p, Ready S p → C.pre (S.upcoming p.source) → (S.upcoming p.source).length ≤ n → p.out = [] →
      ∃ g, (m₁ p).2.out = [g] ∧ (g.isUnit = true → Good version g)) : Meets S M C n m₁ m₂ where
  keeps := h.keeps
  sound p hp hP hn hs := by
    obtain ⟨g, hg, hgood⟩ := hgood { p with out := [] } ⟨hp.ok, hp.version⟩ hP hn rfl
    rw [hscoped.apply p, hg]
    intro c hc
    rcases List.mem_append.1 hc with hc | hc
    · exact ⟨fun _ => hs c hc, fun d hd => (hs c hc).of_sub (.of_mem_children hd)⟩
    · obtain rfl := List.mem_singleton.1 hc
      have hch := (h.sound { p with out := [] } ⟨hp.ok, hp.version⟩ hP hn (by simp) c (by simp [hg])).2
      exact ⟨fun _ => sound_of_children hch hgood, hch⟩
  closed := h.closed
  follows := h.follows

/-- A node of the source is taken over in place of its tokens. The list of tokens leads to a node of the
same shape, unless an `else` comes behind an open-ended node. -/
theorem reuseOr {kinds : NodeKind → Bool} {R : Nat → Parse TokenList Unit} {d : Nat}
    (h : Meets S M C n m₁ (R d)) (hn : n ≤ d) (hkinds : ∀ k, kinds k = true → k.isStatement || k.isMember)
    (hR : ∀ g, Good version g → ¬ Flagged [g] → g.missesElse .eof = false →
      g.nodeKind?.any kinds = true → Replays version R g)
    (hpost : ∀ L, C.post () L) (htaken : C.taken () ≤ 1) (houter : C.outer) :
    Meets S M C n (Parse.reuseOr kinds m₁) (R d) := by
  have hgood : ∀ {p : Parser σ} {g : Green} {s : σ}, Ready S p →
      TokenSource.reuse? kinds p.source = some (g, s) → Good version g := by
    intro p g s hp hr
    obtain ⟨-, -, -, hk, -, -, hsound, -⟩ := S.reuse hp.ok hr
    refine hsound g (.self g) ?_
    obtain ⟨k, hk, hkind⟩ := (Option.any_eq_true _ _).1 hk
    simp [isUnit, hk, hkinds k hkind]
  refine ⟨⟨fun p hp hP => ?_, fun p hp hP hle hs => ?_, fun ho p hp hP hle => ?_⟩,
    fun p₁ p₂ common hat hne hle hP => ?_⟩
  · unfold Parse.reuseOr
    cases hr : TokenSource.reuse? kinds p.source with
    | none => exact h.keeps p hp hP
    | some r =>
      obtain ⟨-, hup, hne, -⟩ := S.reuse hp.ok hr
      refine ⟨.reuse hp hkinds hr, hpost _, fun _ => ?_⟩
      show (S.upcoming r.2).length + C.taken () ≤ _
      have := List.length_pos_of_ne_nil hne
      rw [hup, List.length_append]
      omega
  · unfold Parse.reuseOr
    cases hr : TokenSource.reuse? kinds p.source with
    | none => exact h.sound p hp hP hle hs
    | some r =>
      obtain ⟨-, -, -, -, -, -, hsound, -⟩ := S.reuse hp.ok hr
      intro g hg
      have hg : g.Sound version := by
        rcases List.mem_append.1 hg with hg | hg
        · exact hs g hg
        · rwa [List.mem_singleton.1 hg]
      exact ⟨fun _ => hg, fun c hc => hg.of_sub (.of_mem_children hc)⟩
  · unfold Parse.reuseOr
    cases hr : TokenSource.reuse? kinds p.source with
    | none => exact h.closed ho p hp hP hle
    | some r => exact (hgood hp hr).closed.append_left p.out
  · unfold Parse.reuseOr
    cases hr : TokenSource.reuse? kinds p₁.source with
    | none => exact h.follows p₁ p₂ common hat hne hle hP
    | some r =>
      obtain ⟨g, s⟩ := r
      obtain ⟨hok, hup, hgne, hkind, hflag, -, -, -⟩ := S.reuse hat.ready₁.ok hr
      have hready : Ready S { p₁ with source := s, out := p₁.out ++ [g] } := ⟨hok, hat.ready₁.version⟩
      by_cases hmiss : g.missesElse .eof = true
      · refine .inl ⟨hready, .inl ?_⟩
        simp [Torn, missesElseAll_append, missesElse_of_eof hmiss]
      have hmiss : g.missesElse .eof = false := Bool.eq_false_iff.2 hmiss
      have hsplit : g.leaves ++ S.upcoming s = common ++ M.left := hup ▸ hat.alike.left
      by_cases hlong : (S.upcoming s).length < M.left.length
      · exact .inl ⟨hready, .inr (.inl hlong)⟩
      obtain ⟨rest, rfl, hs⟩ : ∃ rest, common = g.leaves ++ rest ∧ S.upcoming s = rest ++ M.left := by
        rcases List.append_eq_append_iff.1 hsplit with ⟨rest, h₁, h₂⟩ | ⟨rest, h₁, h₂⟩
        · exact ⟨rest, h₁, h₂⟩
        · have hlen := congrArg List.length h₂
          rw [List.length_append] at hlen
          obtain rfl : rest = [] := List.length_eq_zero_iff.1 (by omega)
          exact ⟨[], by simpa using h₁.symm, by simpa using h₂.symm⟩
      -- An `else` behind an open-ended node is lost if it is common, and comes on the right otherwise.
      by_cases helse : g.isOpenEnded = true ∧ frontKind (rest ++ M.right) = .keyword .elseKw
      · cases rest with
        | nil =>
          have hns : ¬ M.strict := fun hst => S.upcoming_ne_nil hok (by simp [hs, (M.nil_of_strict hst).1])
          refine .inr (.inl ⟨houter, hready, hns, by simpa using hs, by simpa using helse.2, ?_⟩)
          simp [lastIsOpenEnded_eq, helse.1]
        | cons l rest =>
          refine .inl ⟨hready, .inl ?_⟩
          have hlt : ¬ (S.upcoming s).length ≤ M.left.length := by
            rw [hs, List.length_append, List.length_cons]
            omega
          have hfront : frontUpTo S M.left.length { p₁ with source := s, out := p₁.out ++ [g] } =
              .keyword .elseKw := by
            rw [frontUpTo, if_neg hlt, front, hs]
            exact helse.2
          simp [Torn, hfront, missesElseAll_append, missesElse_of_isOpenEnded helse.1]
      · obtain ⟨g', s', happly, hshape, hwf, hup'⟩ := hR g (hgood hat.ready₁ hr) hflag hmiss hkind d p₂
          (rest ++ M.right) hat.alike.ready₂.ok hat.alike.ready₂.version
          (by rw [hat.alike.right, List.append_assoc])
          (by rw [List.length_append] at hle; omega) (fun ho hk => helse ⟨ho, hk⟩)
        refine .inr (.inr ⟨by rw [happly], rest, ?_, ?_, absurd houter⟩)
        · rw [happly]
          exact hat.emit g.leaves hok hwf hs hup' (by simp [hshape]) fun hst => (hat.strict hst).2
        · have := List.length_pos_of_ne_nil hgne
          show rest.length + C.taken () ≤ _
          rw [List.length_append]
          omega

end Meets

end Parse

end IncrementalSyntax

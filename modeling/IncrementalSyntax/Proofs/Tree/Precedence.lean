import IncrementalSyntax.Proofs.Tree.Formed

/-!
# The trees of expressions

In every tree of a session the operands of an operator hold together tighter than the operator binds, whatever is wrong
with the text. Operators of one level associate to the left, assignments to the right, and a prefix operator stands
between the binary operators and what follows a target.

## Main results

* `Session.precedence_spec`: the operands of every expression
-/

namespace IncrementalSyntax

open Green (Sub Formed Grouped)

/-- The operands in a tree that is formed are grouped. -/
theorem Green.Formed.grouped {lists : List ListContext} {next : TokenKind} {root g : Green} {kind : NodeKind}
    (h : Formed lists [root] next) (hg : Sub g root) (hkind : g.nodeKind? = some kind) : Grouped kind g.children := by
  obtain ⟨lists', next', hformed⟩ := h.of_sub hg
  exact (hformed.made hkind).1

namespace Session

variable {allowed : Text → ChangeSet → Prop} {w : Workspace} {trees : List SyntaxTree} {made : List Snapshot}
variable {t : SyntaxTree}

/-- **Every expression shows the precedence of its operators.** A binary operator has a left operand that is as tight
as itself and a right one that is tighter, neither of them an assignment. The left side of an assignment is none, the
operand of a prefix operator is no binary expression or assignment, and a target is no prefix expression either. -/
theorem precedence_spec (h : Session allowed w trees made) (ht : t ∈ trees) {g : Green} (hg : Sub g t.root) :
    (g.nodeKind? = some .binaryExpr → ∃ left op right precedence, g.children = [left, .token op, right] ∧
      op.leaf.tokenKind.precedence? = some precedence ∧
      (left.nodeKind? = some .binaryExpr → ∃ q, left.binaryPrecedence? = some q ∧ precedence ≤ q) ∧
      (right.nodeKind? = some .binaryExpr → ∃ q, right.binaryPrecedence? = some q ∧ precedence < q) ∧
      left.nodeKind? ≠ some .assignExpr ∧ right.nodeKind? ≠ some .assignExpr) ∧
    (g.nodeKind? = some .assignExpr → ∃ left op right, g.children = [left, .token op, right] ∧
      left.nodeKind? ≠ some .assignExpr) ∧
    (g.nodeKind? = some .prefixExpr → ∃ op operand, g.children = [.token op, operand] ∧
      operand.nodeKind? ≠ some .binaryExpr ∧ operand.nodeKind? ≠ some .assignExpr) ∧
    (∀ kind ∈ [NodeKind.postfixExpr, .callExpr, .memberAccessExpr, .indexExpr], g.nodeKind? = some kind →
      ∃ target rest, g.children = target :: rest ∧ target.nodeKind? ≠ some .binaryExpr ∧
        target.nodeKind? ≠ some .assignExpr ∧ target.nodeKind? ≠ some .prefixExpr) := by
  have hformed := h.formed t ht
  refine ⟨fun hkind => ?_, fun hkind => ?_, fun hkind => ?_, fun kind hmem hkind => ?_⟩
  · obtain ⟨left, op, right, precedence, hcs, hop, hleft, hright⟩ : Grouped .binaryExpr g.children :=
      hformed.grouped hg hkind
    have hoperand : ∀ c ∈ g.children, c.nodeKind? = some .binaryExpr → c.binaryPrecedence? = some c.tightness :=
      fun c hc hk => Green.binaryPrecedence?_eq_some hk (hformed.grouped ((Sub.of_mem_children hc).trans hg) hk)
    have hpos := TokenKind.precedence?_pos hop
    refine ⟨left, op, right, precedence, hcs, hop, fun hk => ⟨_, hoperand left (by simp [hcs]) hk, hleft⟩,
      fun hk => ⟨_, hoperand right (by simp [hcs]) hk, hright⟩, ?_, ?_⟩
    · exact Green.nodeKind?_ne_assignExpr (hpos.trans_le hleft)
    · exact Green.nodeKind?_ne_assignExpr (hpos.trans hright)
  · obtain ⟨left, op, right, hcs, -, hleft⟩ : Grouped .assignExpr g.children := hformed.grouped hg hkind
    exact ⟨left, op, right, hcs, Green.nodeKind?_ne_assignExpr hleft⟩
  · obtain ⟨op, operand, hcs, -, hoperand⟩ : Grouped .prefixExpr g.children := hformed.grouped hg hkind
    exact ⟨op, operand, hcs, Green.nodeKind?_ne_binaryExpr hoperand,
      Green.nodeKind?_ne_assignExpr ((Nat.zero_le _).trans_lt hoperand)⟩
  · have htarget : ∃ target rest, g.children = target :: rest ∧ Parse.precedences + 1 < target.tightness := by
      have hgrouped := hformed.grouped hg hkind
      simp only [List.mem_cons, List.not_mem_nil, or_false] at hmem
      rcases hmem with rfl | rfl | rfl | rfl <;> exact hgrouped
    obtain ⟨target, rest, hcs, htight⟩ := htarget
    exact ⟨target, rest, hcs, Green.nodeKind?_ne_binaryExpr ((Nat.lt_succ_self _).trans htight),
      Green.nodeKind?_ne_assignExpr ((Nat.zero_le _).trans_lt htight), Green.nodeKind?_ne_prefixExpr htight⟩

/-- Two operators of one level, behind which the operand is missing. -/
theorem precedence_spec_missing : ∃ (w : Workspace) (trees : List SyntaxTree) (made : List Snapshot) (t : SyntaxTree),
    Session (fun _ _ => True) w trees made ∧ t ∈ trees ∧ t.text = ['a', '-', 'b', '-'] ∧
      ∃ g, Sub g t.root ∧ g.nodeKind? = some .binaryExpr ∧ ∃ left op right precedence,
        g.children = [left, .token op, right] ∧ op.leaf.tokenKind.precedence? = some precedence ∧
        left.nodeKind? = some .binaryExpr ∧ ∃ q, left.binaryPrecedence? = some q ∧ precedence ≤ q := by
  let t₀ : SyntaxTree := (SyntaxTree.ofText {} ['a', '-', 'b', '-'] {} .expression).1
  have h₀ : Session (fun _ _ => True) _ [t₀] _ := .parse ['a', '-', 'b', '-'] {} .expression .start
  obtain ⟨g, hg, hkind, hleft⟩ : ∃ g ∈ t₀.root.children.head?, g.nodeKind? = some .binaryExpr ∧
      g.children.head?.bind Green.nodeKind? = some .binaryExpr := by
    decide +kernel
  have hsub : Sub g t₀.root := Sub.of_mem_children (List.mem_of_mem_head? hg)
  obtain ⟨left, op, right, precedence, hcs, hop, hprecedence, -⟩ :=
    (h₀.precedence_spec (List.mem_singleton_self _) hsub).1 hkind
  rw [hcs] at hleft
  exact ⟨_, _, _, t₀, h₀, List.mem_singleton_self _, rfl, g, hsub, hkind, left, op, right, precedence, hcs, hop, hleft,
    hprecedence hleft⟩

end Session

end IncrementalSyntax

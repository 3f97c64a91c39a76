import IncrementalSyntax.Grammar.Expression
import IncrementalSyntax.Proofs.Green.Leaves

/-!
# How tight an expression holds together

An assignment is the loosest expression, a binary one is as tight as its operator, a prefix operator is tighter than
any binary one, and all else is tighter still. A tree of operators shows the precedence if every operand is tight
enough for the operator that it belongs to.

## Main definitions

* `Green.binaryPrecedence?`: the precedence of the operator of a binary expression
* `Green.tightness`: how tight an element holds together
* `Green.Grouped`: children whose operands are tight enough, and those of an incomplete member
-/

namespace IncrementalSyntax

namespace Green

/-- The precedence of the operator of a binary expression. -/
def binaryPrecedence? (g : Green) : Option Nat :=
  if g.nodeKind? = some .binaryExpr then (g.children[1]?.bind tokenKind?).bind TokenKind.precedence? else none

/-- How tight an element holds together: an assignment not at all, a binary expression as its operator does, and
everything else more than that, with prefix operators in between. -/
def tightness (g : Green) : Nat :=
  match g.nodeKind? with
  | some .assignExpr => 0
  | some .binaryExpr => g.binaryPrecedence?.getD 0
  | some .prefixExpr => Parse.precedences + 1
  | _ => Parse.precedences + 2

/-- **Grouped.** The children of a node of a kind, if the operands among them are tight enough. The right operand of a
binary operator has to be tighter than the left one, and the right one of an assignment may be anything. What an
incomplete member lacks is among its children as a missing token. -/
def Grouped : NodeKind → List Green → Prop
  | .assignExpr, cs => ∃ left op right, cs = [left, .token op, right] ∧ op.leaf.tokenKind.isAssignment = true ∧
      0 < left.tightness
  | .binaryExpr, cs => ∃ left op right precedence, cs = [left, .token op, right] ∧
      op.leaf.tokenKind.precedence? = some precedence ∧ precedence ≤ left.tightness ∧ precedence < right.tightness
  | .prefixExpr, cs => ∃ op operand, cs = [.token op, operand] ∧ op.leaf.tokenKind.isPrefix = true ∧
      Parse.precedences < operand.tightness
  | .postfixExpr, cs | .callExpr, cs | .memberAccessExpr, cs | .indexExpr, cs => ∃ target rest,
      cs = target :: rest ∧ Parse.precedences + 1 < target.tightness
  | .incompleteMember, cs => ∃ t, token t ∈ cs ∧ t.leaf.missing = true
  | _, _ => True

end Green

/-- The tightest binary operators. -/
theorem TokenKind.precedence?_le {k : TokenKind} {precedence : Nat} (h : k.precedence? = some precedence) :
    precedence ≤ Parse.precedences := by
  unfold precedence? at h
  split at h <;> simp_all [Parse.precedences] <;> omega

theorem TokenKind.precedence?_pos {k : TokenKind} {precedence : Nat} (h : k.precedence? = some precedence) :
    0 < precedence := by
  unfold precedence? at h
  split at h <;> simp_all <;> omega

namespace Green

variable {id : Id} {cs : List Green}

theorem tightness_ofChildren_binaryExpr {left right : Green} {op : Token} {precedence : Nat}
    (h : op.leaf.tokenKind.precedence? = some precedence) :
    (ofChildren id (.node .binaryExpr) [left, .token op, right]).tightness = precedence := by
  simp [tightness, binaryPrecedence?, ofChildren, nodeKind?, children, tokenKind?, h]

/-- A node without operands is as tight as can be. -/
theorem tightness_ofChildren {kind : NodeKind} (hassign : kind ≠ .assignExpr) (hbinary : kind ≠ .binaryExpr)
    (hprefixed : kind ≠ .prefixExpr) : (ofChildren id (.node kind) cs).tightness = Parse.precedences + 2 := by
  simp only [tightness, ofChildren, nodeKind?]
  split <;> simp_all

variable {g : Green}

theorem tightness_of_assignExpr (h : g.nodeKind? = some .assignExpr) : g.tightness = 0 := by rw [tightness, h]

theorem tightness_of_prefixExpr (h : g.nodeKind? = some .prefixExpr) : g.tightness = Parse.precedences + 1 := by
  rw [tightness, h]

theorem tightness_of_binaryExpr (h : g.nodeKind? = some .binaryExpr) : g.tightness = g.binaryPrecedence?.getD 0 := by
  rw [tightness, h]

theorem tightness_of_binaryExpr_le (h : g.nodeKind? = some .binaryExpr) : g.tightness ≤ Parse.precedences := by
  rw [tightness_of_binaryExpr h]
  cases hprecedence : g.binaryPrecedence? with
  | none => exact Nat.zero_le _
  | some precedence =>
    rw [binaryPrecedence?, if_pos h] at hprecedence
    obtain ⟨k, -, hk⟩ := Option.bind_eq_some_iff.1 hprecedence
    exact TokenKind.precedence?_le hk

/-- The operator of a binary expression whose operands are grouped has a precedence. -/
theorem binaryPrecedence?_eq_some (h : g.nodeKind? = some .binaryExpr) (hgrouped : Grouped .binaryExpr g.children) :
    g.binaryPrecedence? = some g.tightness := by
  obtain ⟨left, op, right, precedence, hcs, hop, -⟩ := hgrouped
  have hprecedence : g.binaryPrecedence? = some precedence := by
    rw [binaryPrecedence?, if_pos h, hcs]
    exact hop
  rw [tightness_of_binaryExpr h, hprecedence]
  rfl

/-- What is tight enough is not a looser expression. -/
theorem nodeKind?_ne_assignExpr (h : 0 < g.tightness) : g.nodeKind? ≠ some .assignExpr := fun hkind =>
  h.ne' (tightness_of_assignExpr hkind)

theorem nodeKind?_ne_binaryExpr (h : Parse.precedences < g.tightness) : g.nodeKind? ≠ some .binaryExpr := fun hkind =>
  absurd (tightness_of_binaryExpr_le hkind) (Nat.not_le_of_lt h)

theorem nodeKind?_ne_prefixExpr (h : Parse.precedences + 1 < g.tightness) : g.nodeKind? ≠ some .prefixExpr :=
  fun hkind => h.ne' (tightness_of_prefixExpr hkind)

end Green

end IncrementalSyntax

import IncrementalSyntax.Proofs.Ast.Reading
import IncrementalSyntax.Proofs.Ast.Words
import IncrementalSyntax.Proofs.Grammar.Written

/-!
# Trees of written expressions

The words of a name, a type or an expression have a tree, and the abstract tree is read back from it.

## Main definitions

* `Phrase.form`: what the trees of a phrase of expressions are

## Main results

* `Ast.Ty.exists_tree`, `Ast.Expr.Fits.exists_tree`: the trees of written types and expressions
-/

namespace IncrementalSyntax

open Ast (Name Ty Expr Word IsWord Spelled)
open Shape (leaf branch Shows)

/-! ## Words of parts -/

namespace Ast

variable {L : List Leaf} {ws vs : List Word} {w : Word}

theorem spelled_append (h : Spelled L (ws ++ vs)) :
    ∃ L₁ L₂, L = L₁ ++ L₂ ∧ Spelled L₁ ws ∧ Spelled L₂ vs :=
  ⟨_, _, (List.take_append_drop ws.length L).symm, List.forall₂_take_append _ _ _ h,
    List.forall₂_drop_append _ _ _ h⟩

theorem spelled_cons (h : Spelled L (w :: ws)) : ∃ l L', L = l :: L' ∧ IsWord l w ∧ Spelled L' ws := by
  obtain ⟨l, L', hl, hL', rfl⟩ := List.forall₂_cons_right_iff.1 h
  exact ⟨l, L', rfl, hl, hL'⟩

theorem spelled_nil (h : Spelled L []) : L = [] := List.forall₂_nil_right_iff.1 h

theorem spelled_singleton (h : Spelled L [w]) : ∃ l, L = [l] ∧ IsWord l w := by
  obtain ⟨l, T, rfl, hl, h⟩ := spelled_cons h
  obtain rfl := spelled_nil h
  exact ⟨l, rfl, hl⟩

theorem spelled_pair {a b : Word} (h : Spelled L [a, b]) : ∃ l r, L = [l, r] ∧ IsWord l a ∧ IsWord r b := by
  obtain ⟨l, T, rfl, hl, h⟩ := spelled_cons h
  obtain ⟨r, rfl, hr⟩ := spelled_singleton h
  exact ⟨l, r, rfl, hl, hr⟩

theorem spelled_concat (h : Spelled L (ws ++ [w])) : ∃ L' l, L = L' ++ [l] ∧ Spelled L' ws ∧ IsWord l w := by
  obtain ⟨L', T, rfl, hL', hT⟩ := spelled_append h
  obtain ⟨l, rfl, hl⟩ := spelled_singleton hT
  exact ⟨L', l, rfl, hL', hl⟩

/-- Words between two others. -/
theorem spelled_between {a b : Word} (h : Spelled L (a :: (ws ++ [b]))) :
    ∃ l L' r, L = l :: (L' ++ [r]) ∧ IsWord l a ∧ Spelled L' ws ∧ IsWord r b := by
  obtain ⟨l, L', rfl, hl, h⟩ := spelled_cons h
  obtain ⟨L', r, rfl, hL', hr⟩ := spelled_concat h
  exact ⟨l, L', r, rfl, hl, hL', hr⟩

end Ast

/-! ## Names and types -/

namespace View

theorem ofRed?_of_shape {c : Category} {r : Red} {k : NodeKind} {ss : List Shape} (h : r.green.shape = branch k ss)
    (hk : c.holds k = true) : ∃ u : View c, ofRed? c r = some u ∧ u.red = r := by
  have hfits : r.green.nodeKind?.any c.holds = true := by
    rw [Red.nodeKind?_of_shape h]
    exact hk
  exact ⟨⟨r, hfits⟩, dif_pos hfits, rfl⟩

end View

namespace Ast

variable {L : List Leaf}

/-- By induction on the identifiers from the last one back, as names group to the left. -/
theorem Name.exists_segments (id : Text) (ids : List Text) (h : Spelled L (Name.words ⟨id, ids⟩)) :
    ∃ ss, Yields .name L ss ∧ ((Shape.tokens ss).filter (·.tokenKind = .ident)).map Leaf.text = id :: ids := by
  induction ids using List.reverseRecOn generalizing L with
  | nil =>
    obtain ⟨l, rfl, hl⟩ := spelled_singleton h
    have hkind : l.tokenKind = .ident := hl.kind
    exact ⟨_, .ident hkind, by simp [Shape.tokens_leaf hl.present, hkind, hl.text, Word.ident]⟩
  | append_singleton ids t ih =>
    have hwords : Name.words ⟨id, ids ++ [t]⟩ = Name.words ⟨id, ids⟩ ++ [.punct .dot, .ident t] := by
      simp [Name.words]
    rw [hwords] at h
    obtain ⟨L, T, rfl, hname, h⟩ := spelled_append h
    obtain ⟨d, l, rfl, hd, hl⟩ := spelled_pair h
    obtain ⟨ss, hyields, hsegments⟩ := ih hname
    have hdot : d.tokenKind = .punct .dot := hd.kind
    have hident : l.tokenKind = .ident := hl.kind
    refine ⟨_, .dotted hyields hdot hident, ?_⟩
    simp [Shape.tokens_leaf hl.present, Shape.tokens_leaf hd.present, hdot, hident, hsegments, hl.text, Word.ident]

theorem Name.exists_tree {n : Name} (h : Spelled L n.words) :
    ∃ ss, Yields .name L ss ∧ Shows (fun _ => View.toName?) (branch .name ss) n := by
  obtain ⟨ss, hyields, hsegments⟩ := exists_segments n.first n.rest h
  refine ⟨ss, hyields, ⟨_, _, rfl, rfl⟩, fun v levels hv => ?_⟩
  have hread : v.segments = n.first :: n.rest := by
    rw [View.segments, View.leaves, View.leavesOf_of_shape hv.shape, hsegments]
  simp only [View.toName?, hread]

end Ast

namespace Shape.Shows

theorem predefined {l : Leaf} {b : Builtin} (hl : IsWord l (.builtin b)) :
    Shows View.toTypeUpTo (branch .predefinedType [leaf l]) (.predefined b) := by
  refine ⟨⟨_, _, rfl, rfl⟩, fun v levels hv => ?_⟩
  obtain ⟨n, rfl⟩ := exists_succ hv
  have hleaves : v.leaves = [l] := by
    rw [View.leaves, View.leavesOf_of_shape hv.shape, Shape.tokens_leaf hl.present, Shape.tokens_nil]
  have hkind : v.kind = .node .predefinedType := Red.kind_of_shape hv.shape
  have hword : l.tokenKind = .builtin b := hl.kind
  simp [View.isArray, View.predefined?, hkind, hleaves, hword]

theorem named {ss : List Shape} {name : Name} (h : Shows (fun _ => View.toName?) (branch .name ss) name) :
    Shows View.toTypeUpTo (branch .name ss) (.named name) := by
  refine ⟨⟨_, _, rfl, rfl⟩, fun v levels hv => ?_⟩
  obtain ⟨n, rfl⟩ := exists_succ hv
  have hkind : v.kind = .node .name := Red.kind_of_shape hv.shape
  obtain ⟨u, hu, hred⟩ := View.ofRed?_of_shape (c := .name) hv.shape rfl
  have hname : u.toName? = some name := h.reads u (n + 1) (hred ▸ hv)
  simp [View.isArray, View.predefined?, View.asName?, hkind, hu, hname]

theorem array {s : Shape} {t : Ty} {l r : Leaf} (h : Shows View.toTypeUpTo s t) :
    Shows View.toTypeUpTo (branch .arrayType [s, leaf l, leaf r]) (.array t) := by
  refine ⟨⟨_, _, rfl, rfl⟩, fun v levels hv => ?_⟩
  obtain ⟨n, rfl⟩ := exists_succ hv
  have hkind : v.kind = .node .arrayType := Red.kind_of_shape hv.shape
  have helement : (View.partOf? .type v.red).bind (View.toTypeUpTo n) = some t :=
    (part?_eq hv (by simp [h.fits]) h).1
  simp [View.isArray, View.elementType?, View.part?, hkind, helement]

end Shape.Shows

/-- The words of a type have one tree, from which the type is read back. -/
theorem Ast.Ty.exists_tree {t : Ty} {L : List Leaf} (h : Spelled L t.words) :
    ∃ s, Yields .type L [s] ∧ Shows View.toTypeUpTo s t := by
  induction t generalizing L with
  | predefined b =>
    obtain ⟨l, rfl, hl⟩ := spelled_singleton h
    exact ⟨_, .builtin hl.kind, .predefined hl⟩
  | named n =>
    obtain ⟨ss, hyields, hshows⟩ := Name.exists_tree h
    exact ⟨_, .named hyields, .named hshows⟩
  | array t ih =>
    obtain ⟨L, T, rfl, htype, h⟩ := spelled_append h
    obtain ⟨l, r, rfl, hl, hr⟩ := spelled_pair h
    obtain ⟨s, hyields, hshows⟩ := ih htype
    exact ⟨_, .array hyields hl.kind hr.kind, .array hshows⟩

/-! ## Lists with commas -/

/-- Parts with commas between them, where each part has a tree. By induction on the parts. -/
theorem Ast.exists_commas {c : Category} {α : Type} {words : α → List Word} {read : Nat → View c → Option α}
    (one many : List Leaf → List Shape → Prop) (hone : ∀ {L ss}, one L ss → many L ss)
    (hnext : ∀ {L L' ss ts} {d : Leaf}, one L ss → d.tokenKind = .punct .comma → many L' ts →
      many (L ++ d :: L') (ss ++ leaf d :: ts))
    {a : α} {as : List α} (h : ∀ b ∈ a :: as, ∀ L, Spelled L (words b) → ∃ s, one L [s] ∧ Shows read s b)
    {L : List Leaf} (hL : Spelled L (commas ((a :: as).map words))) :
    ∃ ss, many L ss ∧ List.Forall₂ (Shows read) (ss.filter (Shape.fits c)) (a :: as) := by
  induction as generalizing a L with
  | nil =>
    obtain ⟨s, hs, hshows⟩ := h a List.mem_cons_self L hL
    exact ⟨[s], hone hs, by simpa [hshows.fits] using hshows⟩
  | cons b as ih =>
    obtain ⟨L₁, T, rfl, hfirst, hL⟩ := spelled_append hL
    obtain ⟨d, L₂, rfl, hd, hL⟩ := spelled_cons hL
    obtain ⟨s, hs, hshows⟩ := h a List.mem_cons_self L₁ hfirst
    obtain ⟨ss, hss, hall⟩ := ih (fun e he => h e (List.mem_cons_of_mem _ he)) hL
    refine ⟨s :: leaf d :: ss, hnext hs hd.kind hss, ?_⟩
    simpa [hshows.fits] using ⟨hshows, hall⟩

/-! ## Views of expressions -/

namespace View

variable {v : View .expression} {k : NodeKind} {s t : Shape} {ss : List Shape} {as : List Expr} {a b : Expr}
variable {n : Nat}

theorem left?_of_shows (hv : v.red.Below (branch k ss) (n + 2))
    (hss : (ss.filter (Shape.fits .expression)).head? = some s) (h : Shows toExprUpTo s a) :
    v.left?.bind (toExprUpTo n) = some a := by
  rw [left?, operands, parts, partsOf, List.head?_filterMap]
  exact (Shows.part?_eq hv hss h).1

/-- The first two operands. -/
theorem operands_of_shows (hv : v.red.Below (branch k ss) (n + 2))
    (hss : ss.filter (Shape.fits .expression) = [s, t]) (h : Shows toExprUpTo s a) (h' : Shows toExprUpTo t b) :
    v.left?.bind (toExprUpTo n) = some a ∧ v.operands[1]?.bind (toExprUpTo n) = some b := by
  have hboth : List.Forall₂ (Shows toExprUpTo) (ss.filter (Shape.fits .expression)) [a, b] := by
    rw [hss]
    exact .cons h (.cons h' .nil)
  exact ⟨left?_of_shows hv (by rw [hss]; rfl) h, Shows.getElem?_parts hv hboth 1 rfl⟩

theorem toOperator?_of_shape (hv : v.red.Below (branch k ss) n)
    (hk : k ∈ [NodeKind.prefixExpr, .postfixExpr, .binaryExpr, .assignExpr]) {l : Leaf} {op : Punct}
    (hl : IsWord l (.punct op)) (hss : Shape.tokens ss = [l]) : v.toOperator? = some op := by
  have hkind : v.kind = .node k := Red.kind_of_shape hv.shape
  have hword : l.tokenKind = .punct op := hl.kind
  have hleaves : v.leaves = [l] := (leavesOf_of_shape hv.shape).trans hss
  have hoperator : v.operator? = some (.punct op) := by
    rw [operator?, if_pos (by simpa [hkind] using hk), hleaves]
    simp [hword, TokenKind.isPunct]
  simp only [toOperator?, hoperator]

/-- The two sides of a binary expression or an assignment, and what stands between them. -/
theorem sides_of_shows {l : Leaf} {op : Punct} (hv : v.red.Below (branch k [s, leaf l, t]) (n + 2))
    (hk : k = .binaryExpr ∨ k = .assignExpr) (h : Shows toExprUpTo s a) (hl : IsWord l (.punct op))
    (h' : Shows toExprUpTo t b) :
    v.left?.bind (toExprUpTo n) = some a ∧ v.toOperator? = some op ∧ v.right?.bind (toExprUpTo n) = some b := by
  have hkind : v.kind = .node k := Red.kind_of_shape hv.shape
  obtain ⟨hleft, hsecond⟩ := operands_of_shows hv (by simp [h.fits, h'.fits]) h h'
  refine ⟨hleft, toOperator?_of_shape hv ?_ hl ?_, ?_⟩
  · rcases hk with rfl | rfl <;> decide
  · simp [h.tokens, Shape.tokens_leaf hl.present, h'.tokens]
  · rw [right?, if_pos (by simpa [hkind] using hk)]
    exact hsecond

theorem memberName?_of_shape (hv : v.red.Below (branch k ss) n) (hk : k = .nameExpr ∨ k = .memberAccessExpr)
    {l : Leaf} (hss : (Shape.tokens ss).find? (·.tokenKind = .ident) = some l) : v.memberName? = some l := by
  have hkind : v.kind = .node k := Red.kind_of_shape hv.shape
  rw [memberName?, if_pos (by simpa [hkind] using hk), leaf?, leaves, leavesOf_of_shape hv.shape, hss]

/-- The arguments lie one level further down. -/
theorem arguments_of_shows (hv : v.red.Below (branch k ss) (n + 2)) {cs : List Shape}
    (hss : (ss.filter (Shape.fits .argList)).head? = some (branch .argList cs))
    (hcs : List.Forall₂ (Shows toExprUpTo) (cs.filter (Shape.fits .expression)) as) :
    v.arguments.mapM (toExprUpTo n) = some as := by
  obtain ⟨u, hu, hbelow⟩ := partOf?_of_shape hv.shape hss
  have hargs : v.arguments = partsOf .expression u.red := by simp [arguments, part?, hu, parts]
  rw [hargs]
  exact (Shows.mapM_parts ⟨hbelow.shape, hbelow.depth.trans hv.depth⟩ hcs).1

end View

namespace Shape.Shows

variable {s t : Shape} {e e' : Expr} {l l' r : Leaf} {id : Text} {op : Punct} {cs : List Shape} {as : List Expr}

theorem literal {kind : Literal} {text : Text} (hl : IsWord l ⟨.literal kind, text⟩) :
    Shows View.toExprUpTo (branch .literalExpr [leaf l]) (.literal kind text) := by
  refine ⟨⟨_, _, rfl, rfl⟩, fun v levels hv => ?_⟩
  obtain ⟨n, rfl⟩ := exists_succ hv
  have hleaves : v.leaves = [l] := by
    rw [View.leaves, View.leavesOf_of_shape hv.shape, Shape.tokens_leaf hl.present, Shape.tokens_nil]
  have hkind : v.kind = .node .literalExpr := Red.kind_of_shape hv.shape
  have hword : l.tokenKind = .literal kind := hl.kind
  have htext : l.text = text := hl.text
  simp [Red.nodeKind?_of_shape hv.shape, View.literal?, View.toConstant?, hkind, hleaves, hword,
    htext]

theorem constant {k : Keyword} (hl : IsWord l (.keyword k)) :
    Shows View.toExprUpTo (branch .literalExpr [leaf l]) (.constant k) := by
  refine ⟨⟨_, _, rfl, rfl⟩, fun v levels hv => ?_⟩
  obtain ⟨n, rfl⟩ := exists_succ hv
  have hleaves : v.leaves = [l] := by
    rw [View.leaves, View.leavesOf_of_shape hv.shape, Shape.tokens_leaf hl.present, Shape.tokens_nil]
  have hkind : v.kind = .node .literalExpr := Red.kind_of_shape hv.shape
  have hword : l.tokenKind = .keyword k := hl.kind
  simp [Red.nodeKind?_of_shape hv.shape, View.literal?, View.toConstant?, hkind, hleaves, hword]

theorem name (hl : IsWord l (.ident id)) : Shows View.toExprUpTo (branch .nameExpr [leaf l]) (.name id) := by
  refine ⟨⟨_, _, rfl, rfl⟩, fun v levels hv => ?_⟩
  obtain ⟨n, rfl⟩ := exists_succ hv
  have hword : l.tokenKind = .ident := hl.kind
  have htext : l.text = id := hl.text
  have hname : v.memberName? = some l :=
    View.memberName?_of_shape hv (.inl rfl) (by simp [Shape.tokens_leaf hl.present, hword])
  simp [Red.nodeKind?_of_shape hv.shape, hname, htext]

theorem this : Shows View.toExprUpTo (branch .thisExpr [leaf l]) .this := by
  refine ⟨⟨_, _, rfl, rfl⟩, fun v levels hv => ?_⟩
  obtain ⟨n, rfl⟩ := exists_succ hv
  simp [Red.nodeKind?_of_shape hv.shape]

theorem paren (h : Shows View.toExprUpTo s e) :
    Shows View.toExprUpTo (branch .parenExpr [leaf l, s, leaf r]) (.paren e) := by
  refine ⟨⟨_, _, rfl, rfl⟩, fun v levels hv => ?_⟩
  obtain ⟨n, rfl⟩ := exists_succ hv
  have hleft : v.left?.bind (View.toExprUpTo n) = some e := View.left?_of_shows hv (by simp [h.fits]) h
  simp [Red.nodeKind?_of_shape hv.shape, hleft]

theorem prefixed (hl : IsWord l (.punct op)) (h : Shows View.toExprUpTo s e) :
    Shows View.toExprUpTo (branch .prefixExpr [leaf l, s]) (.prefixed op e) := by
  refine ⟨⟨_, _, rfl, rfl⟩, fun v levels hv => ?_⟩
  obtain ⟨n, rfl⟩ := exists_succ hv
  have hleft : v.left?.bind (View.toExprUpTo n) = some e := View.left?_of_shows hv (by simp [h.fits]) h
  have hop : v.toOperator? = some op :=
    View.toOperator?_of_shape hv (by decide) hl (by simp [Shape.tokens_leaf hl.present, h.tokens])
  simp [Red.nodeKind?_of_shape hv.shape, hleft, hop]

theorem postfixed (h : Shows View.toExprUpTo s e) (hl : IsWord l (.punct op)) :
    Shows View.toExprUpTo (branch .postfixExpr [s, leaf l]) (.postfixed e op) := by
  refine ⟨⟨_, _, rfl, rfl⟩, fun v levels hv => ?_⟩
  obtain ⟨n, rfl⟩ := exists_succ hv
  have hleft : v.left?.bind (View.toExprUpTo n) = some e := View.left?_of_shows hv (by simp [h.fits]) h
  have hop : v.toOperator? = some op :=
    View.toOperator?_of_shape hv (by decide) hl (by simp [Shape.tokens_leaf hl.present, h.tokens])
  simp [Red.nodeKind?_of_shape hv.shape, hleft, hop]

theorem binary (h : Shows View.toExprUpTo s e) (hl : IsWord l (.punct op)) (h' : Shows View.toExprUpTo t e') :
    Shows View.toExprUpTo (branch .binaryExpr [s, leaf l, t]) (.binary e op e') := by
  refine ⟨⟨_, _, rfl, rfl⟩, fun v levels hv => ?_⟩
  obtain ⟨n, rfl⟩ := exists_succ hv
  obtain ⟨hleft, hop, hright⟩ := View.sides_of_shows hv (.inl rfl) h hl h'
  simp [Red.nodeKind?_of_shape hv.shape, hleft, hop, hright]

theorem assign (h : Shows View.toExprUpTo s e) (hl : IsWord l (.punct op)) (h' : Shows View.toExprUpTo t e') :
    Shows View.toExprUpTo (branch .assignExpr [s, leaf l, t]) (.assign e op e') := by
  refine ⟨⟨_, _, rfl, rfl⟩, fun v levels hv => ?_⟩
  obtain ⟨n, rfl⟩ := exists_succ hv
  obtain ⟨hleft, hop, hright⟩ := View.sides_of_shows hv (.inr rfl) h hl h'
  simp [Red.nodeKind?_of_shape hv.shape, hleft, hop, hright]

theorem call (h : Shows View.toExprUpTo s e)
    (hcs : List.Forall₂ (Shows View.toExprUpTo) (cs.filter (Shape.fits .expression)) as) :
    Shows View.toExprUpTo (branch .callExpr [s, branch .argList cs]) (.call e as) := by
  refine ⟨⟨_, _, rfl, rfl⟩, fun v levels hv => ?_⟩
  obtain ⟨n, rfl⟩ := exists_succ hv
  have hlist : Category.argList.holds .argList = true := rfl
  have hleft : v.left?.bind (View.toExprUpTo n) = some e := View.left?_of_shows hv (by simp [h.fits]) h
  have hskip : s.fits .argList = false := h.not_fits (by decide)
  have hargs : v.arguments.mapM (View.toExprUpTo n) = some as :=
    View.arguments_of_shows hv (by simp [hskip, hlist]) hcs
  simp [Red.nodeKind?_of_shape hv.shape, hleft, hargs]

theorem member (h : Shows View.toExprUpTo s e) (hl : IsWord l (.punct .dot)) (hl' : IsWord l' (.ident id)) :
    Shows View.toExprUpTo (branch .memberAccessExpr [s, leaf l, leaf l']) (.member e id) := by
  refine ⟨⟨_, _, rfl, rfl⟩, fun v levels hv => ?_⟩
  obtain ⟨n, rfl⟩ := exists_succ hv
  have hdot : l.tokenKind = .punct .dot := hl.kind
  have hword : l'.tokenKind = .ident := hl'.kind
  have htext : l'.text = id := hl'.text
  have hleft : v.left?.bind (View.toExprUpTo n) = some e := View.left?_of_shows hv (by simp [h.fits]) h
  have hname : v.memberName? = some l' := View.memberName?_of_shape hv (.inr rfl)
    (by simp [h.tokens, Shape.tokens_leaf hl.present, Shape.tokens_leaf hl'.present, hdot, hword])
  simp [Red.nodeKind?_of_shape hv.shape, hleft, hname, htext]

theorem index (h : Shows View.toExprUpTo s e) (h' : Shows View.toExprUpTo t e') :
    Shows View.toExprUpTo (branch .indexExpr [s, leaf l, t, leaf r]) (.index e e') := by
  refine ⟨⟨_, _, rfl, rfl⟩, fun v levels hv => ?_⟩
  obtain ⟨n, rfl⟩ := exists_succ hv
  obtain ⟨hleft, hplace⟩ := View.operands_of_shows hv (by simp [h.fits, h'.fits]) h h'
  simp [Red.nodeKind?_of_shape hv.shape, hleft, hplace]

theorem create {ty : Ty} (h : Shows View.toTypeUpTo s ty)
    (hcs : List.Forall₂ (Shows View.toExprUpTo) (cs.filter (Shape.fits .expression)) as) :
    Shows View.toExprUpTo (branch .objectCreationExpr [leaf l, s, branch .argList cs]) (.create ty as) := by
  refine ⟨⟨_, _, rfl, rfl⟩, fun v levels hv => ?_⟩
  obtain ⟨n, rfl⟩ := exists_succ hv
  have hkind : v.kind = .node .objectCreationExpr := Red.kind_of_shape hv.shape
  have hlist : Category.argList.holds .argList = true := rfl
  have htype : v.createdType?.bind View.toType? = some ty := by
    rw [View.createdType?, if_pos hkind]
    exact (part?_eq hv (by simp [h.fits]) h).2
  have hskip : s.fits .argList = false := h.not_fits (by decide)
  have hargs : v.arguments.mapM (View.toExprUpTo n) = some as :=
    View.arguments_of_shows hv (by simp [hskip, hlist]) hcs
  simp [Red.nodeKind?_of_shape hv.shape, htype, hargs]

end Shape.Shows

/-! ## Trees of expressions -/

/-- What the trees of a phrase of expressions are. -/
def Phrase.form : Phrase → Form
  | .primary => .primary
  | .postfixed => .postfixed
  | .prefixed => .prefixed
  | .binary level => .binary level
  | _ => .expression

namespace Ast.Expr

theorem exists_argumentList {as : List Expr}
    (h : ∀ a ∈ as, ∀ L, Spelled L a.words → ∃ s, Yields .expression L [s] ∧ Shows View.toExprUpTo s a)
    {L : List Leaf} (hL : Spelled L (parens (commas (wordsEach as)))) :
    ∃ cs, Yields .argumentList L [branch .argList cs] ∧
      List.Forall₂ (Shows View.toExprUpTo) (cs.filter (Shape.fits .expression)) as := by
  obtain ⟨l, L', r, rfl, hl, hL, hr⟩ := spelled_between hL
  rw [wordsEach_eq_map] at hL
  cases as with
  | nil =>
    obtain rfl := spelled_nil hL
    exact ⟨_, .noArguments hl.kind hr.kind, .nil⟩
  | cons a as =>
    obtain ⟨ss, hyields, hall⟩ :=
      exists_commas (Yields .expression) (Yields .arguments) .argument .nextArgument h hL
    exact ⟨_, .inParens hl.kind hyields hr.kind, by simpa using hall⟩

/-- The words of an expression have one tree, from which the expression is read back. By induction on how the
expression fits. -/
theorem Fits.exists_tree {p : Phrase} {e : Expr} (h : Fits p e) {L : List Leaf} (hL : Spelled L e.words) :
    ∃ s, Yields p.form L [s] ∧ Shows View.toExprUpTo s e := by
  induction h generalizing L with
  | literal =>
    rw [words] at hL
    obtain ⟨l, rfl, hl⟩ := spelled_singleton hL
    have hkind : l.tokenKind = .literal _ := hl.kind
    exact ⟨_, .constant (by simp [hkind, TokenKind.isLiteral]), .literal hl⟩
  | constant hk =>
    rw [words] at hL
    obtain ⟨l, rfl, hl⟩ := spelled_singleton hL
    have hkind : l.tokenKind = .keyword _ := hl.kind
    exact ⟨_, .constant (by rw [hkind, isConstant_of_mem hk, Bool.or_true]), .constant hl⟩
  | name =>
    rw [words] at hL
    obtain ⟨l, rfl, hl⟩ := spelled_singleton hL
    exact ⟨_, .reference hl.kind, .name hl⟩
  | this =>
    rw [words] at hL
    obtain ⟨l, rfl, hl⟩ := spelled_singleton hL
    exact ⟨_, .thisObject hl.kind, .this⟩
  | paren _ ih =>
    rw [words] at hL
    obtain ⟨l, L', r, rfl, hl, hL, hr⟩ := spelled_between hL
    obtain ⟨s, hyields, hshows⟩ := ih hL
    exact ⟨_, .paren hl.kind hyields hr.kind, .paren hshows⟩
  | create _ _ ih =>
    rw [words] at hL
    obtain ⟨l, T, rfl, hl, hL⟩ := spelled_cons hL
    obtain ⟨L₁, L₂, rfl, htype, hL⟩ := spelled_append hL
    obtain ⟨s, hyields, hshows⟩ := Ty.exists_tree htype
    obtain ⟨cs, hyields', hall⟩ := exists_argumentList (fun a ha L => ih a ha) hL
    exact ⟨_, .creation hl.kind hyields hyields', .create hshows hall⟩
  | operand _ ih =>
    obtain ⟨s, hyields, hshows⟩ := ih hL
    exact ⟨s, .operand hyields, hshows⟩
  | call _ _ ih ih' =>
    rw [words] at hL
    obtain ⟨L₁, L₂, rfl, hcallee, hL⟩ := spelled_append hL
    obtain ⟨s, hyields, hshows⟩ := ih hcallee
    obtain ⟨cs, hyields', hall⟩ := exists_argumentList (fun a ha L => ih' a ha) hL
    exact ⟨_, .call hyields hyields', .call hshows hall⟩
  | member _ _ ih =>
    rw [words] at hL
    obtain ⟨L₁, T, rfl, hobject, hL⟩ := spelled_append hL
    obtain ⟨d, l, rfl, hd, hl⟩ := spelled_pair hL
    obtain ⟨s, hyields, hshows⟩ := ih hobject
    exact ⟨_, .memberAccess hyields hd.kind hl.kind, .member hshows hd hl⟩
  | index _ _ ih ih' =>
    rw [words] at hL
    obtain ⟨L₁, T, rfl, hobject, hL⟩ := spelled_append hL
    obtain ⟨l, L₂, r, rfl, hl, hplace, hr⟩ := spelled_between hL
    obtain ⟨s, hyields, hshows⟩ := ih hobject
    obtain ⟨t, hyields', hshows'⟩ := ih' hplace
    exact ⟨_, .index hyields hl.kind hyields' hr.kind, .index hshows hshows'⟩
  | postfixed _ hop ih =>
    rw [words] at hL
    obtain ⟨L', l, rfl, hL, hl⟩ := spelled_concat hL
    obtain ⟨s, hyields, hshows⟩ := ih hL
    exact ⟨_, .postfixOperator hyields hop hl.kind, .postfixed hshows hl⟩
  | unary _ ih =>
    obtain ⟨s, hyields, hshows⟩ := ih hL
    exact ⟨s, .unary hyields, hshows⟩
  | prefixed hop _ ih =>
    rw [words] at hL
    obtain ⟨l, L', rfl, hl, hL⟩ := spelled_cons hL
    obtain ⟨s, hyields, hshows⟩ := ih hL
    exact ⟨_, .prefixOperator hop hl.kind hyields, .prefixed hl hshows⟩
  | tightest _ ih =>
    obtain ⟨s, hyields, hshows⟩ := ih hL
    exact ⟨s, .tightest hyields, hshows⟩
  | tighter _ ih =>
    obtain ⟨s, hyields, hshows⟩ := ih hL
    exact ⟨s, .tighter hyields, hshows⟩
  | binary _ hop _ ih ih' =>
    rw [words] at hL
    obtain ⟨L₁, T, rfl, hleft, hL⟩ := spelled_append hL
    obtain ⟨l, L₂, rfl, hl, hright⟩ := spelled_cons hL
    obtain ⟨s, hyields, hshows⟩ := ih hleft
    obtain ⟨t, hyields', hshows'⟩ := ih' hright
    exact ⟨_, .operation hyields hop hl.kind hyields', .binary hshows hl hshows'⟩
  | value _ ih =>
    obtain ⟨s, hyields, hshows⟩ := ih hL
    exact ⟨s, .value hyields, hshows⟩
  | assign _ hop _ ih ih' =>
    rw [words] at hL
    obtain ⟨L₁, T, rfl, htarget, hL⟩ := spelled_append hL
    obtain ⟨l, L₂, rfl, hl, hvalue⟩ := spelled_cons hL
    obtain ⟨s, hyields, hshows⟩ := ih htarget
    obtain ⟨t, hyields', hshows'⟩ := ih' hvalue
    exact ⟨_, .assignment hyields hop hl.kind hyields', .assign hshows hl hshows'⟩

end Ast.Expr

end IncrementalSyntax

import IncrementalSyntax.Proofs.Grammar.StepsMembers
import IncrementalSyntax.Proofs.Tree.Session

/-!
# How the nodes of a tree are made

The parser puts a node around operands only if they are tight enough for its operator, and it skips only tokens that
no list around them can use. Both can be read off the finished tree, where the lists around a node are those of the
nodes that it lies in. As every step of the parser makes such nodes, and a node that is used again has no skipped
tokens in it, all trees of a session consist of such nodes.

## Main definitions

* `Green.Skipped`: the children of a node of skipped tokens
* `Green.Made`: the children of any node
* `Green.Formed`: elements in a row all of whose nodes are made so
* `Supply.Forms`: a source that offers only such nodes

## Main results

* `Parse.Steps.formed`: steps make such nodes
* `Green.Formed.of_annotated`: an annotation does not matter
* `Session.formed`: the trees of a session
-/

namespace IncrementalSyntax

/-- A leaf as it was scanned carries no annotations. -/
theorem Leaf.unannotated_of_bare {l : Leaf} (h : l.bare = l) : l.unannotated = l := by
  have hnil : l.annotations = [] := (congrArg Leaf.annotations h).symm
  rw [unannotated, ← hnil]

namespace Green

/-- The list that an element is made of. -/
def list? (g : Green) : Option ListContext := g.nodeKind?.bind NodeKind.list?

/-- **Skipped.** Tokens that no list around them can use, up to one that is not skipped. They are as they were scanned,
but the first one has a diagnostic. -/
def Skipped (lists : List ListContext) (next : TokenKind) (cs : List Green) : Prop :=
  ∃ (ts : List Token) (l : Leaf) (rest : List Leaf), cs = ts.map .token ∧
    ts.map (·.leaf.unannotated) = Parse.unexpected l :: rest ∧
    (∀ k ∈ l :: rest, k.bare = k ∧ k.missing = false ∧ ListContext.stops lists k.tokenKind = false) ∧
    ListContext.stops lists next = true

/-- The first of the skipped tokens has a diagnostic. -/
theorem Skipped.flagged {lists : List ListContext} {next : TokenKind} {cs : List Green} (h : Skipped lists next cs) :
    Flagged cs := by
  obtain ⟨ts, l, rest, rfl, hleaves, -⟩ := h
  obtain ⟨t, ts, rfl, ht, -⟩ := List.map_eq_cons_iff.1 hleaves
  have hdiagnostics : t.leaf.unannotated.diagnostics = (Parse.unexpected l).diagnostics := congrArg Leaf.diagnostics ht
  refine ⟨t.leaf, by simp, fun hnil => ?_⟩
  rw [show t.leaf.unannotated.diagnostics = [] from hnil] at hdiagnostics
  simp [Parse.unexpected, Leaf.withDiagnostic] at hdiagnostics

/-- **Made.** The children of a node of a kind, as the parser puts them together. -/
def Made (lists : List ListContext) (next : TokenKind) (kind : NodeKind) (cs : List Green) : Prop :=
  Grouped kind cs ∧ (kind = .skippedTokens → Skipped lists next cs)

/-- **Formed.** Elements in a row, all of whose nodes are made as the parser makes them. Some lists stand around the
elements, and a token of some kind comes behind them. -/
inductive Formed : List ListContext → List Green → TokenKind → Prop
  | nil {lists : List ListContext} {next : TokenKind} : Formed lists [] next
  | token {lists : List ListContext} {next : TokenKind} {t : Token} {ds : List Green} (hds : Formed lists ds next) :
      Formed lists (.token t :: ds) next
  | node {lists : List ListContext} {next : TokenKind} {h : Header} {cs ds : List Green}
      (hmade : ∀ kind, (node h cs).nodeKind? = some kind → Made lists (firstKind ds next) kind cs)
      (hcs : Formed ((node h cs).list?.toList ++ lists) cs (firstKind ds next)) (hds : Formed lists ds next) :
      Formed lists (.node h cs :: ds) next

namespace Formed

variable {lists lists' : List ListContext} {next next' : TokenKind} {as bs cs : List Green} {g : Green}

theorem tokens (ts : List Token) : Formed lists (ts.map .token) next := by
  induction ts with
  | nil => exact .nil
  | cons t ts ih => exact .token ih

theorem append (ha : Formed lists as (firstKind bs next)) (hb : Formed lists bs next) :
    Formed lists (as ++ bs) next := by
  induction as with
  | nil => exact hb
  | cons a as ih =>
    cases ha with
    | token hds => exact .token (ih hds)
    | node hmade hcs hds =>
      have hfirst := firstKind_append as bs next
      exact .node (hfirst ▸ hmade) (hfirst ▸ hcs) (ih hds)

/-- One of some elements, in front of those behind it. -/
theorem getElem (h : Formed lists cs next) {i : Nat} (hi : cs[i]? = some g) :
    Formed lists [g] (firstKind (cs.drop (i + 1)) next) := by
  induction cs generalizing i with
  | nil => simp at hi
  | cons c cs ih =>
    cases i with
    | zero =>
      obtain rfl : c = g := by simpa using hi
      cases h with
      | token => exact .token .nil
      | node hmade hcs => exact .node hmade hcs .nil
    | succ i =>
      cases h with
      | token hds => exact ih hds (by simpa using hi)
      | node _ _ hds => exact ih hds (by simpa using hi)

/-- What stands below an element. -/
theorem children (h : Formed lists [g] next) : Formed (g.list?.toList ++ lists) g.children next := by
  cases h with
  | token => exact .nil
  | node _ hcs => exact hcs

/-- A node around elements that are formed. -/
theorem enclose {id : Id} {kind : NodeKind} (hmade : Made lists next kind cs)
    (hcs : Formed (kind.list?.toList ++ lists) cs next) : Formed lists [.ofChildren id (.node kind) cs] next := by
  refine .node (fun k hk => ?_) hcs .nil
  obtain rfl : kind = k := by simpa [nodeKind?] using hk
  exact hmade

/-- Every element of a tree is formed where it stands. -/
theorem of_sub (h : Formed lists [g] next) {s : Green} (hs : Sub s g) :
    ∃ lists' next', Formed lists' [s] next' := by
  induction hs generalizing lists next with
  | self => exact ⟨lists, next, h⟩
  | child hc _ ih =>
    obtain ⟨i, hi⟩ := List.mem_iff_getElem?.1 hc
    exact ih (h.children.getElem hi)

/-- What stands below a node is made as its kind says. -/
theorem made (h : Formed lists [g] next) {kind : NodeKind} (hkind : g.nodeKind? = some kind) :
    Made lists next kind g.children := by
  cases h with
  | token => cases hkind
  | node hmade => exact hmade kind hkind

/-- Without diagnostics there are no skipped tokens, so it does not matter where the elements stand. -/
theorem of_not_flagged (h : Formed lists cs next) (hflagged : ¬ Flagged cs) : Formed lists' cs next' := by
  induction h generalizing lists' next' with
  | nil => exact .nil
  | token _ ih => exact .token (ih fun hf => hflagged (flagged_cons.2 (.inr hf)))
  | @node lists next h cs ds hmade _ _ ihcs ihds =>
    have hcs : ¬ Flagged cs := fun hf => hflagged (flagged_cons.2 (.inl (flagged_node.2 hf)))
    -- only skipped tokens depend on where they stand, and they would carry a diagnostic
    refine .node (fun kind hk => ⟨(hmade kind hk).1, fun hskipped => ?_⟩) (ihcs hcs)
      (ihds fun hf => hflagged (flagged_cons.2 (.inr hf)))
    exact absurd ((hmade kind hk).2 hskipped).flagged hcs

end Formed

/-! ## Annotated copies -/

/-- How tight an element is can be read off its children. -/
theorem tightness_congr {g g' : Green} (hkind : g'.nodeKind? = g.nodeKind?)
    (hchildren : g'.children.map tokenKind? = g.children.map tokenKind?) : g'.tightness = g.tightness := by
  have hop : g'.children[1]?.bind tokenKind? = g.children[1]?.bind tokenKind? := by
    have h := congrArg (fun ks : List (Option TokenKind) => ks[1]?.join) hchildren
    simpa [Option.join, Option.bind_map] using h
  unfold tightness binaryPrecedence?
  rw [hkind, hop]

/-- The leaf of a token without its annotations. -/
def plainLeaf? : Green → Option Leaf
  | token t => some t.leaf.unannotated
  | node .. => none

theorem tokenKind?_eq (g : Green) : g.tokenKind? = g.plainLeaf?.map Leaf.tokenKind := by cases g <;> rfl

/-- What is skipped can be read off the leaves. -/
theorem Skipped.congr {lists : List ListContext} {next : TokenKind} {cs ds : List Green} (h : Skipped lists next cs)
    (hds : ds.map plainLeaf? = cs.map plainLeaf?) : Skipped lists next ds := by
  obtain ⟨ts, l, rest, rfl, hleaves, hrest⟩ := h
  have htokens : ∀ {ds : List Green} {ts : List Token}, ds.map plainLeaf? = (ts.map Green.token).map plainLeaf? →
      ∃ us : List Token, ds = us.map .token ∧ us.map (·.leaf.unannotated) = ts.map (·.leaf.unannotated) := by
    intro ds
    induction ds with
    | nil =>
      rintro (_ | ⟨t, ts⟩) h
      · exact ⟨[], rfl, rfl⟩
      · cases h
    | cons d ds ih =>
      rintro (_ | ⟨t, ts⟩) h
      · cases h
      obtain ⟨hd, hrest⟩ := List.cons.inj h
      obtain ⟨us, rfl, hus⟩ := ih hrest
      cases d with
      | node => cases hd
      | token u => exact ⟨u :: us, rfl, by rw [List.map_cons, List.map_cons, hus, Option.some.inj hd]⟩
  obtain ⟨us, rfl, hus⟩ := htokens hds
  exact ⟨us, l, rest, rfl, hus.trans hleaves, hrest⟩

theorem exists_of_plainLeaf?_eq {d : Green} {t : Token} (h : d.plainLeaf? = (token t).plainLeaf?) :
    ∃ u, d = .token u ∧ u.leaf.tokenKind = t.leaf.tokenKind := by
  cases d with
  | node => cases h
  | token u =>
    have hkind : u.leaf.unannotated.tokenKind = t.leaf.unannotated.tokenKind :=
      congrArg Leaf.tokenKind (Option.some.inj h)
    exact ⟨u, rfl, hkind⟩

/-- Whether operands are grouped can be read off the tokens among the children and off how tight the others are. -/
theorem Grouped.congr {kind : NodeKind} {cs ds : List Green} (h : Grouped kind cs)
    (htokens : ds.map plainLeaf? = cs.map plainLeaf?) (htight : ds.map tightness = cs.map tightness) :
    Grouped kind ds := by
  cases kind
  case assignExpr =>
    obtain ⟨left, op, right, rfl, hop, hleft⟩ := h
    obtain ⟨left', op', right', rfl⟩ : ∃ a b c, ds = [a, b, c] :=
      List.length_eq_three.1 (by simpa using congrArg List.length htight)
    simp only [List.map_cons, List.cons.injEq] at htokens htight
    obtain ⟨u, rfl, hu⟩ := exists_of_plainLeaf?_eq htokens.2.1
    exact ⟨left', u, right', rfl, hu ▸ hop, htight.1 ▸ hleft⟩
  case binaryExpr =>
    obtain ⟨left, op, right, precedence, rfl, hop, hleft, hright⟩ := h
    obtain ⟨left', op', right', rfl⟩ : ∃ a b c, ds = [a, b, c] :=
      List.length_eq_three.1 (by simpa using congrArg List.length htight)
    simp only [List.map_cons, List.cons.injEq] at htokens htight
    obtain ⟨u, rfl, hu⟩ := exists_of_plainLeaf?_eq htokens.2.1
    exact ⟨left', u, right', precedence, rfl, hu ▸ hop, htight.1 ▸ hleft, htight.2.2.1 ▸ hright⟩
  case prefixExpr =>
    obtain ⟨op, operand, rfl, hop, hoperand⟩ := h
    obtain ⟨op', operand', rfl⟩ : ∃ a b, ds = [a, b] :=
      List.length_eq_two.1 (by simpa using congrArg List.length htight)
    simp only [List.map_cons, List.cons.injEq] at htokens htight
    obtain ⟨u, rfl, hu⟩ := exists_of_plainLeaf?_eq htokens.1
    exact ⟨u, operand', rfl, hu ▸ hop, htight.2.1 ▸ hoperand⟩
  case postfixExpr | callExpr | memberAccessExpr | indexExpr =>
    obtain ⟨target, rest, rfl, htarget⟩ := h
    obtain ⟨target', rest', rfl, hsame, -⟩ := List.map_eq_cons_iff.1 htight
    exact ⟨target', rest', rfl, hsame ▸ htarget⟩
  case incompleteMember =>
    obtain ⟨t, ht, hmissing⟩ := h
    have hleaf : some t.leaf.unannotated ∈ ds.map plainLeaf? := htokens ▸ List.mem_map.2 ⟨_, ht, rfl⟩
    obtain ⟨d, hd, hplain⟩ := List.mem_map.1 hleaf
    cases d with
    | node => cases hplain
    | token u => exact ⟨u, hd, (congrArg Leaf.missing (Option.some.inj hplain)).trans hmissing⟩
  all_goals trivial

namespace Annotated

variable {g g' : Green}

theorem plainLeaf?_eq (h : Annotated g g') : g'.plainLeaf? = g.plainLeaf? := by
  cases h with
  | here g id a => cases g <;> rfl
  | inside => rfl

theorem tightness_eq (h : Annotated g g') : g'.tightness = g.tightness := by
  refine tightness_congr h.nodeKind?_eq ?_
  cases h with
  | here g id a => cases g <;> rfl
  | @inside h cs i c c' id hc ha =>
    show (cs.set i c').map tokenKind? = cs.map tokenKind?
    exact map_set _ hc (by rw [tokenKind?_eq, tokenKind?_eq, ha.plainLeaf?_eq])

theorem list?_eq (h : Annotated g g') : g'.list? = g.list? := by rw [list?, list?, h.nodeKind?_eq]

end Annotated

theorem Made.set {lists : List ListContext} {next : TokenKind} {kind : NodeKind} {cs : List Green} {i : Nat}
    {c c' : Green} (h : Made lists next kind cs) (hc : cs[i]? = some c) (ha : Annotated c c') :
    Made lists next kind (cs.set i c') where
  left := h.1.congr (Annotated.map_set _ hc ha.plainLeaf?_eq) (Annotated.map_set _ hc ha.tightness_eq)
  right hskipped := (h.2 hskipped).congr (Annotated.map_set _ hc ha.plainLeaf?_eq)

/-- Elements stay formed if one of them is replaced by one that is formed in its place and has the same first token. -/
theorem Formed.set {lists : List ListContext} {next : TokenKind} {cs : List Green} {i : Nat} {c c' : Green}
    (h : Formed lists cs next) (hc : cs[i]? = some c) (ha : Annotated c c')
    (hc' : ∀ next, Formed lists [c] next → Formed lists [c'] next) : Formed lists (cs.set i c') next := by
  induction cs generalizing i with
  | nil => cases hc
  | cons d ds ih =>
    cases i with
    | zero =>
      obtain rfl : d = c := by simpa using hc
      have hd := hc' _ (h.getElem (i := 0) rfl)
      have hds : Formed lists ds next := by cases h <;> assumption
      have happend : Formed lists ([c'] ++ ds) next := append hd hds
      exact happend
    | succ i =>
      have hi : ds[i]? = some c := by simpa using hc
      cases h with
      | token hds => exact .token (ih hds hi)
      | node hmade hcs hds =>
        exact .node (ha.firstKind_set hi next ▸ hmade) (ha.firstKind_set hi next ▸ hcs) (ih hds hi)

/-- An annotated copy is formed like the original. -/
theorem Formed.of_annotated {lists : List ListContext} {next : TokenKind} {g g' : Green} (ha : Annotated g g')
    (h : Formed lists [g] next) : Formed lists [g'] next := by
  induction ha generalizing lists next with
  | here g id a =>
    cases g with
    | token t => exact .token .nil
    | node hd cs =>
      cases h with
      | node hmade hcs =>
        have hkind := (Annotated.here (.node hd cs) id a).nodeKind?_eq
        have hlist := (Annotated.here (.node hd cs) id a).list?_eq
        exact .node (fun kind hk => hmade kind (hkind ▸ hk)) (hlist ▸ hcs) .nil
  | @inside hd cs i c c' id hc ha ih =>
    cases h with
    | node hmade hcs =>
      have hkind := (Annotated.inside (h := hd) id hc ha).nodeKind?_eq
      have hlist := (Annotated.inside (h := hd) id hc ha).list?_eq
      refine .node (fun kind hk => (hmade kind (hkind ▸ hk)).set hc ha) ?_ .nil
      exact hlist ▸ hcs.set hc ha fun next => ih

end Green

/-! ## Steps -/

variable {version : LanguageVersion} {σ : Type} [TokenSource σ] {S : Supply version σ}

/-- **Forms.** The tokens of the source are as they were scanned, and the nodes that it offers are formed wherever they
stand. -/
structure Supply.Forms (S : Supply version σ) : Prop where
  bare : ∀ {s}, S.Ok s → ∀ l ∈ S.upcoming s, l.bare = l
  offered : ∀ {s kinds g s'}, S.Ok s → TokenSource.reuse? kinds s = some (g, s') →
    ∀ lists next, Green.Formed lists [g] next

namespace Parse

open Green hiding id

variable {p p' : Parser σ} {lists lists' : List ListContext} {es : List Green}

/-- What is emitted begins with the token that was at the front before. -/
theorem Kept.firstKind (h : Kept S p p') (hp : Ready S p) (hout : p'.out = p.out ++ es) :
    firstKind es (front S p') = front S p := by
  obtain ⟨taken, htaken, hscanned, -⟩ := h.taken
  rw [hout, scannedAll_append] at hscanned
  have hfront := firstKind_frontUpTo htaken (List.append_cancel_left hscanned) (Nat.zero_le _)
  rwa [frontUpTo, frontUpTo, if_neg (S.not_length_le_zero h.ready.ok), if_neg (S.not_length_le_zero hp.ok)] at hfront

/-- What is emitted stands behind elements that are formed in front of it. -/
theorem Kept.formed (h : Kept S p p') (hp : Ready S p) (hout : p'.out = p.out ++ es)
    (hes : Formed lists es (front S p')) (hformed : Formed lists p.out (front S p)) :
    Formed lists p'.out (front S p') := by
  rw [hout]
  exact .append ((h.firstKind hp hout).symm ▸ hformed) hes

/-- The children of a node of skipped tokens. -/
theorem skipped_of_spec (hS : S.Forms) (hp : Ready S p) {id : Id} {l : Leaf} {rest : List Token} {s : σ}
    (hup : S.upcoming p.source = l :: rest.map Token.leaf ++ S.upcoming s)
    (hskipped : ∀ k ∈ l :: rest.map Token.leaf, ListContext.stops p.contexts k.tokenKind = false)
    (hstops : ListContext.stops p.contexts (frontKind (S.upcoming s)) = true) :
    Skipped p.contexts (frontKind (S.upcoming s)) (.token ⟨id, unexpected l⟩ :: rest.map .token) := by
  have hmem : ∀ k ∈ l :: rest.map Token.leaf, k ∈ S.upcoming p.source := fun k hk =>
    hup ▸ List.mem_append_left _ hk
  have hplain : ∀ k ∈ l :: rest.map Token.leaf, k.bare = k := fun k hk => hS.bare hp.ok k (hmem k hk)
  refine ⟨⟨id, unexpected l⟩ :: rest, l, rest.map Token.leaf, rfl, ?_, fun k hk => ?_, hstops⟩
  · have hfirst : (unexpected l).unannotated = unexpected l :=
      congrArg unexpected (Leaf.unannotated_of_bare (hplain l List.mem_cons_self))
    rw [List.map_cons, hfirst]
    refine congrArg _ (List.map_congr_left fun t ht => Leaf.unannotated_of_bare ?_)
    exact hplain _ (List.mem_cons_of_mem _ (List.mem_map_of_mem ht))
  · exact ⟨hplain k hk, S.missing_eq_false hp.ok k (hmem k hk), hskipped k hk⟩

/-- **Steps make nodes that are formed.** -/
theorem Steps.formed (hS : S.Forms) (h : Steps S lists p lists' p') (hp : Ready S p)
    (hformed : Formed lists p.out (front S p)) : Formed lists' p'.out (front S p') := by
  induction h with
  | refl => exact hformed
  | trans h h' ih ih' => exact ih' (h.kept hp).ready (ih hp hformed)
  | bump h => exact (Kept.bump hp h).formed hp rfl (.token .nil) hformed
  | @missing _ p kind code hcode =>
    have hstep : Steps S [] p [] (Parse.missing kind code p).2 := .missing kind hcode
    have hk := hstep.kept hp
    rw [missing_apply] at hk ⊢
    exact hk.formed hp rfl (.token .nil) hformed
  | reuse hkinds h => exact (Kept.reuse hp hkinds h).formed hp rfl (hS.offered hp.ok h _ _) hformed
  | @skip p =>
    have hk := (Steps.skip (S := S) (p := p)).kept hp
    -- the open lists are those around the scope here, so they are those around the node too
    rcases skipToRecovery_spec hp with ⟨-, heq⟩ | ⟨id, id', l, rest, s, heq, hup, hskipped, hstops⟩
    · rwa [heq]
    · rw [heq] at hk ⊢
      refine hk.formed hp rfl (.enclose ⟨trivial, fun _ => ?_⟩ ?_) hformed
      · exact skipped_of_spec hS hp hup hskipped hstops
      · exact .token (.tokens rest)
  | @enclose lists p kind hskipped hif hgrouped =>
    have hfront := (front_enclose hp kind).1
    rw [hfront]
    exact .enclose ⟨hgrouped, fun hk => absurd hk hskipped⟩ hformed
  | @scope lists lists' p p' h ih =>
    have hready : Ready S { p with out := [] } := ⟨hp.ok, hp.version⟩
    exact ((h.kept hready).scope).formed hp rfl (ih hready .nil) hformed
  | within _ ih => exact ih ⟨hp.ok, hp.version⟩ hformed

end Parse

open Green hiding id

/-- All nodes of a parse are formed. -/
theorem parse_formed (hS : S.Forms) {s : σ} (h : S.Ok s) (entry : EntryPoint) :
    Formed [] [(parse version entry s).root] .eof := by
  have hformed := (Parse.steps_atEnd h entry).formed hS (ready_start h) .nil
  rw [front_atEnd h entry] at hformed
  rw [parse_eq]
  refine .enclose ⟨?_, fun hskipped => ?_⟩ (.append ?_ (.token .nil))
  · cases entry <;> exact trivial
  · cases entry <;> cases hskipped
  · rw [firstKind_next_atEnd h, List.append_nil]
    exact hformed

/-- The supply of a cursor whose old tree is formed. -/
theorem Supply.Forms.ofCursor {symbols : List Text} {text : Text} {set : ChangeSet} {reuse : Option Reuse}
    (hsound : ∀ r, reuse = some r → r.old.root.SoundWherePlain version)
    (hformed : ∀ r, reuse = some r → Formed [] [r.old.root] .eof) :
    (Supply.ofCursor version symbols text set reuse hsound).Forms where
  bare := by
    intro c hc l hl
    obtain ⟨c', t', rfl⟩ := exists_scan_of_mem_tokenizeRest hl
    exact bare_scan _ _
  offered := by
    rintro c kinds g c' ⟨ls, hat⟩ hg lists next
    obtain ⟨r, hr, ⟨-, hsub, -⟩, -⟩ := hat.reuseNode? hg
    obtain ⟨lists', next', hsome⟩ := (hformed r hr).of_sub hsub
    -- the old node stood in other lists, but it is offered only without diagnostics
    have hflagged := ((Supply.ofCursor version symbols text set reuse hsound).reuse ⟨ls, hat⟩ hg).2.2.2.2.1
    exact hsome.of_not_flagged hflagged

/-- **All nodes of all trees of a session are formed.** -/
theorem Session.formed {allowed : Text → ChangeSet → Prop} {w : Workspace} {trees : List SyntaxTree}
    {made : List Snapshot} (h : Session allowed w trees made) : ∀ t ∈ trees, Formed [] [t.root] .eof := by
  refine h.forall_trees (P := fun t => Formed [] [t.root] .eof) ?_ fun t g _ ht hcopy => ht.of_annotated hcopy
  intro snapshot options entry set reuse cursor hat hsound hold
  have hformed : ∀ r, reuse = some r → Formed [] [r.old.root] .eof := by
    intro r hr
    obtain ⟨t, ht, heq⟩ := hold r hr
    rw [heq]
    exact ht
  have hforms : (Supply.ofCursor options.version options.symbols snapshot.text set reuse hsound).Forms :=
    .ofCursor hsound hformed
  exact parse_formed hforms ⟨[], hat⟩ entry

end IncrementalSyntax

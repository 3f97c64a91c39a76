import IncrementalSyntax.Proofs.Grammar.Statements
import IncrementalSyntax.Proofs.Grammar.Types
import IncrementalSyntax.Proofs.Stream.Slots
import IncrementalSyntax.Proofs.Stream.Supply

/-!
# Looking ahead in slots

Whether a statement declares variables the parser finds out by passing over a type. It does so in the buffer itself and
goes back by the index alone, so the slots that were filled on the way stay. Looking ahead tells the same as the tokens
to come do, and the slots that stay show nowhere: if a parse looks ahead in this way wherever it has to, its result is
the same as if looking ahead left nothing behind, although old nodes may take the place of slots that were filled.

## Main definitions

* `Parse.StartsDeclaration`: the tokens in front of which a declaration of variables is read
* `Parse.lookAhead`: the result of an action that goes back by the index of the slot at the front
* `Slots.Behind`: slots with more of them filled, and an index further on
* `Parse.rootInnerWith`: what stands below the root, if declarations are told in a given way

## Main results

* `Parse.statement_out`: which statements declare variables
* `Parse.lookAhead_apply`: looking ahead fills slots and does nothing else
* `Parse.speculation_spec`: what looking ahead and reading have to do with each other
-/

namespace IncrementalSyntax

namespace Parse

open Green hiding id

/-! ## Declarations -/

/-- **Starts a declaration.** A predefined type comes, or a name with any number of segments, any number of pairs of
brackets and an identifier behind them. -/
inductive StartsDeclaration : List TokenKind → Prop
  | builtin (b : Builtin) (rest : List TokenKind) : StartsDeclaration (.builtin b :: rest)
  | named (segments pairs : Nat) (rest : List TokenKind) :
      StartsDeclaration (.ident :: ((List.replicate segments [.punct .dot, .ident]).flatten ++
        ((List.replicate pairs [.punct .lBracket, .punct .rBracket]).flatten ++ .ident :: rest)))

/-- It depends on the token behind the longest type. -/
theorem TypeAhead.startsDeclaration_iff {w L : List Leaf} (h : TypeAhead w L) :
    StartsDeclaration ((w ++ L).map Leaf.tokenKind) ↔ (frontKind (w ++ L)).isBuiltin = true ∨ frontKind L = .ident := by
  cases h with
  | @builtin l b w L hl hw hL => simp [hl, StartsDeclaration.builtin, TokenKind.isBuiltin]
  | @named l v w L hl hv hvL hw hL =>
    have hbuiltin : (frontKind (l :: (v ++ w) ++ L)).isBuiltin = false := by simp [hl, TokenKind.isBuiltin]
    rw [hbuiltin, List.cons_append, List.append_assoc, List.map_cons, hl]
    constructor
    · intro h
      right
      generalize hkinds : TokenKind.ident :: (v ++ (w ++ L)).map Leaf.tokenKind = kinds at h
      cases h with
      | builtin => cases hkinds
      | named segments pairs rest =>
        -- the tokens are parted as their kinds are, and in this way only
        obtain ⟨v', u, hvu, hv', hu⟩ := List.map_eq_append_iff.1 (List.cons.inj hkinds).2
        obtain ⟨w', L', hwL', hw', hL'⟩ := List.map_eq_append_iff.1 hu
        obtain ⟨i, L'', rfl, hi, -⟩ := List.map_eq_cons_iff.1 hL'
        have hv' : Segments v' := pairs_iff.2 ⟨segments, hv'⟩
        have hw' : Brackets w' := pairs_iff.2 ⟨pairs, hw'⟩
        have hdot : ¬ AtPair (.punct .dot) .ident u := by
          rw [hwL']
          rintro ⟨hdot, -⟩
          cases hw' with
          | nil => simp [hi] at hdot
          | cons ha _ _ => simp [ha] at hdot
        have hbracket : ¬ AtPair (.punct .lBracket) (.punct .rBracket) (i :: L'') := by simp [hi]
        obtain ⟨-, hbehind⟩ := hv.unique hv' hvL hdot hvu
        obtain ⟨-, rfl⟩ := hw.unique hw' hL hbracket (hbehind.trans hwL')
        exact hi
    · rintro (h | h)
      · cases h
      cases L with
      | nil => cases h
      | cons i L =>
        obtain ⟨segments, hsegments⟩ := pairs_iff.1 hv
        obtain ⟨pairs, hpairs⟩ := pairs_iff.1 hw
        have hi : i.tokenKind = .ident := h
        rw [List.map_append, List.map_append, List.map_cons, hsegments, hpairs, hi]
        exact .named segments pairs _

variable {version : LanguageVersion} {σ : Type} [TokenSource σ] {S : Supply version σ} {p : Parser σ}

theorem passDeclared_fst (hp : Ready S p) {w L : List Leaf} (hup : S.upcoming p.source = w ++ L) (h : TypeAhead w L) :
    (passDeclared p).1 = decide (frontKind L = .ident) := by
  obtain ⟨s, hskip, hs, -, hups⟩ := skipType_of_typeAhead (I := fun _ => True) (fun _ _ => id) hp trivial hup h
  show ((if (skipType p).1 = true then isAt .ident else Pure.pure false : Parse σ Bool) (skipType p).2).1 = _
  rw [hskip, if_pos rfl, ← hups, S.frontKind_upcoming hs]
  rfl

/-- What a statement at a type or a name finds out about the tokens to come. -/
theorem startsDeclaration_iff (hp : Ready S p) : StartsDeclaration ((S.upcoming p.source).map Leaf.tokenKind) ↔
    (front S p).isBuiltin = true ∨ front S p = .ident ∧ (atLocalDeclaration p).1 = true := by
  have hlook : (atLocalDeclaration p).1 = (passDeclared p).1 := rfl
  rw [hlook, front]
  cases h : (frontKind (S.upcoming p.source)).startsType with
  | true =>
    obtain ⟨w, L, hup, htype⟩ := exists_typeAhead h
    rw [passDeclared_fst hp hup htype, hup, htype.startsDeclaration_iff]
    cases htype <;> simp_all [TokenKind.isBuiltin]
  | false =>
    -- neither kind of declaration starts here
    obtain ⟨l, rest, hup⟩ := List.exists_cons_of_ne_nil (S.upcoming_ne_nil hp.ok)
    rw [hup, frontKind_cons] at h ⊢
    have hneither : l.tokenKind.isBuiltin = false ∧ l.tokenKind ≠ .ident := by
      cases hk : l.tokenKind <;> simp_all [TokenKind.startsType, TokenKind.isBuiltin]
    refine iff_of_false (fun hstarts => ?_) (by simp [hneither])
    generalize hkinds : (l :: rest).map Leaf.tokenKind = kinds at hstarts
    cases hstarts with
    | builtin b => simp [(List.cons.inj hkinds).1, TokenKind.isBuiltin] at hneither
    | named => exact hneither.2 (List.cons.inj hkinds).1

/-- One node is emitted for a statement, and its kind tells whether variables are declared. -/
theorem statementAt_out {σ : Type} [TokenSource σ] (i : Parse σ Unit) (k : TokenKind) (p : Parser σ) :
    ∃ g, (statementAt i k p).2.out = p.out ++ [g] ∧ (g.nodeKind? = some .localDeclStmt ↔
      k.isBuiltin = true ∨ k = .ident ∧ (atLocalDeclaration p).1 = true) := by
  have hnode : ∀ (kind : NodeKind) (m : Parse σ Unit) (q : Prop), (kind = .localDeclStmt ↔ q) →
      ∃ g, (node kind m p).2.out = p.out ++ [g] ∧ (g.nodeKind? = some .localDeclStmt ↔ q) := by
    intro kind m q hq
    refine ⟨_, congrArg (·.2.out) (node_apply kind m p), ?_⟩
    exact Option.some_inj.trans hq
  unfold statementAt
  split
  case h_9 =>
    show ∃ g, ((if (atLocalDeclaration p).1 = true then localDeclaration
      else expressionStatement : Parse σ Unit) p).2.out = p.out ++ [g] ∧ _
    split
    · next h => exact hnode _ _ _ (by simp [h])
    · next h => exact hnode _ _ _ (by simp [h, TokenKind.isBuiltin])
  case h_10 hbuiltin hident =>
    refine hnode _ _ _ (iff_of_false (by decide) ?_)
    rintro (h | ⟨h, -⟩)
    · cases k <;> simp_all [TokenKind.isBuiltin]
    · exact hident h
  all_goals exact hnode _ _ _ (by simp [TokenKind.isBuiltin])

/-- **Declarations.** Where no old statement is used again one node is emitted, and it declares variables just if the
tokens to come start a declaration. -/
theorem statement_out (hp : Ready S p) (hreuse : TokenSource.reuse? NodeKind.isStatement p.source = none) :
    ∃ g, (statement p).2.out = p.out ++ [g] ∧
      (g.nodeKind? = some .localDeclStmt ↔ StartsDeclaration ((S.upcoming p.source).map Leaf.tokenKind)) := by
  have hbody : statement p = statementBody (statementUpTo (TokenSource.remaining p.source)) p := by
    show reuseOr NodeKind.isStatement _ p = _
    rw [reuseOr, hreuse]
    rfl
  have hat : statementBody (statementUpTo (TokenSource.remaining p.source)) p =
      statementAt (statementUpTo (TokenSource.remaining p.source)) (front S p) p := by
    rw [front, S.frontKind_upcoming hp.ok]
    rfl
  rw [hbody, hat, startsDeclaration_iff hp]
  exact statementAt_out _ _ _

/-! ## Tokens passed over -/

/-- **Passes over.** Where `I` holds of the source, the action moves the source on to where `I` holds again, and does
nothing else. -/
def PassesOver {σ α : Type} (I : σ → Prop) (m : Parse σ α) : Prop :=
  ∀ p, I p.source → ∃ s, (m p).2 = { p with source := s } ∧ I s

theorem PassesOver.bind {σ α β : Type} {I : σ → Prop} {m : Parse σ α} {f : α → Parse σ β} (h : PassesOver I m)
    (hf : ∀ a, PassesOver I (f a)) : PassesOver I (m >>= f) := by
  intro p hI
  obtain ⟨s, hm, hs⟩ := h p hI
  obtain ⟨s', hrest, hs'⟩ := hf (m p).1 { p with source := s } hs
  refine ⟨s', ?_, hs'⟩
  show (f (m p).1 (m p).2).2 = _
  rw [hm, hrest]

/-- What lasts when a token is passed over lasts where an action only looks and passes over. -/
theorem Looks.passesOver {α : Type} {I : σ → Prop} {m : Parse σ α} (h : Looks m)
    (hI : ∀ {s}, (TokenSource.next s).1.leaf.tokenKind ≠ .eof → I s → I (TokenSource.next s).2) : PassesOver I m := by
  have hstay : ∀ {β : Type} (b : β), PassesOver I (Pure.pure b : Parse σ β) := fun b p hp => ⟨p.source, rfl, hp⟩
  induction h with
  | read f => exact fun p hp => ⟨p.source, rfl, hp⟩
  | skip =>
    intro p hp
    have hskip : Parse.skip p = (if (TokenSource.next p.source).1.leaf.tokenKind = .eof then Pure.pure () else do
        let _ ← take
        Pure.pure () : Parse σ Unit) p := rfl
    rw [hskip]
    split
    · exact hstay () p hp
    · next hne => exact ⟨_, rfl, hI hne hp⟩
  | bind _ _ hm hf => exact hm.bind hf
  | @loop r _ hr =>
    have hupTo : ∀ d, PassesOver I (fixUpTo (fun again => do if ← r then again) d) := by
      intro d
      induction d with
      | zero => exact hstay ()
      | succ d ih =>
        refine hr.bind fun b => ?_
        cases b with
        | false => exact hstay ()
        | true => exact ih
    exact fun p => hupTo (TokenSource.remaining p.source + 1) p

end Parse

/-! ## Looking ahead in slots -/

namespace Slots

variable {s₀ s : Slots}

/-- **Behind.** Slots that are left where tokens were passed over: more of them may be filled, and the index may be
further on. -/
structure Behind (s₀ s : Slots) : Prop where
  consistent : s.Consistent
  filled : s.buffer.FilledFrom s₀.position
  le : s₀.position ≤ s.position
  inside : ∀ slot ∈ (s.buffer.slots.take s.position).drop s₀.position, slot.isEnd = false
  eq : ∃ more, s = { s₀ with
    buffer := { s₀.buffer with slots := s₀.buffer.slots ++ more }
    position := s.position }

theorem Behind.refl (h : s.Consistent) : Behind s s where
  consistent := h
  filled := h
  le := le_rfl
  inside := by simp
  eq := ⟨[], by rw [List.append_nil]⟩

/-- Passing over one more token. -/
theorem Behind.next (h : Behind s₀ s) (hne : (TokenSource.next s).1.leaf.tokenKind ≠ .eof) :
    Behind s₀ (TokenSource.next s).2 := by
  obtain ⟨hleaf, -, hconsistent, htake⟩ := h.consistent.next
  have hfilled : s.filled.FilledFrom s₀.position ∧
      ∃ more, s.filled = { s.buffer with slots := s.buffer.slots ++ more } := by
    rw [Slots.filled]
    split
    · exact ⟨h.filled, [], by rw [List.append_nil]⟩
    · next hge =>
      -- all slots from the first index on have been passed over, so none of them ends the text
      refine ⟨h.filled.fill ?_, _, rfl⟩
      rw [Option.any_eq_false]
      intro slot hslot
      have hinside := h.inside slot
      rw [List.take_of_length_le (Nat.le_of_not_lt hge)] at hinside
      simp [hinside (List.mem_of_getLast? hslot)]
  obtain ⟨hfrom, more, hmore⟩ := hfilled
  obtain ⟨more', hmore'⟩ := Buffer.exists_fillMore_eq (s.ahead (s.position + 1)) s.filled
  obtain ⟨more₀, hs⟩ := h.eq
  refine ⟨hconsistent, (hfrom.fillMore _).1, h.le.trans (Nat.le_succ _), fun slot hslot => ?_,
    more₀ ++ more ++ more', ?_⟩
  · rw [htake, List.drop_append_of_le_length (by simpa [h.consistent.le] using h.le), List.mem_append,
      List.mem_singleton] at hslot
    rcases hslot with hslot | rfl
    · exact h.inside slot hslot
    · rw [hleaf] at hne
      exact s.cursor.isEnd_slot.trans (decide_eq_false hne)
  · rw [next_apply, advance, hmore', hmore, hs]
    simp

/-- **More filled.** The same slots, with more of them filled at the end. -/
structure MoreFilled (s₀ s : Slots) : Prop where
  eq : ∃ more, s = { s₀ with buffer := { s₀.buffer with slots := s₀.buffer.slots ++ more } }
  consistent : s.Consistent
  cursor : s.cursor = s₀.cursor

/-- Going back by the index. -/
theorem Behind.back (h : Behind s₀ s) (h₀ : s₀.Consistent) : MoreFilled s₀ { s with position := s₀.position } := by
  obtain ⟨more, hs⟩ := h.eq
  refine ⟨⟨more, by rw [hs]⟩, h.filled, ?_⟩
  rw [hs]
  exact Buffer.cursorAfter_append h₀.le

end Slots

namespace Parse

/-- The result of an action that goes back by the index of the slot at the front, and by nothing else. -/
def lookAhead {α : Type} (body : Parse Slots α) : Parse Slots α := fun p =>
  ((body p).1, { (body p).2 with source := { (body p).2.source with position := p.source.position } })

/-- **Looking ahead** fills slots and does nothing else. -/
theorem lookAhead_apply {p : Parser Slots} (h : p.source.Consistent) :
    ∃ s, lookAhead passDeclared p = ((atLocalDeclaration p).1, { p with source := s }) ∧ p.source.MoreFilled s := by
  obtain ⟨s, hpass, hs⟩ := Looks.passDeclared.passesOver (I := p.source.Behind) (fun hne hs => hs.next hne) p (.refl h)
  refine ⟨_, ?_, hs.back h⟩
  rw [lookAhead, hpass]
  rfl

/-- What stays filled makes no difference. -/
theorem Follows.lookAhead : Follows Slots.simulation (Parse.lookAhead passDeclared) Parse.atLocalDeclaration := by
  intro p q h
  obtain ⟨hconsistent, pool, hpool⟩ := h.source
  obtain ⟨s, hlook, hmore⟩ := lookAhead_apply hconsistent
  rw [hlook]
  exact ⟨(Follows.atLocalDeclaration p q h).1, { h with source := ⟨hmore.consistent, pool, hmore.cursor ▸ hpool⟩ }⟩

/-! ## Speculation -/

section Looking

variable {σ : Type} [TokenSource σ]

/-- All that stands below the root in front of the token that ends the text, if `look` tells declarations. -/
def rootInnerWith (look : Parse σ Bool) : EntryPoint → Parse σ Unit
  | .compilationUnit => within .compilationUnit (loop (memberRound (memberWith look) none))
  | .member => do
    ifStarts TokenKind.startsMember (memberWith look)
    let _ ← skipToRecovery
  | .statement => do
    ifStarts TokenKind.startsStatement (statementWith look)
    let _ ← skipToRecovery
  | .expression => rootInner .expression

/-- With the action that leaves nothing behind it is the same. -/
theorem rootInnerWith_eq (entry : EntryPoint) :
    (rootInnerWith atLocalDeclaration entry : Parse σ Unit) = rootInner entry := by
  cases entry with
  | compilationUnit | member =>
    rw [rootInnerWith, memberWith_eq]
    rfl
  | statement =>
    rw [rootInnerWith, statementWith_eq]
    rfl
  | expression => rfl

theorem Follows.rootInnerWith {τ : Type} [TokenSource τ] {R : Simulation σ τ} {look : Parse σ Bool}
    {look' : Parse τ Bool} (hlook : Follows R look look') (entry : EntryPoint) :
    Follows R (Parse.rootInnerWith look entry) (Parse.rootInnerWith look' entry) := by
  have hfragment : ∀ (starts : TokenKind → Bool) {m : Parse σ Unit} {m' : Parse τ Unit}, Follows R m m' →
      Follows R (do ifStarts starts m; let _ ← Parse.skipToRecovery)
        (do ifStarts starts m'; let _ ← Parse.skipToRecovery) :=
    fun _ _ _ h => (peek.bind fun _ => ite h (pure ())).bind fun _ => skipToRecovery.bind fun _ => pure ()
  cases entry with
  | compilationUnit => exact within (loop (hlook.memberWith.memberRound none))
  | member => exact hfragment _ hlook.memberWith
  | statement => exact hfragment _ hlook.statementWith
  | expression => exact hfragment _ expression

end Looking

variable {version : LanguageVersion} {S : Supply version Cursor} {p : Parser Slots}

/-- The index moves on by one for every token of a type, whichever way it is gone over. -/
theorem exists_position_eq (hp : Ready (Slots.supply S) p) : ∃ taken,
    S.upcoming p.source.cursor = taken ++ S.upcoming (type p).2.source.cursor ∧
      (skipType p).2.source.position = p.source.position + taken.length ∧
      (type p).2.source.position = p.source.position + taken.length := by
  -- the index and the number of tokens to come add up to the same
  let sum : Slots → Nat := fun s => s.position + (S.upcoming s.cursor).length
  have hlasting : Lasting (Slots.supply S) fun s => sum s = sum p.source := by
    intro s hs hne hsum
    have hcons : S.upcoming s.cursor = _ :: S.upcoming (TokenSource.next s).2.cursor :=
      ((Slots.supply S).next_of_ne hs hne).2
    have hnext : (TokenSource.next s).2.position = s.position + 1 := rfl
    have hlen := congrArg List.length hcons
    rw [List.length_cons] at hlen
    show _ + _ = _
    rw [hnext, ← hsum]
    show _ = s.position + (S.upcoming s.cursor).length
    omega
  obtain ⟨hskip, hread⟩ := lasting_type hlasting (fun _ hsum => hsum) hp rfl
  cases h : (skipType p).1 with
  | true =>
    obtain ⟨taken, s, s', g, hs, hs', hup, hup', -⟩ := (foreseen hp).type h
    change S.upcoming p.source.cursor = taken ++ S.upcoming s.cursor at hup
    change S.upcoming s'.cursor = S.upcoming s.cursor at hup'
    rw [hs] at hskip ⊢
    rw [hs'] at hread ⊢
    simp only [sum, hup, hup', List.length_append] at hskip hread
    refine ⟨taken, hup.trans (by rw [hup']), ?_, ?_⟩
    · show s.position = _
      omega
    · show s'.position = _
      omega
  | false =>
    obtain ⟨hs, id, id', hs'⟩ := (foreseen hp).noType h
    rw [hs, hs']
    exact ⟨[], rfl, rfl, rfl⟩

/-- **Speculation agrees with parsing.** From slots in order, wherever the index stands:

* passing over a type and reading one agree on whether there is one and on its tokens, and come to the same index;
* looking ahead for a declaration fills slots and does nothing else, and if a parse looks ahead in this way its result
  is that of the cursor at the front, for which looking ahead leaves nothing behind;
* if no old statement is used again, a declaration of variables is read just if the tokens to come start one. -/
theorem speculation_spec (hp : Ready (Slots.supply S) p) :
    (Foreseen (Slots.supply S) p ∧ ∃ taken, S.upcoming p.source.cursor = taken ++ S.upcoming (type p).2.source.cursor ∧
        (skipType p).2.source.position = p.source.position + taken.length ∧
        (type p).2.source.position = p.source.position + taken.length) ∧
      ((∃ s, lookAhead passDeclared p = ((atLocalDeclaration p).1, { p with source := s }) ∧ p.source.MoreFilled s) ∧
        ∀ entry, Slots.Agrees (Slots.parseOf (rootInnerWith (lookAhead passDeclared) entry) version entry p.source)
          (parse version entry p.source.cursor)) ∧
      (TokenSource.reuse? NodeKind.isStatement p.source = none → ∃ g, (statement p).2.out = p.out ++ [g] ∧
        (g.nodeKind? = some .localDeclStmt ↔
          StartsDeclaration (((Slots.supply S).upcoming p.source).map Leaf.tokenKind))) := by
  have hok : Slots.InOrder S p.source := hp.ok
  refine ⟨⟨foreseen hp, exists_position_eq hp⟩, ⟨lookAhead_apply hok.consistent, fun entry => ?_⟩, statement_out hp⟩
  refine hok.consistent.parse_agrees hok.ok entry ?_
  rw [← rootInnerWith_eq]
  exact Follows.lookAhead.rootInnerWith entry

/-- In front of a variable whose type is an array, with two more slots filled than are asked for. -/
theorem speculation_spec_array :
    let c : Cursor := .atStart "A.B[] x;".toList (.initial []) {}
    let p : Parser Slots := .start .latest { buffer := ⟨c, []⟩, ahead := fun _ => 2 }
    (∃ g, (type p).2.out = [g] ∧
        g.leaves.map Leaf.tokenKind = [.ident, .punct .dot, .ident, .punct .lBracket, .punct .rBracket]) ∧
      (skipType p).2.source.position = 5 ∧ (type p).2.source.position = 5 ∧
      (∃ s, lookAhead passDeclared p = (true, { p with source := s }) ∧ p.source.MoreFilled s) ∧
      ∃ g, (statement p).2.out = [g] ∧ g.nodeKind? = some .localDeclStmt := by
  intro c p
  let S : Supply .latest Cursor := .ofCursor .latest [] "A.B[] x;".toList .empty none nofun
  have hok : S.Ok c := ⟨[], Cursor.at_atStart [] _ .empty {}⟩
  have hready : Ready (Slots.supply S) p := ⟨Slots.InOrder.start hok _, rfl⟩
  obtain ⟨⟨hforeseen, taken, -, hskip, hread⟩, ⟨⟨s, hlook, hmore⟩, -⟩, hstatement⟩ := speculation_spec hready
  obtain ⟨ahead, t, t', g, -, htype, -⟩ := hforeseen.type (by decide +kernel)
  have hout : (type p).2.out = [g] := congrArg (·.2.out) htype
  have hkinds : (Green.leavesAll (type p).2.out).map Leaf.tokenKind =
      [.ident, .punct .dot, .ident, .punct .lBracket, .punct .rBracket] := by decide +kernel
  have hposition : (skipType p).2.source.position = 5 := by decide +kernel
  obtain ⟨g', hout', hdeclares⟩ := hstatement rfl
  refine ⟨⟨g, hout, ?_⟩, hposition, hread.trans (hskip.symm.trans hposition), ⟨s, ?_, hmore⟩, g', hout', hdeclares.2 ?_⟩
  · rw [hout] at hkinds
    simpa using hkinds
  · have hdeclared : (atLocalDeclaration p).1 = true := by decide +kernel
    rw [hlook, hdeclared]
  · have hstarts : (tokenize [] "A.B[] x;".toList).map Leaf.tokenKind =
        [.ident, .punct .dot, .ident, .punct .lBracket, .punct .rBracket, .ident, .punct .semicolon, .eof] := by
      decide +kernel
    have hnamed := StartsDeclaration.named 1 1 [.punct .semicolon, .eof]
    show StartsDeclaration ((tokenizeRest c.context c.rest).map Leaf.tokenKind)
    rw [tokenize_eq] at hstarts
    exact hstarts ▸ hnamed

end Parse

end IncrementalSyntax

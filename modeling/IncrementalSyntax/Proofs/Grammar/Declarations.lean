import IncrementalSyntax.Proofs.Grammar.Derived
import IncrementalSyntax.Proofs.Grammar.GoodMembers
import IncrementalSyntax.Proofs.Grammar.Written

/-!
# What is read as a member is declared

The grammar of members as rules over tokens, independent of how the parser goes about it. The kinds of the
tokens do not say all, since `record` is an identifier. Modifiers belong to types, methods and fields. The
parser takes them in front of a using directive and a namespace as well, which is the `lenient` grammar.

## Main definitions

* `Declares`: what can be written for a member, and for members in a row
* `Unmodified`: no modifier stands in front of `using` or `namespace`

## Main results

* `Declares.strict`: without such a modifier the lenient grammar allows nothing more
* `Parse.Takes.memberUpTo`: whatever is read as a member is one of the kind that its node says
* `Parse.Takes.members`: whatever is read as members are members
-/

namespace IncrementalSyntax

/-! ## The grammar -/

/-- **Declaration.** A member with the kind of its node, or members in a row. -/
inductive Declaration where
  | member (kind : NodeKind)
  | members
  deriving DecidableEq, Repr

/-- Phrases with commas between them. -/
inductive Separated (A : List TokenKind → Prop) : List TokenKind → Prop
  | one {w : List TokenKind} (h : A w) : Separated A w
  | more {v w : List TokenKind} (h : A v) (h' : Separated A w) : Separated A (v ++ .punct .comma :: w)

/-- A type and an identifier. -/
def IsParameter (w : List TokenKind) : Prop := ∃ v, Derives .type v ∧ w = v ++ [.ident]

/-- Parameters in parentheses, or none. -/
def IsParameterList (w : List TokenKind) : Prop :=
  w = [.punct .lParen, .punct .rParen] ∨
    ∃ v, Separated IsParameter v ∧ w = .punct .lParen :: (v ++ [.punct .rParen])

/-- Types behind a colon. -/
def IsBaseList (w : List TokenKind) : Prop := ∃ v, Separated (Derives .type) v ∧ w = .punct .colon :: v

/-- The word that begins a type of a kind. -/
inductive TypeWord (version : LanguageVersion) : NodeKind → Leaf → Prop
  | classWord {l : Leaf} (h : l.tokenKind = .keyword .classKw) : TypeWord version .classDecl l
  | structWord {l : Leaf} (h : l.tokenKind = .keyword .structKw) : TypeWord version .structDecl l
  | interfaceWord {l : Leaf} (h : l.tokenKind = .keyword .interfaceKw) : TypeWord version .interfaceDecl l
  | recordWord {l : Leaf} (hversion : version.supportsRecords = true) (h : l.tokenKind = .ident)
      (htext : l.text = "record".toList) : TypeWord version .recordDecl l

namespace TypeWord

variable {version : LanguageVersion} {kind : NodeKind} {l : Leaf}

theorem isModifier_eq (h : TypeWord version kind l) : l.tokenKind.isModifier = false := by
  cases h <;> simp_all [TokenKind.isModifier]

theorem ne_using (h : TypeWord version kind l) : l.tokenKind ≠ .keyword .usingKw := by
  cases h <;> simp_all

end TypeWord

def Modifiers (ms : List Leaf) : Prop := ∀ l ∈ ms, l.tokenKind.isModifier = true

/-- **Declares.** The tokens that can be written for a declaration. In the lenient grammar modifiers may stand
in front of any member. -/
inductive Declares (version : LanguageVersion) (lenient : Bool) : Declaration → List Leaf → Prop
  | noMembers : Declares version lenient .members []
  | nextMember {kind : NodeKind} {v w : List Leaf} (h : Declares version lenient (.member kind) v)
      (h' : Declares version lenient .members w) : Declares version lenient .members (v ++ w)
  | usingDirective {ms name : List Leaf} {u s : Leaf} (hms : Modifiers ms) (hnone : lenient = true ∨ ms = [])
      (hu : u.tokenKind = .keyword .usingKw) (hname : Derives .name (name.map Leaf.tokenKind))
      (hs : s.tokenKind = .punct .semicolon) :
      Declares version lenient (.member .usingDirective) (ms ++ u :: (name ++ [s]))
  | namespaceDecl {ms name body : List Leaf} {u o c : Leaf} (hms : Modifiers ms)
      (hnone : lenient = true ∨ ms = []) (hu : u.tokenKind = .keyword .namespaceKw)
      (hname : Derives .name (name.map Leaf.tokenKind)) (ho : o.tokenKind = .punct .lBrace)
      (hbody : Declares version lenient .members body) (hc : c.tokenKind = .punct .rBrace) :
      Declares version lenient (.member .namespaceDecl) (ms ++ u :: (name ++ o :: (body ++ [c])))
  | typeDecl {kind : NodeKind} {ms bases body : List Leaf} {t x o c : Leaf} (hms : Modifiers ms)
      (ht : TypeWord version kind t) (hx : x.tokenKind = .ident)
      (hbases : bases = [] ∨ IsBaseList (bases.map Leaf.tokenKind)) (ho : o.tokenKind = .punct .lBrace)
      (hbody : Declares version lenient .members body) (hc : c.tokenKind = .punct .rBrace) :
      Declares version lenient (.member kind) (ms ++ t :: x :: (bases ++ o :: (body ++ [c])))
  | methodDecl {ms type params body : List Leaf} {x : Leaf} (hms : Modifiers ms)
      (htype : Derives .type (type.map Leaf.tokenKind)) (hx : x.tokenKind = .ident)
      (hparams : IsParameterList (params.map Leaf.tokenKind))
      (hbody : IsBlock (body.map Leaf.tokenKind) ∨ body.map Leaf.tokenKind = [.punct .semicolon]) :
      Declares version lenient (.member .methodDecl) (ms ++ (type ++ x :: (params ++ body)))
  | fieldDecl {ms type vars : List Leaf} {s : Leaf} (hms : Modifiers ms)
      (htype : Derives .type (type.map Leaf.tokenKind)) (hvars : Derives .declarators (vars.map Leaf.tokenKind))
      (hs : s.tokenKind = .punct .semicolon) :
      Declares version lenient (.member .fieldDecl) (ms ++ (type ++ (vars ++ [s])))

/-- **Unmodified.** No modifier stands right in front of `using` or `namespace`. -/
def Unmodified (ls : List Leaf) : Prop :=
  ls.IsChain fun a b => a.tokenKind.isModifier = true →
    b.tokenKind ≠ .keyword .usingKw ∧ b.tokenKind ≠ .keyword .namespaceKw

theorem Unmodified.of_part {ls ms : List Leaf} (h : Unmodified ls) (hms : ms <:+: ls) : Unmodified ms := by
  obtain ⟨as, bs, rfl⟩ := hms
  exact h.left_of_append.right_of_append

theorem Unmodified.concat {ls : List Leaf} {e : Leaf} (h : Unmodified ls) (he : e.tokenKind = .eof) :
    Unmodified (ls ++ [e]) := by
  refine List.isChain_append.2 ⟨h, List.isChain_singleton e, fun a _ b hb _ => ?_⟩
  obtain rfl : e = b := by simpa using hb
  rw [he]
  decide

namespace Declares

variable {version : LanguageVersion} {lenient : Bool} {d : Declaration} {ls : List Leaf}

/-- A member has tokens. -/
theorem ne_nil {kind : NodeKind} (h : Declares version lenient (.member kind) ls) : ls ≠ [] := by
  cases h <;> simp

/-- Where no modifier stands in front of `using` or `namespace`, there are none to allow there. -/
theorem modifiers_eq_nil {ms rest : List Leaf} {u : Leaf} (hms : Modifiers ms)
    (hu : u.tokenKind = .keyword .usingKw ∨ u.tokenKind = .keyword .namespaceKw)
    (hls : Unmodified (ms ++ u :: rest)) : ms = [] := by
  rcases List.eq_nil_or_concat ms with rfl | ⟨ms, m, rfl⟩
  · rfl
  · have hpair : Unmodified [m, u] := hls.of_part ⟨ms, rest, by simp⟩
    have hm : m.tokenKind.isModifier = true := hms m (by simp)
    have hne := (List.isChain_cons_cons.1 hpair).1 hm
    rcases hu with hu | hu
    · exact absurd hu hne.1
    · exact absurd hu hne.2

/-- **The lenient grammar.** It allows no more than the strict one where no modifier stands in front of `using`
or `namespace`. -/
theorem strict (h : Declares version lenient d ls) (hls : Unmodified ls) : Declares version false d ls := by
  induction h with
  | noMembers => exact .noMembers
  | nextMember _ _ ih ih' =>
    exact .nextMember (ih (hls.of_part (List.prefix_append _ _).isInfix))
      (ih' (hls.of_part (List.suffix_append _ _).isInfix))
  | usingDirective hms _ hu hname hs =>
    exact .usingDirective hms (.inr (modifiers_eq_nil hms (.inl hu) hls)) hu hname hs
  | @namespaceDecl ms name body u o c hms _ hu hname ho _ hc ih =>
    have hbody : body <:+: ms ++ u :: (name ++ o :: (body ++ [c])) := ⟨ms ++ u :: (name ++ [o]), [c], by simp⟩
    exact .namespaceDecl hms (.inr (modifiers_eq_nil hms (.inr hu) hls)) hu hname ho (ih (hls.of_part hbody)) hc
  | @typeDecl kind ms bases body t x o c hms ht hx hbases ho _ hc ih =>
    have hbody : body <:+: ms ++ t :: x :: (bases ++ o :: (body ++ [c])) :=
      ⟨ms ++ t :: x :: (bases ++ [o]), [c], by simp⟩
    exact .typeDecl hms ht hx hbases ho (ih (hls.of_part hbody)) hc
  | methodDecl hms htype hx hparams hbody => exact .methodDecl hms htype hx hparams hbody
  | fieldDecl hms htype hvars hs => exact .fieldDecl hms htype hvars hs

theorem exists_first_of_type {type : List Leaf} (h : Derives .type (type.map Leaf.tokenKind)) :
    ∃ l tail, type = l :: tail ∧ l.tokenKind.isModifier = false ∧ l.tokenKind ≠ .keyword .usingKw := by
  obtain ⟨ss, hyields⟩ := h.hasTrees rfl
  obtain ⟨l, tail, rfl⟩ := List.exists_cons_of_ne_nil (hyields.ne_nil (by simp))
  have hl : l.tokenKind.startsType = true := hyields.starts (by simp)
  refine ⟨l, tail, rfl, ?_⟩
  generalize l.tokenKind = k at hl
  cases k with
  | ident => decide
  | builtin b => cases b <;> decide
  | _ => cases hl

/-- In the strict grammar a member is a first token with others behind it. Modifiers stand in front of it, but
not in front of `using`. -/
theorem exists_first {kind : NodeKind} (h : Declares version false (.member kind) ls) :
    ∃ ms l tail, ls = ms ++ l :: tail ∧ tail ≠ [] ∧ Modifiers ms ∧ l.tokenKind.isModifier = false ∧
      (l.tokenKind = .keyword .usingKw → ms = []) := by
  cases h with
  | usingDirective hms hnone hu _ _ =>
    exact ⟨_, _, _, rfl, by simp, hms, by rw [hu]; rfl, fun _ => hnone.resolve_left Bool.false_ne_true⟩
  | namespaceDecl hms hnone hu _ _ _ _ =>
    exact ⟨_, _, _, rfl, by simp, hms, by rw [hu]; rfl, fun _ => hnone.resolve_left Bool.false_ne_true⟩
  | typeDecl hms ht _ _ _ _ _ => exact ⟨_, _, _, rfl, by simp, hms, ht.isModifier_eq, fun h => absurd h ht.ne_using⟩
  | methodDecl hms ht _ _ _ =>
    obtain ⟨l, tail, rfl, hl, hne⟩ := exists_first_of_type ht
    exact ⟨_, l, _, rfl, by simp, hms, hl, fun h => absurd h hne⟩
  | fieldDecl hms ht _ _ =>
    obtain ⟨l, tail, rfl, hl, hne⟩ := exists_first_of_type ht
    exact ⟨_, l, _, rfl, by simp, hms, hl, fun h => absurd h hne⟩

/-- In the strict grammar no members begin with a modifier in front of `using`. -/
theorem not_modified_using {m u : Leaf} (hm : m.tokenKind.isModifier = true) (hu : u.tokenKind = .keyword .usingKw) :
    ¬ Declares version false .members (m :: u :: ls) := by
  intro h
  generalize hall : m :: u :: ls = all at h
  cases h with
  | noMembers => cases hall
  | nextMember h _ =>
    obtain ⟨ms, l, tail, rfl, htail, hms, hl, hnone⟩ := h.exists_first
    rcases ms with _ | ⟨m₁, _ | ⟨m₂, ms⟩⟩
    · obtain ⟨rfl, -⟩ := List.cons.inj hall
      rw [hm] at hl
      cases hl
    · obtain ⟨-, hall⟩ := List.cons.inj hall
      obtain ⟨rfl, -⟩ := List.cons.inj hall
      cases hnone hu
    · obtain ⟨-, hall⟩ := List.cons.inj hall
      obtain ⟨rfl, -⟩ := List.cons.inj hall
      have hmodifier := hms u (by simp)
      rw [hu] at hmodifier
      cases hmodifier

end Declares

/-! ## What is read -/

namespace Parse

namespace Spells

variable {n : Nat} {pre : List Leaf → Prop} {i : Parse TokenList Unit}

theorem separated {A : List TokenKind → Prop} (h : Spells n anything i fun _ => A) :
    Spells n pre (Parse.loop (do i; Parse.eat (.punct .comma))) fun _ => Separated A :=
  commas h (fun _ => .one) fun _ _ => .more

theorem parameter : Spells n pre parameter fun _ => IsParameter :=
  node (then_token type (expect (by decide)) fun _ w hw => ⟨w, hw, rfl⟩)

theorem parameterList : Spells n pre parameterList fun _ => IsParameterList := by
  have hrest : ∀ k, Spells k anything
      (do
        if (← Parse.peek).startsType then
          Parse.loop do
            Parse.parameter
            Parse.eat (.punct .comma)
        Parse.expect (.punct .rParen))
      fun _ w => w = [.punct .rParen] ∨ ∃ v, Separated IsParameter v ∧ w = v ++ [.punct .rParen] := by
    refine fun n => peek_bind fun k => ?_
    by_cases hk : k.startsType = true
    · simp only [hk, if_true]
      exact then_token (separated parameter) (expect (by decide)) fun _ w hw => .inr ⟨w, hw, rfl⟩
    · simp only [hk]
      exact (expect (by decide)).imp fun _ _ => .inl
  refine node (token_then (expect (by decide)) (hrest _) ?_)
  rintro _ _ (rfl | ⟨v, hv, rfl⟩)
  · exact .inl rfl
  · exact .inr ⟨v, hv, rfl⟩

theorem baseList (hpre : ∀ L, pre L → frontKind L = .punct .colon) : Spells n pre baseList fun _ => IsBaseList :=
  node (token_then (bump (by decide) hpre) (separated type) fun _ w hw => ⟨w, hw, rfl⟩)

end Spells

namespace Takes

variable {v : LanguageVersion} {n : Nat} {pre : List Leaf → Prop} {i : Parse TokenList Unit}

/-- One token, of which more than the kind is known. -/
theorem word {k : TokenKind} (h : Spells n pre i fun _ w => w = [k]) :
    Takes v n pre i fun _ _ w => ∃ l, w = [l] ∧ l.tokenKind = k :=
  (h v).mono (fun _ => id) (fun _ _ _ hw => List.map_eq_singleton_iff.1 hw) le_rfl

/-- The last of the tokens of a member, and the node around the whole of it. -/
theorem then_enclose {kind : NodeKind} {A : List Leaf → Prop} (h : Takes v n pre i fun _ _ => A) :
    Takes v n pre (do i; Parse.enclose kind) fun _ o w => A w ∧ ∃ g, o = [g] ∧ g.nodeKind? = some kind := by
  refine seq h enclose ?_
  rintro _ o w _ hw ⟨rfl, hg⟩
  exact ⟨by simpa using hw, hg⟩

/-- A member behind its modifiers, all in one node of its kind. -/
def Tail (v : LanguageVersion) (o : List Green) (w : List Leaf) : Prop :=
  ∃ g kind, o = [g] ∧ g.nodeKind? = some kind ∧ ∀ ms, Modifiers ms → Declares v true (.member kind) (ms ++ w)

theorem usingDirective (hpre : ∀ L, pre L → frontKind L = .keyword .usingKw) :
    Takes v n pre usingDirective fun _ => Tail v := by
  refine token_then (word (Spells.bump (by decide) hpre)) (seq (Spells.name v)
    (then_enclose (word (Spells.expect (by decide)))) (F := fun _ o w => ∃ name s, w = name ++ [s] ∧
      Derives .name (name.map Leaf.tokenKind) ∧ s.tokenKind = .punct .semicolon ∧
      ∃ g, o = [g] ∧ g.nodeKind? = some .usingDirective) ?_) ?_
  · rintro _ o name _ hname ⟨⟨s, rfl, hs⟩, hg⟩
    exact ⟨name, s, rfl, hname, hs, hg⟩
  · rintro _ _ u _ hu ⟨name, s, rfl, hname, hs, g, rfl, hg⟩
    exact ⟨g, _, rfl, hg, fun ms hms => .usingDirective hms (.inl rfl) hu hname hs⟩

/-! ### Members inside -/

section Inner

variable (h : Takes v (n - 1) anything i fun _ _ w => ∃ kind, Declares v true (.member kind) w)

omit h in
theorem memberRound {closer : Option TokenKind}
    (h : Takes v n anything i fun _ _ w => ∃ kind, Declares v true (.member kind) w) :
    Takes v n anything (memberRound i closer) fun b _ w =>
      if b then ∃ kind, Declares v true (.member kind) w else w = [] := by
  refine peek_bind fun k => ?_
  by_cases hend : (decide (k = .eof) || decide (some k = closer)) = true
  · rw [if_pos hend]
    exact pure fun _ => rfl
  rw [if_neg hend]
  by_cases hk : k.startsMember = true
  · rw [if_pos hk]
    refine seq (h.mono (fun _ _ => trivial) (fun _ _ _ => id) le_rfl)
      (pure (D := fun b _ w => b = true ∧ w = []) fun _ => ⟨rfl, rfl⟩) ?_
    rintro _ _ w _ hw ⟨rfl, rfl⟩
    simpa using hw
  · rw [if_neg hk]
    exact skipToRecovery.mono (fun _ => id) (by rintro _ _ _ ⟨rfl, rfl⟩; rfl) le_rfl

omit h in
theorem memberList {closer : Option TokenKind}
    (h : Takes v n anything i fun _ _ w => ∃ kind, Declares v true (.member kind) w) :
    Takes v n pre (Parse.loop (Parse.memberRound i closer)) fun _ _ => Declares v true .members := by
  refine loop (memberRound h) (fun w hw => ?_) (fun w hw => ?_) fun w w' hw hw' => ?_
  · obtain ⟨_, hw⟩ := hw
    exact hw.ne_nil
  · obtain rfl : w = [] := hw
    exact .noMembers
  · obtain ⟨_, hw⟩ := hw
    exact .nextMember hw hw'

include h

theorem memberBody {context : ListContext} : Takes v n pre (memberBody i context) fun _ _ w =>
    ∃ o body c, w = o :: (body ++ [c]) ∧ o.tokenKind = .punct .lBrace ∧ Declares v true .members body ∧
      c.tokenKind = .punct .rBrace := by
  refine token_then (word (Spells.expect (by decide))) (seq (within (memberList h))
    (word (Spells.expect (by decide))) (F := fun _ _ w => ∃ body c, w = body ++ [c] ∧
      Declares v true .members body ∧ c.tokenKind = .punct .rBrace) ?_) ?_
  · rintro _ _ body _ hbody ⟨c, rfl, hc⟩
    exact ⟨body, c, rfl, hbody, hc⟩
  · rintro _ _ o _ ho ⟨body, c, rfl, hbody, hc⟩
    exact ⟨o, body, c, rfl, ho, hbody, hc⟩

theorem namespaceDeclaration (hpre : ∀ L, pre L → frontKind L = .keyword .namespaceKw) :
    Takes v n pre (namespaceDeclaration i) fun _ => Tail v := by
  refine token_then (word (Spells.bump (by decide) hpre)) (seq (Spells.name v)
    (then_enclose (memberBody (h.mono (fun _ => id) (fun _ _ _ => id) (by omega)))) (F := fun _ g w =>
      ∃ name o body c, w = name ++ o :: (body ++ [c]) ∧ Derives .name (name.map Leaf.tokenKind) ∧
        o.tokenKind = .punct .lBrace ∧ Declares v true .members body ∧ c.tokenKind = .punct .rBrace ∧
        ∃ s, g = [s] ∧ s.nodeKind? = some .namespaceDecl) ?_) ?_
  · rintro _ _ name _ hname ⟨⟨o, body, c, rfl, ho, hbody, hc⟩, hg⟩
    exact ⟨name, o, body, c, rfl, hname, ho, hbody, hc, hg⟩
  · rintro _ _ u _ hu ⟨name, o, body, c, rfl, hname, ho, hbody, hc, g, rfl, hg⟩
    exact ⟨g, _, rfl, hg, fun ms hms => .namespaceDecl hms (.inl rfl) hu hname ho hbody hc⟩

/-- A type declaration whose first word is known. -/
theorem typeDeclaration {kind : NodeKind} (hne : ∀ L, pre L → frontKind L ≠ .eof)
    (hword : ∀ l L, pre (l :: L) → TypeWord v kind l) : Takes v n pre (typeDeclaration i kind) fun _ => Tail v := by
  have hbody : Takes v (n - 1 - 1) anything (do Parse.memberBody i .typeBody; Parse.enclose kind) fun _ g w =>
      (∃ o body c, w = o :: (body ++ [c]) ∧ o.tokenKind = .punct .lBrace ∧ Declares v true .members body ∧
        c.tokenKind = .punct .rBrace) ∧ ∃ s, g = [s] ∧ s.nodeKind? = some kind :=
    then_enclose (memberBody (h.mono (fun _ => id) (fun _ _ _ => id) (by omega)))
  have hrest : Takes v (n - 1 - 1) anything
      (do
        if ← Parse.isAt (.punct .colon) then Parse.baseList
        Parse.memberBody i .typeBody
        Parse.enclose kind)
      fun _ g w => ∃ bases o body c, w = bases ++ o :: (body ++ [c]) ∧
        (bases = [] ∨ IsBaseList (bases.map Leaf.tokenKind)) ∧ o.tokenKind = .punct .lBrace ∧
        Declares v true .members body ∧ c.tokenKind = .punct .rBrace ∧ ∃ s, g = [s] ∧ s.nodeKind? = some kind := by
    refine isAt_bind fun b => ?_
    cases b with
    | false =>
      refine hbody.mono (fun _ _ => trivial) ?_ le_rfl
      rintro _ _ _ ⟨⟨o, body, c, rfl, ho, hbody, hc⟩, hg⟩
      exact ⟨[], o, body, c, rfl, .inl rfl, ho, hbody, hc, hg⟩
    | true =>
      refine seq (Spells.baseList (fun _ hL => of_decide_eq_true hL.2) v) hbody ?_
      rintro _ _ bases _ hbases ⟨⟨o, body, c, rfl, ho, hbody, hc⟩, hg⟩
      exact ⟨bases, o, body, c, rfl, .inr hbases, ho, hbody, hc, hg⟩
  refine bump_then (P := TypeWord v kind) hne (fun l L hL => ⟨hword l L hL, (trivial : anything L)⟩)
    (token_then (word (Spells.expect (k := .ident) (by decide))) hrest (F := fun _ g w => ∃ x bases o body c,
      w = x :: (bases ++ o :: (body ++ [c])) ∧ x.tokenKind = .ident ∧
      (bases = [] ∨ IsBaseList (bases.map Leaf.tokenKind)) ∧ o.tokenKind = .punct .lBrace ∧
      Declares v true .members body ∧ c.tokenKind = .punct .rBrace ∧ ∃ s, g = [s] ∧ s.nodeKind? = some kind) ?_) ?_
  · rintro _ _ x _ hx ⟨bases, o, body, c, rfl, hrest⟩
    exact ⟨x, bases, o, body, c, rfl, hx, hrest⟩
  · rintro _ _ t _ ht ⟨x, bases, o, body, c, rfl, hx, hbases, ho, hbody, hc, g, rfl, hg⟩
    exact ⟨g, _, rfl, hg, fun ms hms => .typeDecl hms ht hx hbases ho hbody hc⟩

omit h in
/-- A method or a field behind its type. -/
theorem methodOrField : Takes v n pre methodOrField fun _ g w => ∀ type, Derives .type (type.map Leaf.tokenKind) →
    Tail v g (type ++ w) := by
  rw [Meets.methodOrField_eq]
  refine atPair_bind rfl fun b => ?_
  cases b with
  | false =>
    refine seq (Spells.declarators v) (then_enclose (word (Spells.expect (by decide)))) ?_
    rintro _ _ vars _ hvars ⟨⟨s, rfl, hs⟩, g, rfl, hg⟩ type htype
    exact ⟨g, _, rfl, hg, fun ms hms => .fieldDecl hms htype hvars hs⟩
  | true =>
    have hbody : Takes v (n - 1) anything
        (do
          if ← Parse.isAt (.punct .lBrace) then Parse.block else Parse.expect (.punct .semicolon)
          Parse.enclose .methodDecl)
        fun _ o w => (IsBlock (w.map Leaf.tokenKind) ∨ w.map Leaf.tokenKind = [.punct .semicolon]) ∧
          ∃ g, o = [g] ∧ g.nodeKind? = some .methodDecl := by
      refine isAt_bind fun b => ?_
      cases b with
      | false => exact then_enclose ((Spells.expect (by decide) v).mono (fun _ => id) (fun _ _ _ => .inr) le_rfl)
      | true => exact then_enclose ((Spells.block v).mono (fun _ => id) (fun _ _ _ => .inl) le_rfl)
    refine token_then (word (Spells.bump (by decide) fun L hL => (hL.2 rfl).1)) (seq (Spells.parameterList v) hbody
      (F := fun _ o w => ∃ params body, w = params ++ body ∧ IsParameterList (params.map Leaf.tokenKind) ∧
        (IsBlock (body.map Leaf.tokenKind) ∨ body.map Leaf.tokenKind = [.punct .semicolon]) ∧
        ∃ g, o = [g] ∧ g.nodeKind? = some .methodDecl) ?_) ?_
    · rintro _ _ params body hparams ⟨hbody, hg⟩
      exact ⟨params, body, rfl, hparams, hbody, hg⟩
    · rintro _ _ x _ hx ⟨params, body, rfl, hparams, hbody, g, rfl, hg⟩ type htype
      exact ⟨g, _, rfl, hg, fun ms hms => .methodDecl hms htype hx hparams hbody⟩

omit h in
theorem typed : Takes v n pre (do Parse.type; Parse.methodOrField) fun _ => Tail v :=
  seq (Spells.type v) methodOrField fun _ _ type _ htype hw => hw type htype

omit h in
/-- A record comes only where the version has records, and where its word is written. -/
theorem atRecord_bind {f : Bool → Parse TokenList Unit} {D : Unit → List Green → List Leaf → Prop}
    (hf : ∀ b, Takes v n (fun L => pre L ∧ (b = true → v.supportsRecords = true ∧
      ∀ l, L.head? = some l → l.text = "record".toList)) (f b) D) : Takes v n pre (Parse.atRecord >>= f) D := by
  refine look (Q := fun b L => b = true → v.supportsRecords = true ∧
    ∀ l, L.head? = some l → l.text = "record".toList) (fun p hp => ⟨rfl, fun hb => ?_⟩) hf
  have hrecord : (p.version.supportsRecords && decide ((peekText p).1 = "record".toList) &&
      decide ((peekSecond p).1 = .ident)) = true := hb
  simp only [Bool.and_eq_true, decide_eq_true_eq, hp.version] at hrecord
  refine ⟨hrecord.1.1, fun l hl => ?_⟩
  have htext := peekText_eq (.ofTokenList v) hp
  have hhead : ((Supply.ofTokenList v).upcoming p.source).head? = some l := hl
  rw [hhead, hrecord.1.2] at htext
  exact Option.some.inj htext

theorem memberTail : Takes v n pre (memberTail i) fun _ => Tail v := by
  rw [memberTail_eq]
  refine peek_bind fun k => ?_
  unfold tailAt
  split
  · exact usingDirective fun _ hL => hL.2
  · exact namespaceDeclaration h fun _ hL => hL.2
  · exact typeDeclaration h (fun _ hL => hL.2 ▸ by decide) fun _ _ hL => .classWord hL.2
  · exact typeDeclaration h (fun _ hL => hL.2 ▸ by decide) fun _ _ hL => .structWord hL.2
  · exact typeDeclaration h (fun _ hL => hL.2 ▸ by decide) fun _ _ hL => .interfaceWord hL.2
  · exact typed
  · refine atRecord_bind fun b => ?_
    cases b with
    | false => exact typed
    | true =>
      refine typeDeclaration h (fun _ hL => hL.1.2 ▸ by decide) fun l _ hL => ?_
      exact .recordWord (hL.2 rfl).1 hL.1.2 ((hL.2 rfl).2 l rfl)
  · exact seq (A := fun _ => False) (missing _ _) enclose fun _ _ _ _ => False.elim

/-- A member leaves one node behind, whose kind says what the tokens are. -/
theorem memberOf : Takes v n pre (memberOf i) fun _ o w => ∃ o' g kind, o = o' ++ [g] ∧ g.nodeKind? = some kind ∧
    Declares v true (.member kind) w := by
  have hround : Takes v n anything modifierRound fun b _ w =>
      if b then ∃ m, w = [m] ∧ m.tokenKind.isModifier = true else w = [] := by
    refine peek_bind fun k => ?_
    by_cases hk : k.isModifier = true
    · rw [if_pos hk]
      refine token_then (word (Spells.bump (by rintro rfl; cases hk) fun _ hL => hL.2))
        (pure (D := fun b _ w => b = true ∧ w = []) fun _ => ⟨rfl, rfl⟩) ?_
      rintro _ _ m _ rfl ⟨rfl, rfl⟩
      simpa using hk
    · rw [if_neg hk]
      exact pure fun _ => rfl
  have hmodifiers : Takes v n pre (Parse.loop modifierRound) fun _ _ => Modifiers := by
    refine loop hround (fun w hw => ?_) (fun w hw => ?_) fun w w' hw hw' => ?_
    · obtain ⟨m, rfl, -⟩ := hw
      simp
    · obtain rfl : w = [] := hw
      exact nofun
    · obtain ⟨m, rfl, hm⟩ := hw
      exact List.forall_mem_cons.2 ⟨hm, hw'⟩
  rw [memberOf_eq]
  refine scope (seq hmodifiers (memberTail h) (F := fun _ o w => ∃ g kind, o = [g] ∧ g.nodeKind? = some kind ∧
    Declares v true (.member kind) w) ?_) ?_
  · rintro _ _ ms w hms ⟨g, kind, rfl, hg, hw⟩
    exact ⟨g, kind, rfl, hg, hw ms hms⟩
  · rintro _ _ o' w ⟨g, kind, rfl, hg, hw⟩
    exact ⟨o', g, kind, rfl, hg, hw⟩

end Inner

/-- Whatever is read as a member to a depth is one of the kind that its node says. -/
theorem memberUpTo {d : Nat} (hd : n ≤ d) : Takes v n anything (memberUpTo d) fun _ o w =>
    ∃ o' g kind, o = o' ++ [g] ∧ g.nodeKind? = some kind ∧ Declares v true (.member kind) w :=
  fixUpTo (n := n) (fun _ _ _ hi => memberOf (hi.mono (fun _ => id)
    (by rintro _ _ _ ⟨_, _, kind, -, -, hw⟩; exact ⟨kind, hw⟩) le_rfl)) d n le_rfl hd

/-- Whatever is read as members are members. -/
theorem members : Takes v n pre members fun _ _ => Declares v true .members :=
  within (memberList (of_fixUpTo fun _ _ _ hd => (memberUpTo hd).mono (fun _ => id)
    (by rintro _ _ _ ⟨_, _, kind, -, -, hw⟩; exact ⟨kind, hw⟩) le_rfl))

end Takes

end Parse

end IncrementalSyntax

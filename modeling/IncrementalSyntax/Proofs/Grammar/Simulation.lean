import IncrementalSyntax.Proofs.Grammar.Looking
import IncrementalSyntax.Proofs.Green.Leaves

/-!
# Sources that feed the same

Two sources may differ in what the parser never looks at, the identities of tokens above all. If a relation
between them is kept by all that a source can be asked for, then every production leads from related states to
related states, and so does the parse.

## Main definitions

* `Simulation`: a relation between sources that feed the same leaves and offer nodes of the same shape
* `Parse.Same`: states of the parser with related sources
* `Parse.Follows`: two instances of an action that lead from the same to the same

## Main results

* `Parse.Follows.bind`, `Parse.Follows.scope`, `Parse.Follows.fix`: actions put together
* `Simulation.parse`: the parses of related sources
-/

namespace IncrementalSyntax

/-- **Simulation.** Related sources feed the same leaves and offer nodes of the same shape, and what is left of
them is related again. -/
structure Simulation (σ τ : Type) [TokenSource σ] [TokenSource τ] where
  Rel : σ → τ → Prop
  next : ∀ {s t}, Rel s t →
    (TokenSource.next s).1.leaf = (TokenSource.next t).1.leaf ∧ Rel (TokenSource.next s).2 (TokenSource.next t).2
  reuse : ∀ {s t} (kinds : NodeKind → Bool), Rel s t →
    Option.Rel (fun a b => a.1.shape = b.1.shape ∧ Rel a.2 b.2) (TokenSource.reuse? kinds s)
      (TokenSource.reuse? kinds t)
  fresh : ∀ {s t}, Rel s t → Rel (TokenSource.fresh s).2 (TokenSource.fresh t).2
  remaining : ∀ {s t}, Rel s t → TokenSource.remaining s = TokenSource.remaining t

namespace Parse

variable {σ τ : Type} [TokenSource σ] [TokenSource τ] {R : Simulation σ τ}

variable (R) in
/-- **Same.** Two states with related sources that agree in all but identities. -/
structure Same (p : Parser σ) (q : Parser τ) : Prop where
  source : R.Rel p.source q.source
  shapes : p.out.map Green.shape = q.out.map Green.shape
  contexts : p.contexts = q.contexts
  status : p.status = q.status
  version : p.version = q.version

variable (R) in
/-- **Follows.** Two instances of an action that lead from the same to the same, with the same result. -/
def Follows {α : Type} (m : Parse σ α) (m' : Parse τ α) : Prop :=
  ∀ p q, Same R p q → (m p).1 = (m' q).1 ∧ Same R (m p).2 (m' q).2

namespace Same

variable {p : Parser σ} {q : Parser τ}

theorem next (h : Same R p q) : (TokenSource.next p.source).1.leaf = (TokenSource.next q.source).1.leaf :=
  (R.next h.source).1

theorem fresh (h : Same R p q) :
    Same R { p with source := (TokenSource.fresh p.source).2 } { q with source := (TokenSource.fresh q.source).2 } :=
  { h with source := R.fresh h.source }

theorem take (h : Same R p q) :
    Same R { p with source := (TokenSource.next p.source).2 } { q with source := (TokenSource.next q.source).2 } :=
  { h with source := (R.next h.source).2 }

theorem emit (h : Same R p q) {g g' : Green} (hg : g.shape = g'.shape) :
    Same R { p with out := p.out ++ [g] } { q with out := q.out ++ [g'] } :=
  { h with shapes := by simp [h.shapes, hg] }

end Same

namespace Follows

variable {α β : Type} {m : Parse σ α} {m' : Parse τ α}

/-! ## Actions put together -/

theorem pure (a : α) : Follows R (Pure.pure a) (Pure.pure a) := fun _ _ h => ⟨rfl, h⟩

theorem bind {f : α → Parse σ β} {f' : α → Parse τ β} (h : Follows R m m') (hf : ∀ a, Follows R (f a) (f' a)) :
    Follows R (m >>= f) (m' >>= f') := by
  intro p q hpq
  obtain ⟨hresult, hstate⟩ := h p q hpq
  show (f (m p).1 (m p).2).1 = (f' (m' q).1 (m' q).2).1 ∧ Same R (f (m p).1 (m p).2).2 (f' (m' q).1 (m' q).2).2
  rw [← hresult]
  exact hf _ _ _ hstate

theorem ite {c : Prop} [Decidable c] {n : Parse σ α} {n' : Parse τ α} (h : Follows R m m') (hn : Follows R n n') :
    Follows R (if c then m else n) (if c then m' else n') := by
  split
  · exact h
  · exact hn

theorem scope (h : Follows R m m') : Follows R (scope m) (scope m') := by
  intro p q hpq
  obtain ⟨hresult, hstate⟩ := h { p with out := [] } { q with out := [] } { hpq with shapes := rfl }
  refine ⟨hresult, { hstate with shapes := ?_ }⟩
  show (p.out ++ (m { p with out := [] }).2.out).map Green.shape = (q.out ++ (m' { q with out := [] }).2.out).map Green.shape
  rw [List.map_append, List.map_append, hpq.shapes, hstate.shapes]

theorem within {context : ListContext} {m : Parse σ Unit} {m' : Parse τ Unit} (h : Follows R m m') :
    Follows R (within context m) (within context m') := by
  intro p q hpq
  obtain ⟨hresult, hstate⟩ := h { p with contexts := context :: p.contexts }
    { q with contexts := context :: q.contexts } { hpq with contexts := congrArg (context :: ·) hpq.contexts }
  exact ⟨hresult, { hstate with contexts := hpq.contexts }⟩

theorem speculate (h : Follows R m m') : Follows R (speculate m) (speculate m') :=
  fun p q hpq => ⟨(h p q hpq).1, hpq⟩

/-- Either both sources offer a node in place of its tokens or none does. -/
theorem reuseOr {kinds : NodeKind → Bool} {m : Parse σ Unit} {m' : Parse τ Unit} (h : Follows R m m') :
    Follows R (reuseOr kinds m) (reuseOr kinds m') := by
  intro p q hpq
  have hreuse := R.reuse kinds hpq.source
  unfold Parse.reuseOr
  generalize TokenSource.reuse? kinds p.source = offer at hreuse
  generalize TokenSource.reuse? kinds q.source = offer' at hreuse
  cases hreuse with
  | none => exact h p q hpq
  | some hoffer => exact ⟨rfl, { hpq.emit hoffer.1 with source := hoffer.2 }⟩

section Recursion

variable {body : Parse σ Unit → Parse σ Unit} {body' : Parse τ Unit → Parse τ Unit}

theorem fixUpTo (h : ∀ i i', Follows R i i' → Follows R (body i) (body' i')) (depth : Nat) :
    Follows R (fixUpTo body depth) (fixUpTo body' depth) := by
  induction depth with
  | zero => exact fun _ _ hpq => ⟨rfl, hpq⟩
  | succ depth ih => exact h _ _ ih

/-- The depth of a recursion depends on the number of tokens left, which is the same on both sides. -/
theorem fix (h : ∀ i i', Follows R i i' → Follows R (body i) (body' i')) : Follows R (fix body) (fix body') := by
  intro p q hpq
  have hdepth := R.remaining hpq.source
  have hupTo := fixUpTo h (TokenSource.remaining q.source + 1) p q hpq
  rw [← hdepth] at hupTo
  unfold Parse.fix
  rw [← hdepth]
  exact hupTo

theorem loop {round : Parse σ Bool} {round' : Parse τ Bool} (h : Follows R round round') :
    Follows R (loop round) (loop round') :=
  fix fun _ _ hi => h.bind fun _ => ite hi (pure ())

end Recursion

/-! ## Tokens -/

theorem peek : Follows R peek peek := fun _ _ h => ⟨congrArg Leaf.tokenKind h.next, h⟩

theorem peekSecond : Follows R peekSecond peekSecond := fun _ _ h => ⟨congrArg Leaf.tokenKind h.take.next, h⟩

theorem peekText : Follows R peekText peekText := fun _ _ h => ⟨congrArg Leaf.text h.next, h⟩

theorem isAt (kind : TokenKind) : Follows R (isAt kind) (isAt kind) := peek.bind fun _ => pure _

theorem bump : Follows R bump bump := fun _ _ h => ⟨rfl, h.take.emit (congrArg Shape.leaf h.next)⟩

theorem eat (kind : TokenKind) : Follows R (eat kind) (eat kind) :=
  (isAt kind).bind fun _ => ite (bump.bind fun _ => pure true) (pure false)

theorem noteMissing : Follows R noteMissing noteMissing := by
  intro p q h
  refine ⟨rfl, ?_⟩
  show Same R (if (TokenSource.next p.source).1.leaf.tokenKind = .eof then { p with status := .unexpectedEnd } else p)
    (if (TokenSource.next q.source).1.leaf.tokenKind = .eof then { q with status := .unexpectedEnd } else q)
  rw [h.next]
  split
  · exact { h with status := rfl }
  · exact h

theorem missing (kind : TokenKind) (code : Code) : Follows R (missing kind code) (missing kind code) := by
  refine noteMissing.bind fun _ => ?_
  exact fun p q h => ⟨rfl, h.fresh.emit rfl⟩

theorem expect (kind : TokenKind) : Follows R (expect kind) (expect kind) :=
  (eat kind).bind fun _ => ite (pure ()) (missing _ _)

theorem skip : Follows R skip skip :=
  peek.bind fun _ => ite (pure ()) fun _ _ h => ⟨rfl, h.take⟩

theorem enclose (kind : NodeKind) : Follows R (enclose kind) (enclose kind) := by
  intro p q h
  refine ⟨rfl, { h.fresh with shapes := ?_ }⟩
  show [(Green.ofChildren _ kind p.out).shape] = [(Green.ofChildren _ kind q.out).shape]
  simp [Green.ofChildren, Green.shape, h.shapes]

theorem node (kind : NodeKind) {m : Parse σ Unit} {m' : Parse τ Unit} (h : Follows R m m') :
    Follows R (node kind m) (node kind m') :=
  scope (h.bind fun _ => enclose kind)

/-! ## Skipping -/

theorem atRecoveryPoint : Follows R atRecoveryPoint atRecoveryPoint := by
  refine peek.bind fun k p q h => ⟨?_, h⟩
  show (decide (k = .eof) || p.contexts.any (·.isRecoveryPoint k)) =
    (decide (k = .eof) || q.contexts.any (·.isRecoveryPoint k))
  rw [h.contexts]

theorem bumpUnexpected : Follows R bumpUnexpected bumpUnexpected := by
  intro p q h
  refine ⟨rfl, h.take.fresh.emit ?_⟩
  rw [Green.shape, Green.shape, h.next]

theorem skipToRecovery : Follows R skipToRecovery skipToRecovery := by
  have hround : Follows R (do if ← Parse.atRecoveryPoint then return false else Parse.bump; return true)
      (do if ← Parse.atRecoveryPoint then return false else Parse.bump; return true) :=
    atRecoveryPoint.bind fun _ => ite (pure false) (bump.bind fun _ => pure true)
  refine atRecoveryPoint.bind fun _ => ite (pure false) ?_
  exact (node .skippedTokens (bumpUnexpected.bind fun _ => loop hround)).bind fun _ => pure true

/-! ## Names, types and expressions -/

theorem atSegment : Follows R atSegment atSegment := peek.bind fun _ => peekSecond.bind fun _ => pure _

theorem atBrackets : Follows R atBrackets atBrackets := peek.bind fun _ => peekSecond.bind fun _ => pure _

theorem name : Follows R name name :=
  node .name <| (expect .ident).bind fun _ => loop <| atSegment.bind fun _ =>
    ite (bump.bind fun _ => bump.bind fun _ => pure true) (pure false)

theorem type : Follows R type type := by
  have hbrackets : Follows R
      (Parse.loop do
        unless ← Parse.atBrackets do return false
        Parse.bump; Parse.bump; Parse.enclose .arrayType; return true)
      (Parse.loop do
        unless ← Parse.atBrackets do return false
        Parse.bump; Parse.bump; Parse.enclose .arrayType; return true) :=
    loop <| atBrackets.bind fun _ =>
      ite (bump.bind fun _ => bump.bind fun _ => (enclose .arrayType).bind fun _ => pure true) (pure false)
  refine scope (peek.bind fun k => ite ?_ (node .name (missing _ _)))
  exact ite ((node .predefinedType bump).bind fun _ => hbrackets) (name.bind fun _ => hbrackets)

theorem skipType : Follows R skipType skipType := by
  have hskip : Follows R (do Parse.skip; Parse.skip; return true) (do Parse.skip; Parse.skip; return true) :=
    skip.bind fun _ => skip.bind fun _ => pure true
  refine peek.bind fun k => ite (skip.bind fun _ => ?_) (pure false)
  have hbrackets : Follows R
      (do
        Parse.loop do
          unless ← Parse.atBrackets do return false
          Parse.skip; Parse.skip; return true
        return true)
      (do
        Parse.loop do
          unless ← Parse.atBrackets do return false
          Parse.skip; Parse.skip; return true
        return true) :=
    (loop (atBrackets.bind fun _ => ite hskip (pure false))).bind fun _ => pure true
  exact ite hbrackets ((loop (atSegment.bind fun _ => ite hskip (pure false))).bind fun _ => hbrackets)

section Inner

variable {i : Parse σ Unit} {i' : Parse τ Unit} (h : Follows R i i')

include h

theorem commas : Follows R (Parse.loop (do i; Parse.eat (.punct .comma))) (Parse.loop (do i'; Parse.eat (.punct .comma))) :=
  loop (h.bind fun _ => eat _)

theorem argumentListOf : Follows R (argumentListOf i) (argumentListOf i') := by
  refine node .argList ((expect _).bind fun _ => peek.bind fun k => ?_)
  exact ite (expect _) (h.commas.bind fun _ => expect _)

theorem primary : Follows R (primary i) (primary i') := by
  refine peek.bind fun k => ite (node _ bump) <| ite (node _ bump) <| ite (node _ bump) <| ite ?_ <| ite ?_ ?_
  · exact node _ (bump.bind fun _ => h.bind fun _ => expect _)
  · exact node _ (bump.bind fun _ => type.bind fun _ => h.argumentListOf)
  · exact node _ (missing _ _)

theorem postfixRound : Follows R (postfixRound i) (postfixRound i') := by
  refine peek.bind fun k => ?_
  split
  · exact h.argumentListOf.bind fun _ => (enclose _).bind fun _ => pure true
  · exact bump.bind fun _ => (expect _).bind fun _ => (enclose _).bind fun _ => pure true
  · exact bump.bind fun _ => h.bind fun _ => (expect _).bind fun _ => (enclose _).bind fun _ => pure true
  · exact bump.bind fun _ => (enclose _).bind fun _ => pure true
  · exact bump.bind fun _ => (enclose _).bind fun _ => pure true
  · exact pure false

theorem postfixed : Follows R (postfixed i) (postfixed i') := scope (h.primary.bind fun _ => loop h.postfixRound)

theorem prefixed : Follows R (prefixed i) (prefixed i') :=
  fix fun _ _ hagain => peek.bind fun _ => ite (node _ (bump.bind fun _ => hagain)) h.postfixed

theorem binary (levels least : Nat) : Follows R (binary i levels least) (binary i' levels least) := by
  induction levels generalizing least with
  | zero => exact h.prefixed
  | succ levels ih =>
    refine scope (h.prefixed.bind fun _ => loop (peek.bind fun k => ?_))
    cases k.precedence? with
    | none => exact pure false
    | some precedence =>
      refine ite (pure false) (bump.bind fun _ => ?_)
      exact (ih _).bind fun _ => (enclose _).bind fun _ => pure true

theorem assignment : Follows R (assignment i) (assignment i') := by
  refine scope ((h.binary _ _).bind fun _ => peek.bind fun k => ?_)
  exact ite (bump.bind fun _ => h.bind fun _ => enclose _) (pure ())

end Inner

theorem expression : Follows R expression expression := fix fun _ _ h => h.assignment

/-! ## Statements -/

theorem declarators : Follows R declarators declarators :=
  commas <| node _ <| (expect _).bind fun _ => (eat _).bind fun _ => ite expression (pure ())

theorem atLocalDeclaration : Follows R atLocalDeclaration atLocalDeclaration :=
  speculate (skipType.bind fun _ => ite (isAt _) (pure false))

theorem localDeclaration : Follows R localDeclaration localDeclaration :=
  node _ (type.bind fun _ => declarators.bind fun _ => expect _)

theorem expressionStatement : Follows R expressionStatement expressionStatement :=
  node _ (expression.bind fun _ => expect _)

theorem condition : Follows R condition condition :=
  (expect _).bind fun _ => expression.bind fun _ => expect _

theorem jump (kind : NodeKind) : Follows R (jump kind) (jump kind) := node _ (bump.bind fun _ => expect _)

theorem returnStatement : Follows R returnStatement returnStatement := by
  refine node _ (bump.bind fun _ => peek.bind fun k => ?_)
  exact ite (expression.bind fun _ => expect _) (expect _)

section Inner

variable {i : Parse σ Unit} {i' : Parse τ Unit} (h : Follows R i i')

include h

theorem embedded : Follows R (embedded i) (embedded i') := peek.bind fun _ => ite h expressionStatement

theorem ifStatement : Follows R (ifStatement i) (ifStatement i') := by
  refine node _ (bump.bind fun _ => condition.bind fun _ => h.embedded.bind fun _ => (isAt _).bind fun _ => ?_)
  exact ite (node _ (bump.bind fun _ => h.embedded)) (pure ())

theorem whileStatement : Follows R (whileStatement i) (whileStatement i') :=
  node _ (bump.bind fun _ => condition.bind fun _ => h.embedded)

theorem blockRound : Follows R (blockRound i) (blockRound i') :=
  peek.bind fun _ => ite (pure false) (ite (h.bind fun _ => pure true) skipToRecovery)

theorem blockOf : Follows R (blockOf i) (blockOf i') :=
  node _ ((expect _).bind fun _ => (within (loop h.blockRound)).bind fun _ => expect _)

theorem statementBody : Follows R (statementBody i) (statementBody i') := by
  refine peek.bind fun k => ?_
  split
  · exact h.blockOf
  · exact node _ bump
  · exact h.ifStatement
  · exact h.whileStatement
  · exact returnStatement
  · exact jump _
  · exact jump _
  · exact localDeclaration
  · exact atLocalDeclaration.bind fun _ => ite localDeclaration expressionStatement
  · exact expressionStatement

end Inner

section Looking

variable {look : Parse σ Bool} {look' : Parse τ Bool} (hlook : Follows R look look')

include hlook

theorem statementBodyWith {i : Parse σ Unit} {i' : Parse τ Unit} (h : Follows R i i') :
    Follows R (statementBodyWith look i) (statementBodyWith look' i') :=
  peek.bind fun _ => ite (hlook.bind fun _ => ite localDeclaration expressionStatement) h.statementBody

theorem statementWith : Follows R (statementWith look) (statementWith look') :=
  fix fun _ _ h => (hlook.statementBodyWith h).reuseOr

theorem blockWith : Follows R (blockWith look) (blockWith look') := hlook.statementWith.blockOf.reuseOr

end Looking

theorem statement : Follows R statement statement := by
  simpa only [statementWith_eq] using atLocalDeclaration.statementWith (R := R)

/-! ## Members -/

theorem atRecord : Follows R atRecord atRecord := by
  intro p q h
  refine ⟨?_, h⟩
  show (p.version.supportsRecords && decide ((Parse.peekText p).1 = "record".toList) &&
      decide ((Parse.peekSecond p).1 = .ident)) =
    (q.version.supportsRecords && decide ((Parse.peekText q).1 = "record".toList) &&
      decide ((Parse.peekSecond q).1 = .ident))
  rw [h.version, (peekText p q h).1, (peekSecond p q h).1]

theorem parameterList : Follows R parameterList parameterList := by
  refine node _ ((expect _).bind fun _ => peek.bind fun k => ite ?_ (expect _))
  exact (commas (node _ (type.bind fun _ => expect _))).bind fun _ => expect _

theorem baseList : Follows R baseList baseList := node _ (bump.bind fun _ => type.commas)

theorem usingDirective : Follows R usingDirective usingDirective :=
  bump.bind fun _ => name.bind fun _ => (expect _).bind fun _ => enclose _

section Inner

variable {i : Parse σ Unit} {i' : Parse τ Unit} (h : Follows R i i')

include h

theorem memberRound (closer : Option TokenKind) : Follows R (memberRound i closer) (memberRound i' closer) :=
  peek.bind fun _ => ite (pure false) (ite (h.bind fun _ => pure true) skipToRecovery)

theorem memberBody (context : ListContext) : Follows R (memberBody i context) (memberBody i' context) :=
  (expect _).bind fun _ => (within (loop (h.memberRound _))).bind fun _ => expect _

theorem typeDeclaration (kind : NodeKind) : Follows R (typeDeclaration i kind) (typeDeclaration i' kind) := by
  have hbody : Follows R (do Parse.memberBody i .typeBody; Parse.enclose kind)
      (do Parse.memberBody i' .typeBody; Parse.enclose kind) := (h.memberBody _).bind fun _ => enclose _
  refine bump.bind fun _ => (expect _).bind fun _ => (isAt _).bind fun _ => ?_
  exact ite (baseList.bind fun _ => hbody) hbody

theorem namespaceDeclaration : Follows R (namespaceDeclaration i) (namespaceDeclaration i') :=
  bump.bind fun _ => name.bind fun _ => (h.memberBody _).bind fun _ => enclose _

end Inner

section Looking

variable {look : Parse σ Bool} {look' : Parse τ Bool} (hlook : Follows R look look')

include hlook

theorem methodOrFieldWith : Follows R (methodOrFieldWith look) (methodOrFieldWith look') := by
  refine peek.bind fun _ => peekSecond.bind fun _ => ite ?_ ?_
  · refine bump.bind fun _ => parameterList.bind fun _ => (isAt _).bind fun _ => ?_
    exact ite (hlook.blockWith.bind fun _ => enclose _) ((expect _).bind fun _ => enclose _)
  · exact declarators.bind fun _ => (expect _).bind fun _ => enclose _

theorem memberTailWith {i : Parse σ Unit} {i' : Parse τ Unit} (h : Follows R i i') :
    Follows R (memberTailWith look i) (memberTailWith look' i') := by
  have htyped : Follows R (do Parse.type; Parse.methodOrFieldWith look)
      (do Parse.type; Parse.methodOrFieldWith look') := type.bind fun _ => hlook.methodOrFieldWith
  refine peek.bind fun k => ?_
  split
  · exact usingDirective
  · exact h.namespaceDeclaration
  · exact h.typeDeclaration _
  · exact h.typeDeclaration _
  · exact h.typeDeclaration _
  · exact htyped
  · exact atRecord.bind fun _ => ite (h.typeDeclaration _) htyped
  · exact (missing _ _).bind fun _ => enclose _

theorem memberOfWith {i : Parse σ Unit} {i' : Parse τ Unit} (h : Follows R i i') :
    Follows R (memberOfWith look i) (memberOfWith look' i') := by
  have hround : Follows R (do unless (← Parse.peek).isModifier do return false
                              Parse.bump; return true)
      (do unless (← Parse.peek).isModifier do return false
          Parse.bump; return true) :=
    peek.bind fun _ => ite (bump.bind fun _ => pure true) (pure false)
  exact scope ((loop hround).bind fun _ => hlook.memberTailWith h)

theorem memberWith : Follows R (memberWith look) (memberWith look') :=
  fix fun _ _ h => (hlook.memberOfWith h).reuseOr

end Looking

theorem member : Follows R member member := by
  simpa only [memberWith_eq] using atLocalDeclaration.memberWith (R := R)

theorem members : Follows R members members := within (loop (member.memberRound none))

/-! ## Whole texts -/

theorem fragment (starts : TokenKind → Bool) {m : Parse σ Unit} {m' : Parse τ Unit} (h : Follows R m m') :
    Follows R (fragment (ifStarts starts m)) (fragment (ifStarts starts m')) :=
  (peek.bind fun _ => ite h (pure ())).bind fun _ => skipToRecovery.bind fun _ => bump

theorem rootBody (entry : EntryPoint) : Follows R (rootBody entry) (rootBody entry) := by
  cases entry with
  | compilationUnit => exact members.bind fun _ => bump
  | member => exact fragment _ member
  | statement => exact fragment _ statement
  | expression => exact fragment _ expression

end Follows

end Parse

/-- **Parses of related sources** agree in all but identities, and leave related sources behind. -/
theorem Simulation.parse {σ τ : Type} [TokenSource σ] [TokenSource τ] (R : Simulation σ τ) {s : σ} {t : τ}
    (h : R.Rel s t) (version : LanguageVersion) (entry : EntryPoint) :
    (parse version entry s).root.shape = (parse version entry t).root.shape ∧
      (parse version entry s).status = (parse version entry t).status ∧
      R.Rel (parse version entry s).source (parse version entry t).source := by
  have hsame := (Parse.Follows.rootBody entry { source := s, version := version } { source := t, version := version }
    (R := R) ⟨h, rfl, rfl, rfl, rfl⟩).2
  refine ⟨?_, hsame.status, R.fresh hsame.source⟩
  show (Green.ofChildren _ _ (Parse.rootBody entry { source := s, version := version }).2.out).shape =
    (Green.ofChildren _ _ (Parse.rootBody entry { source := t, version := version }).2.out).shape
  simpa [Green.ofChildren, Green.shape] using hsame.shapes

end IncrementalSyntax

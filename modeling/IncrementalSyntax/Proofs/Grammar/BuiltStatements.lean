import IncrementalSyntax.Proofs.Grammar.BuiltExpressions
import IncrementalSyntax.Proofs.Grammar.Statements

/-!
# Statements that are built

The parser builds the trees of a statement out of their leaves. Where a statement begins with an
identifier, the parser looks ahead for a type and a name, and does not find them in an expression.

## Main definitions

* `Parse.Sealed`: tokens among which no declared name comes
* `Form.Builds`: the course of the production for a form

## Main results

* `Parse.Reads.atLocalDeclaration_of_sealed`: an expression is not taken for a declaration
* `Yields.builds`: the trees of a form are built out of their leaves
-/

namespace IncrementalSyntax

open Shape (leaf branch)

namespace Parse

variable {v : LanguageVersion}

/-! ## Looking ahead in an expression -/

/-- **Sealed.** Behind an identifier or a bracket, and up to a semicolon, no identifier follows an
identifier or a bracket. -/
def Sealed (L : List Leaf) : Prop :=
  ∃ (a : TokenKind) (u rest : List TokenKind), (a = .ident ∨ a = .punct .rBracket) ∧
    L.map Leaf.tokenKind = u ++ .punct .semicolon :: rest ∧ (a :: u).IsChain Yields.Apart

theorem Sealed.front_ne {L : List Leaf} (h : Sealed L) : frontKind L ≠ .ident := by
  obtain ⟨a, u, rest, ha, hkinds, hchain⟩ := h
  intro hfront
  cases L with
  | nil => cases hfront
  | cons l L =>
    rw [frontKind_cons] at hfront
    cases u with
    | nil => simp [hfront] at hkinds
    | cons b u =>
      obtain ⟨hb, -⟩ := List.cons.inj hkinds
      have hapart := (List.isChain_cons_cons.1 hchain).1 (hb.symm.trans hfront)
      exact ha.elim hapart.1 hapart.2

/-- What is passed over ends with an identifier or a bracket again. -/
theorem Sealed.of_pair {l₁ l₂ : Leaf} {L : List Leaf} (h : Sealed (l₁ :: l₂ :: L))
    (h₁ : l₁.tokenKind ≠ .punct .semicolon) (h₂ : l₂.tokenKind = .ident ∨ l₂.tokenKind = .punct .rBracket) :
    Sealed L := by
  obtain ⟨a, u, rest, -, hkinds, hchain⟩ := h
  rw [List.map_cons, List.map_cons] at hkinds
  match u with
  | [] => exact absurd (List.cons.inj hkinds).1 h₁
  | [b] =>
    obtain ⟨-, hsecond⟩ := List.cons.inj hkinds
    rw [(List.cons.inj hsecond).1] at h₂
    exact absurd h₂ (by decide)
  | b :: c :: u =>
    obtain ⟨-, hsecond⟩ := List.cons.inj hkinds
    obtain ⟨rfl, hrest⟩ := List.cons.inj hsecond
    exact ⟨_, u, rest, h₂, hrest, (List.isChain_cons_cons.1 hchain).2.tail⟩

theorem Sealed.exists_rounds (v : LanguageVersion) {k₁ k₂ : TokenKind} (hk₁ : k₁.closes = false)
    (hk₂ : k₂ = .ident ∨ k₂ = .punct .rBracket) {L : List Leaf} (h : Sealed L) (o : List Shape) :
    ∃ L', Rounds v (Parse.skipPair k₁ k₂) L o L' o ∧ Sealed L' := by
  -- by induction on the number of tokens, two at a time
  induction hlen : L.length using Nat.strong_induction_on generalizing L with
  | _ n ih =>
    by_cases hpair : frontKind L = k₁ ∧ frontKind L.tail = k₂
    · match L, hpair with
      | [], hpair => exact absurd hk₁ (by rw [← hpair.1]; decide)
      | [l₁], hpair =>
        obtain rfl : TokenKind.eof = k₂ := hpair.2
        exact absurd hk₂ (by decide)
      | l₁ :: l₂ :: L, hpair =>
        obtain ⟨h₁, h₂⟩ : l₁.tokenKind = k₁ ∧ l₂.tokenKind = k₂ := hpair
        have hsemicolon : l₁.tokenKind ≠ .punct .semicolon := by
          rintro hl
          rw [← h₁, hl] at hk₁
          cases hk₁
        simp only [List.length_cons] at hlen
        obtain ⟨L', hrounds, hsealed⟩ := ih L.length (by omega) (h.of_pair hsemicolon (h₂ ▸ hk₂)) rfl
        have hne : k₂ ≠ .eof := by
          rintro rfl
          exact absurd hk₂ (by decide)
        exact ⟨L', .more (.skipPair h₁ h₂ hk₁ hne) (by simp) hrounds, hsealed⟩
    · exact ⟨L, .stop (.bind (.atPair hk₁) (.ite_neg (by simpa using hpair) .pure)), h⟩

/-- An expression is not taken for a declaration. -/
theorem Reads.atLocalDeclaration_of_sealed {l : Leaf} {L : List Leaf} {o : List Shape}
    (hl : l.tokenKind = .ident) (h : Sealed L) : Reads v atLocalDeclaration (l :: L) o false (l :: L) o := by
  obtain ⟨L₁, hsegments, h₁⟩ : ∃ L₁, Rounds v (Parse.skipPair (.punct .dot) .ident) L o L₁ o ∧ Sealed L₁ :=
    h.exists_rounds v rfl (.inl rfl) o
  obtain ⟨L₂, hbrackets, h₂⟩ :
      ∃ L₂, Rounds v (Parse.skipPair (.punct .lBracket) (.punct .rBracket)) L₁ o L₂ o ∧ Sealed L₂ :=
    h₁.exists_rounds v rfl (.inr rfl) o
  have hskip : Reads v skipType (l :: L) o true L₂ o := by
    refine .peek_bind ?_
    rw [frontKind_cons, hl]
    refine .ite_pos rfl (.bind (.skip (by simp [hl])) (.ite_neg (by decide) ?_))
    exact .bind hsegments.reads (.bind hbrackets.reads .pure)
  have hat : Reads v (isAt .ident) L₂ o (decide (frontKind L₂ = .ident)) L₂ o := .isAt_bind (f := Pure.pure) .pure
  rw [decide_eq_false h₂.front_ne] at hat
  exact .speculate (.bind hskip (.ite_pos rfl hat))

/-! ## What is built -/

def BuildsDeclarator (v : LanguageVersion) (w : List Leaf) (ss : List Shape) : Prop :=
  ∀ {rest o}, frontKind rest = .punct .comma ∨ frontKind rest = .punct .semicolon →
    Reads v declarator (w ++ rest) o () rest (o ++ ss)

/-- Variables are the rounds of a repetition up to the semicolon. -/
def BuildsDeclarators (v : LanguageVersion) (w : List Leaf) (ss : List Shape) : Prop :=
  ∀ {rest o}, frontKind rest = .punct .semicolon →
    Rounds v (do declarator; eat (.punct .comma)) (w ++ rest) o rest (o ++ ss)

/-- No `else` stands behind a statement that could take it. -/
def BuildsStatement (v : LanguageVersion) (openEnded : Bool) (w : List Leaf) (ss : List Shape) : Prop :=
  ∀ {d rest o}, w.length ≤ d → (openEnded = true → frontKind rest ≠ .keyword .elseKw) →
    Reads v (statementUpTo d) (w ++ rest) o () rest (o ++ ss)

/-- Statements are the rounds of a repetition up to the closing brace. -/
def BuildsStatements (v : LanguageVersion) (w : List Leaf) (ss : List Shape) : Prop :=
  ∀ {d rest o}, w.length ≤ d → frontKind rest = .punct .rBrace →
    Rounds v (blockRound (statementUpTo d)) (w ++ rest) o rest (o ++ ss)

section Statements

variable {u w z : List Leaf} {ss ts us : List Shape} {d e i l r : Leaf} {b : Bool}

/-! ### Variables -/

theorem BuildsDeclarator.uninitialized (hl : l.tokenKind = .ident) :
    BuildsDeclarator v [l] [branch .variableDeclarator [leaf l]] := by
  intro rest o hrest
  refine .node (.bind (.expect hl (by decide)) (.bind (.eat_of_ne ?_) (.ite_neg (by decide) .pure)))
  rcases hrest with h | h <;> simp [h]

theorem BuildsDeclarator.initialized (hl : l.tokenKind = .ident) (hd : d.tokenKind = .punct .eq)
    (h : BuildsExpression v w ss) :
    BuildsDeclarator v (l :: d :: w) [branch .variableDeclarator (leaf l :: leaf d :: ss)] := by
  intro rest o hrest
  have hinit : Reads v expression (w ++ rest) [leaf l, leaf d] () rest ([leaf l, leaf d] ++ ss) :=
    h.expression (by rcases hrest with h | h <;> rw [h] <;> rfl)
  exact .node (.bind (.expect hl (by decide)) (.bind (.eat hd (by decide)) (.ite_pos rfl hinit)))

theorem BuildsDeclarators.declared (h : BuildsDeclarator v w ss) : BuildsDeclarators v w ss := by
  intro rest o hrest
  exact .stop (.bind (h (.inr hrest)) (.eat_of_ne (by simp [hrest])))

theorem BuildsDeclarators.nextDeclared (h : BuildsDeclarator v u ss) (hd : d.tokenKind = .punct .comma)
    (h' : BuildsDeclarators v w ts) : BuildsDeclarators v (u ++ d :: w) (ss ++ leaf d :: ts) := by
  intro rest o hrest
  have hround : Reads v (do declarator; eat (.punct .comma)) (u ++ d :: (w ++ rest)) o true (w ++ rest)
      (o ++ ss ++ [leaf d]) :=
    .bind (h (.inl hd)) (.eat hd (by decide))
  have hrounds := Rounds.more hround (by simp; omega) (h' hrest)
  simpa using hrounds

/-! ### Simple statements -/

/-- A statement is the production for its first token. -/
theorem BuildsStatement.of_front (hne : w ≠ [])
    (h : ∀ {d rest o}, w.length ≤ d + 1 → (b = true → frontKind rest ≠ .keyword .elseKw) →
      Reads v (statementAt (statementUpTo d) (frontKind w)) (w ++ rest) o () rest (o ++ ss)) :
    BuildsStatement v b w ss := by
  intro depth rest o hlen hrest
  obtain ⟨depth, rfl⟩ : ∃ n, depth = n + 1 :=
    Nat.exists_eq_add_of_le' ((List.length_pos_iff.2 hne).trans_le hlen)
  have hbody : Reads v (statementBody (statementUpTo depth)) (w ++ rest) o () rest (o ++ ss) := by
    refine .peek_bind ?_
    rw [frontKind_append hne]
    exact h hlen hrest
  exact hbody

theorem BuildsStatement.emptyStatement (hl : l.tokenKind = .punct .semicolon) :
    BuildsStatement v false [l] [branch .emptyStmt [leaf l]] :=
  of_front (by simp) fun _ _ => by
    rw [frontKind_cons, hl]
    exact .node (.bump (by simp [hl]))

theorem BuildsStatement.jump {k : Keyword} {kind : NodeKind} (hl : l.tokenKind = .keyword k)
    (hr : r.tokenKind = .punct .semicolon) (hk : ∀ i : Parse TokenList Unit, statementAt i (.keyword k) = jump kind) :
    BuildsStatement v false [l, r] [branch kind [leaf l, leaf r]] :=
  of_front (by simp) fun _ _ => by
    rw [frontKind_cons, hl, hk]
    exact .node (.bind (.bump (by simp [hl])) (.expect hr (by decide)))

theorem BuildsStatement.returnNone (hl : l.tokenKind = .keyword .returnKw)
    (hr : r.tokenKind = .punct .semicolon) :
    BuildsStatement v false [l, r] [branch .returnStmt [leaf l, leaf r]] :=
  of_front (by simp) fun _ _ => by
    rw [frontKind_cons, hl]
    refine .node (.bind (.bump (by simp [hl])) (.peek_bind (.ite_neg ?_ (.expect hr (by decide)))))
    show ¬ r.tokenKind.startsExpression = true
    rw [hr]
    decide

theorem BuildsStatement.returnValue (hl : l.tokenKind = .keyword .returnKw) (hw : Yields .expression w ss)
    (h : BuildsExpression v w ss) (hr : r.tokenKind = .punct .semicolon) :
    BuildsStatement v false (l :: (w ++ [r])) [branch .returnStmt (leaf l :: (ss ++ [leaf r]))] :=
  of_front (by simp) fun {depth rest o} _ _ => by
    have hvalue : Reads v expression (w ++ r :: rest) [leaf l] () (r :: rest) ([leaf l] ++ ss) :=
      h.expression (by rw [frontKind_cons, hr]; rfl)
    have hstarts : (frontKind (w ++ r :: rest)).startsExpression = true := by
      rw [frontKind_append (hw.ne_nil (by simp))]
      exact hw.starts (by simp)
    have hbody : Reads v returnStatement (l :: (w ++ r :: rest)) o () rest
        (o ++ [branch .returnStmt ([leaf l] ++ ss ++ [leaf r])]) :=
      .node (.bind (.bump (by simp [hl])) (.peek_bind (.ite_pos hstarts (.bind hvalue (.expect hr (by decide))))))
    rw [frontKind_cons, hl]
    simpa [statementAt] using hbody

/-- The production for a declaration, where the first token or a look ahead asks for it. -/
theorem reads_localDeclaration (h : BuildsType v u ss) (hw : Yields .declarators w ts)
    (h' : BuildsDeclarators v w ts) (hr : r.tokenKind = .punct .semicolon) {rest : List Leaf} {o : List Shape} :
    Reads v localDeclaration (u ++ (w ++ r :: rest)) o () rest
      (o ++ [branch .localDeclStmt (ss ++ ts ++ [leaf r])]) := by
  have hfront : frontKind (w ++ r :: rest) = .ident := by
    rw [frontKind_append (hw.ne_nil (by simp))]
    exact of_decide_eq_true (hw.starts (by simp))
  have hrounds : Rounds v (do declarator; eat (.punct .comma)) (w ++ r :: rest) ([] ++ ss) (r :: rest)
      ([] ++ ss ++ ts) := h' (by rw [frontKind_cons, hr])
  refine .node (.bind (h.type (by simp [hfront]) (by simp [hfront])) ?_)
  exact .bind hrounds.reads (.expect hr (by decide))

theorem BuildsStatement.declaration (hu : Yields .type u ss) (h : BuildsType v u ss)
    (hw : Yields .declarators w ts) (h' : BuildsDeclarators v w ts) (hr : r.tokenKind = .punct .semicolon) :
    BuildsStatement v false (u ++ (w ++ [r])) [branch .localDeclStmt (ss ++ (ts ++ [leaf r]))] := by
  have hne : u ≠ [] := hu.ne_nil (by simp)
  have hfront : ∀ rest, frontKind (w ++ rest) = .ident := fun rest => by
    rw [frontKind_append (hw.ne_nil (by simp))]
    exact of_decide_eq_true (hw.starts (by simp))
  apply of_front (by simp [hne])
  intro depth rest o _ _
  have hbody : Reads v localDeclaration (u ++ (w ++ [r]) ++ rest) o () rest
      (o ++ [branch .localDeclStmt (ss ++ (ts ++ [leaf r]))]) := by
    simpa using reads_localDeclaration h hw h' hr
  have hahead : Reads v atLocalDeclaration (u ++ (w ++ [r]) ++ rest) o true (u ++ (w ++ [r]) ++ rest) o := by
    rw [List.append_assoc, List.append_assoc]
    exact h.atLocalDeclaration (hfront _)
  rw [frontKind_append hne]
  have hstarts : (frontKind u).startsType = true := hu.starts (by simp)
  by_cases hbuiltin : (frontKind u).isBuiltin = true
  · obtain ⟨t, ht⟩ : ∃ t, frontKind u = .builtin t := by
      cases hk : frontKind u <;> simp_all [TokenKind.isBuiltin]
    rw [ht]
    exact hbody
  · rw [eq_ident_of_startsType hstarts hbuiltin]
    exact .bind hahead (.ite_pos rfl hbody)

/-- An identifier at the front of an expression statement is not taken for the type of a variable. -/
theorem sealed_of_yields (hw : Yields .expression (l :: w) ss) (hl : l.tokenKind = .ident)
    (hr : r.tokenKind = .punct .semicolon) (rest : List Leaf) : Sealed (w ++ r :: rest) := by
  have hchain := hw.isChain_apart (by simp) (by simp)
  rw [List.map_cons, hl] at hchain
  exact ⟨.ident, w.map Leaf.tokenKind, rest.map Leaf.tokenKind, .inl rfl, by simp [hr], hchain⟩

theorem BuildsStatement.expressionStatement (hw : Yields .expression w ss) (h : BuildsExpression v w ss)
    (hr : r.tokenKind = .punct .semicolon) :
    BuildsStatement v false (w ++ [r]) [branch .exprStmt (ss ++ [leaf r])] := by
  have hne : w ≠ [] := hw.ne_nil (by simp)
  apply of_front (by simp)
  intro depth rest o _ _
  have hvalue : Reads v expression (w ++ r :: rest) [] () (r :: rest) ([] ++ ss) :=
    h.expression (by rw [frontKind_cons, hr]; rfl)
  have hbody : Reads v Parse.expressionStatement (w ++ r :: rest) o () rest
      (o ++ [branch .exprStmt ([] ++ ss ++ [leaf r])]) :=
    .node (.bind hvalue (.expect hr (by decide)))
  rw [frontKind_append hne, List.append_assoc]
  have hstarts : (frontKind w).startsExpression = true := hw.starts (by simp)
  unfold statementAt
  split
  case h_10 => exact hbody
  case h_9 heq =>
    cases w with
    | nil => exact absurd rfl hne
    | cons l w =>
      rw [frontKind_cons] at heq
      exact .bind (.atLocalDeclaration_of_sealed heq (sealed_of_yields hw heq hr rest)) (.ite_neg (by decide) hbody)
  all_goals
    rename_i heq
    rw [heq] at hstarts
    cases hstarts

/-! ### Statements with statements inside -/

theorem reads_condition (hl : l.tokenKind = .punct .lParen) (h : BuildsExpression v u ss)
    (hr : r.tokenKind = .punct .rParen) {rest : List Leaf} {o : List Shape} :
    Reads v condition (l :: (u ++ r :: rest)) o () rest (o ++ leaf l :: (ss ++ [leaf r])) := by
  have hinner : Reads v expression (u ++ r :: rest) (o ++ [leaf l]) () (r :: rest) (o ++ [leaf l] ++ ss) :=
    h.expression (by rw [frontKind_cons, hr]; rfl)
  have hbody : Reads v condition (l :: (u ++ r :: rest)) o () rest (o ++ [leaf l] ++ ss ++ [leaf r]) :=
    .bind (.expect hl (by decide)) (.bind hinner (.expect hr (by decide)))
  simpa using hbody

/-- A statement that belongs to another one is the production for statements. -/
theorem BuildsStatement.embedded (hw : Yields (.statement b) w ss) (h : BuildsStatement v b w ss) {depth : Nat}
    {rest : List Leaf} {o : List Shape} (hlen : w.length ≤ depth)
    (hrest : b = true → frontKind rest ≠ .keyword .elseKw) :
    Reads v (embedded (statementUpTo depth)) (w ++ rest) o () rest (o ++ ss) := by
  refine .peek_bind (.ite_pos ?_ (h hlen hrest))
  rw [frontKind_append (hw.ne_nil (by simp))]
  exact hw.starts (by simp)

theorem BuildsStatement.ifThen (hi : i.tokenKind = .keyword .ifKw) (hl : l.tokenKind = .punct .lParen)
    (h : BuildsExpression v u ss) (hr : r.tokenKind = .punct .rParen) (hw : Yields (.statement b) w ts)
    (h' : BuildsStatement v b w ts) :
    BuildsStatement v true (i :: l :: (u ++ r :: w))
      [branch .ifStmt (leaf i :: leaf l :: (ss ++ leaf r :: ts))] :=
  of_front (by simp) fun {depth rest o} hlen hrest => by
    simp only [List.length_append, List.length_cons] at hlen
    have helse : Reads v (branchesRest (Parse.embedded (statementUpTo depth))) rest
        ([leaf i] ++ leaf l :: (ss ++ [leaf r]) ++ ts) () rest
        [branch .ifStmt ([leaf i] ++ leaf l :: (ss ++ [leaf r]) ++ ts)] :=
      .bind (.isAt_bind (.ite_neg (by simp [hrest]) .pure)) .enclose
    have hbody : Reads v (ifStatement (statementUpTo depth)) (i :: l :: (u ++ r :: (w ++ rest))) o () rest
        (o ++ [branch .ifStmt ([leaf i] ++ leaf l :: (ss ++ [leaf r]) ++ ts)]) := by
      rw [ifStatement_eq]
      refine .scope (.bind (.bump (by simp [hi])) (.bind (reads_condition hl h hr) ?_))
      exact .bind (h'.embedded hw (by omega) fun _ => hrest rfl) helse
    rw [frontKind_cons, hi]
    simpa [statementAt] using hbody

theorem BuildsStatement.ifElse (hi : i.tokenKind = .keyword .ifKw) (hl : l.tokenKind = .punct .lParen)
    (h : BuildsExpression v u ss) (hr : r.tokenKind = .punct .rParen) (hw : Yields (.statement false) w ts)
    (h' : BuildsStatement v false w ts) (he : e.tokenKind = .keyword .elseKw) (hz : Yields (.statement b) z us)
    (h'' : BuildsStatement v b z us) :
    BuildsStatement v b (i :: l :: (u ++ r :: (w ++ e :: z)))
      [branch .ifStmt (leaf i :: leaf l :: (ss ++ leaf r :: (ts ++ [branch .elseClause (leaf e :: us)])))] :=
  of_front (by simp) fun {depth rest o} hlen hrest => by
    simp only [List.length_append, List.length_cons] at hlen
    have helse : Reads v (branchesRest (Parse.embedded (statementUpTo depth))) (e :: (z ++ rest))
        ([leaf i] ++ leaf l :: (ss ++ [leaf r]) ++ ts) () rest
        [branch .ifStmt ([leaf i] ++ leaf l :: (ss ++ [leaf r]) ++ ts ++ [branch .elseClause ([leaf e] ++ us)])] := by
      refine .bind (.isAt_bind (.ite_pos (by simp [he]) (.node (.bind (.bump (by simp [he])) ?_)))) .enclose
      exact h''.embedded hz (by omega) hrest
    have hbody : Reads v (ifStatement (statementUpTo depth)) (i :: l :: (u ++ r :: (w ++ e :: (z ++ rest)))) o ()
        rest (o ++ [branch .ifStmt ([leaf i] ++ leaf l :: (ss ++ [leaf r]) ++ ts ++
          [branch .elseClause ([leaf e] ++ us)])]) := by
      rw [ifStatement_eq]
      refine .scope (.bind (.bump (by simp [hi])) (.bind (reads_condition hl h hr) ?_))
      exact .bind (h'.embedded hw (by omega) nofun) helse
    rw [frontKind_cons, hi]
    simpa [statementAt] using hbody

theorem BuildsStatement.whileDo (hi : i.tokenKind = .keyword .whileKw) (hl : l.tokenKind = .punct .lParen)
    (h : BuildsExpression v u ss) (hr : r.tokenKind = .punct .rParen) (hw : Yields (.statement b) w ts)
    (h' : BuildsStatement v b w ts) :
    BuildsStatement v b (i :: l :: (u ++ r :: w)) [branch .whileStmt (leaf i :: leaf l :: (ss ++ leaf r :: ts))] :=
  of_front (by simp) fun {depth rest o} hlen hrest => by
    simp only [List.length_append, List.length_cons] at hlen
    have hbody : Reads v (whileStatement (statementUpTo depth)) (i :: l :: (u ++ r :: (w ++ rest))) o () rest
        (o ++ [branch .whileStmt ([leaf i] ++ leaf l :: (ss ++ [leaf r]) ++ ts)]) := by
      refine .node (.bind (.bump (by simp [hi])) (.bind (reads_condition hl h hr) ?_))
      exact h'.embedded hw (by omega) hrest
    rw [frontKind_cons, hi]
    simpa [statementAt] using hbody

theorem BuildsStatements.noStatements : BuildsStatements v [] [] := by
  intro depth rest o _ hrest
  have hround : Reads v (blockRound (statementUpTo depth)) rest o false rest o :=
    .peek_bind (.ite_pos (by simp [hrest]) .pure)
  rw [List.append_nil]
  exact .stop hround

theorem BuildsStatements.nextStatement (hu : Yields (.statement b) u ss) (h : BuildsStatement v b u ss)
    (hw : Yields .statements w ts) (h' : BuildsStatements v w ts) :
    BuildsStatements v (u ++ w) (ss ++ ts) := by
  intro depth rest o hlen hrest
  rw [List.length_append] at hlen
  have hne := hu.ne_nil (by simp)
  have hstarts : (frontKind (u ++ (w ++ rest))).startsStatement = true := by
    rw [frontKind_append hne]
    exact hu.starts (by simp)
  -- no statement and no brace begins with an `else`
  have helse : frontKind (w ++ rest) ≠ .keyword .elseKw := by
    rcases eq_or_ne w [] with rfl | hnil
    · simp [hrest]
    · rw [frontKind_append hnil]
      intro hkind
      have := hw.ne_nil_and_starts.2 hnil
      rw [hkind] at this
      cases this
  have hround : Reads v (blockRound (statementUpTo depth)) (u ++ (w ++ rest)) o true (w ++ rest) (o ++ ss) := by
    refine .peek_bind (.ite_neg ?_ (.ite_pos hstarts (.bind (h (by omega) fun _ => helse) .pure)))
    intro hk
    rcases (Bool.or_eq_true _ _).mp hk with hk | hk <;> (rw [of_decide_eq_true hk] at hstarts; cases hstarts)
  rw [List.append_assoc, ← List.append_assoc o]
  exact .more hround (by simp [List.length_pos_iff.2 hne]) (h' (by omega) hrest)

theorem BuildsStatement.block (hl : l.tokenKind = .punct .lBrace) (h : BuildsStatements v w ss)
    (hr : r.tokenKind = .punct .rBrace) :
    BuildsStatement v false (l :: (w ++ [r])) [branch .block (leaf l :: (ss ++ [leaf r]))] :=
  of_front (by simp) fun {depth rest o} hlen _ => by
    simp only [List.length_append, List.length_cons, List.length_nil] at hlen
    have hloop : Reads v (loop (blockRound (statementUpTo depth))) (w ++ r :: rest) [leaf l] () (r :: rest)
        ([leaf l] ++ ss) := (h (by omega) (by rw [frontKind_cons, hr])).reads
    have hbody : Reads v (blockOf (statementUpTo depth)) (l :: (w ++ r :: rest)) o () rest
        (o ++ [branch .block ([leaf l] ++ ss ++ [leaf r])]) :=
      .node (.bind (.expect hl (by decide)) (.bind (.within hloop) (.expect hr (by decide))))
    rw [frontKind_cons, hl]
    simpa [statementAt] using hbody

theorem BuildsStatement.statement (h : BuildsStatement v b w ss) {rest : List Leaf} {o : List Shape}
    (hrest : b = true → frontKind rest ≠ .keyword .elseKw) :
    Reads v statement (w ++ rest) o () rest (o ++ ss) :=
  .fix (h (by simp) hrest)

end Statements

end Parse

/-! ## All forms -/

open Parse

/-- The course of the production for a form. -/
def Form.Builds (v : LanguageVersion) : Form → List Leaf → List Shape → Prop
  | .name, w, ss => ∃ l u, w = l :: u ∧ BuildsName v l u ss
  | .type, w, ss => BuildsType v w ss
  | .arguments, w, ss => BuildsArguments v w ss
  | .argumentList, w, ss => BuildsArgumentList v w ss
  | .primary, w, ss => BuildsPrimary v w ss
  | .postfixed, w, ss => BuildsPostfixed v w ss
  | .prefixed, w, ss => BuildsPrefixed v w ss
  | .binary level, w, ss => BuildsBinary v level w ss
  | .expression, w, ss => BuildsExpression v w ss
  | .declarator, w, ss => BuildsDeclarator v w ss
  | .declarators, w, ss => BuildsDeclarators v w ss
  | .statement openEnded, w, ss => BuildsStatement v openEnded w ss
  | .statements, w, ss => BuildsStatements v w ss

/-- **Trees are built.** The production for a form builds its trees out of their leaves. -/
theorem Yields.builds {form : Form} {w : List Leaf} {ss : List Shape} (h : Yields form w ss)
    (v : LanguageVersion) : form.Builds v w ss := by
  induction h with
  | ident hl => exact ⟨_, _, rfl, .nil hl⟩
  | dotted h hd hl ih =>
    obtain ⟨l, u, rfl, ih⟩ := ih
    exact ⟨_, _, rfl, ih.dotted hd hl⟩
  | builtin hl => exact .builtin hl
  | named h ih =>
    obtain ⟨l, u, rfl, ih⟩ := ih
    exact .named ih
  | array h hl hr ih => exact .array ih hl hr
  | argument h ih => exact BuildsArguments.argument ih
  | nextArgument h hd h' ih ih' => exact BuildsArguments.nextArgument ih hd ih'
  | noArguments hl hr => exact BuildsArgumentList.noArguments hl hr
  | inParens hl h hr ih => exact BuildsArgumentList.inParens hl h ih hr
  | constant hl => exact BuildsPrimary.constant hl
  | reference hl => exact BuildsPrimary.reference hl
  | thisObject hl => exact BuildsPrimary.thisObject hl
  | paren hl h hr ih => exact BuildsPrimary.paren hl ih hr
  | creation hl h h' ih ih' => exact BuildsPrimary.creation hl ih h' ih'
  | operand h ih => exact BuildsPostfixed.operand ih
  | call h h' ih ih' => exact BuildsPostfixed.call ih h' ih'
  | memberAccess h hd hl ih => exact BuildsPostfixed.memberAccess ih hd hl
  | index h hl h' hr ih ih' => exact BuildsPostfixed.index ih hl ih' hr
  | postfixOperator h hp hl ih => exact BuildsPostfixed.postfixOperator ih hp hl
  | unary h ih => exact BuildsPrefixed.unary h ih
  | prefixOperator hp hl h ih => exact BuildsPrefixed.prefixOperator hp hl ih
  | tightest h ih => exact .tightest ih
  | tighter h ih => exact .tighter ih
  | operation h hp hl h' ih ih' => exact .operation ih hp hl ih'
  | value h ih => exact BuildsExpression.value h ih
  | assignment h hp hl h' ih ih' => exact BuildsExpression.assignment ih hp hl ih'
  | uninitialized hl => exact BuildsDeclarator.uninitialized hl
  | initialized hl hd h ih => exact BuildsDeclarator.initialized hl hd ih
  | declared h ih => exact BuildsDeclarators.declared ih
  | nextDeclared h hd h' ih ih' => exact BuildsDeclarators.nextDeclared ih hd ih'
  | noStatements => exact BuildsStatements.noStatements
  | nextStatement h h' ih ih' => exact BuildsStatements.nextStatement h ih h' ih'
  | block hl h hr ih => exact BuildsStatement.block hl ih hr
  | emptyStatement hl => exact BuildsStatement.emptyStatement hl
  | ifThen hi hl h hr h' ih ih' => exact BuildsStatement.ifThen hi hl ih hr h' ih'
  | ifElse hi hl h hr h' he h'' ih ih' ih'' => exact BuildsStatement.ifElse hi hl ih hr h' ih' he h'' ih''
  | whileDo hi hl h hr h' ih ih' => exact BuildsStatement.whileDo hi hl ih hr h' ih'
  | returnNone hi hr => exact BuildsStatement.returnNone hi hr
  | returnValue hi h hr ih => exact BuildsStatement.returnValue hi h ih hr
  | breakLoop hi hr => exact BuildsStatement.jump hi hr fun _ => rfl
  | continueLoop hi hr => exact BuildsStatement.jump hi hr fun _ => rfl
  | declaration h h' hr ih ih' => exact BuildsStatement.declaration h ih h' ih' hr
  | expressionStatement h hr ih => exact BuildsStatement.expressionStatement h ih hr

end IncrementalSyntax

import IncrementalSyntax.Proofs.Grammar.BuiltStatements
import IncrementalSyntax.Proofs.Grammar.GoodMembers

/-!
# Members that are built

The parser builds the trees of a member out of its leaves, whatever comes behind it: a member ends with a
semicolon or a brace, and its last token is known to be that.

## Main definitions

* `Parse.BuildsItem`, `Parse.BuildsItems`: the course of an element with a comma behind it, and of several
* `Parse.BuildsMember`, `Parse.BuildsMembers`: the course of a member, and of several
* `Parse.BuildsTail`: the course of a member behind its modifiers

## Main results

* `Parse.BuildsMember.of_tail`: modifiers and what stands behind them
* `Parse.BuildsTail.usingDirective`, `Parse.BuildsTail.typed`, …: members by their first token
* `Parse.BuildsMembers.members`: the members of a file
-/

namespace IncrementalSyntax

open Shape (leaf branch)

namespace Parse

variable {v : LanguageVersion}

/-! ## Elements with commas between them -/

/-- An element of a list that a token of kind `stop` ends. -/
def BuildsItem (v : LanguageVersion) (m : Parse TokenList Unit) (stop : TokenKind) (w : List Leaf)
    (ss : List Shape) : Prop :=
  ∀ {rest o}, frontKind rest = .punct .comma ∨ frontKind rest = stop → Reads v m (w ++ rest) o () rest (o ++ ss)

/-- The elements are the rounds of a repetition up to the token that ends the list. -/
def BuildsItems (v : LanguageVersion) (m : Parse TokenList Unit) (stop : TokenKind) (w : List Leaf)
    (ss : List Shape) : Prop :=
  ∀ {rest o}, frontKind rest = stop → Rounds v (do m; eat (.punct .comma)) (w ++ rest) o rest (o ++ ss)

/-! ### Rounds of lists -/

section Rounds

variable {stops starts : TokenKind → Bool} {i : Parse TokenList Unit} {L L' : List Leaf} {o o' : List Shape}

theorem Reads.listRound_of_stops (h : stops (frontKind L) = true) :
    Reads v (listRound stops starts i) L o false L o :=
  .peek_bind (.ite_pos h .pure)

theorem Reads.listRound_of_starts (hstops : stops (frontKind L) = false) (hstarts : starts (frontKind L) = true)
    (h : Reads v i L o () L' o') : Reads v (listRound stops starts i) L o true L' o' :=
  .peek_bind (.ite_neg (by simp [hstops]) (.ite_pos hstarts (.bind h .pure)))

end Rounds

section Items

variable {m : Parse TokenList Unit} {stop : TokenKind} {u w : List Leaf} {ss ts : List Shape} {d : Leaf}

theorem BuildsItem.last (hstop : stop ≠ .punct .comma) (h : BuildsItem v m stop w ss) :
    BuildsItems v m stop w ss := by
  intro rest o hrest
  exact .stop (.bind (h (.inr hrest)) (.eat_of_ne (hrest ▸ hstop)))

theorem BuildsItem.next (h : BuildsItem v m stop u ss) (hd : d.tokenKind = .punct .comma)
    (h' : BuildsItems v m stop w ts) : BuildsItems v m stop (u ++ d :: w) (ss ++ leaf d :: ts) := by
  intro rest o hrest
  have hround : Reads v (do m; eat (.punct .comma)) (u ++ d :: (w ++ rest)) o true (w ++ rest)
      (o ++ ss ++ [leaf d]) :=
    .bind (h (.inl hd)) (.eat hd (by decide))
  have hrounds := Rounds.more hround (by simp; omega) (h' hrest)
  simpa using hrounds

end Items

/-! ## Statements in members -/

theorem not_closes_of_startsStatement {k : TokenKind} (h : k.startsStatement = true) :
    (decide (k = .punct .rBrace) || decide (k = .eof)) = false := by
  rw [Bool.or_eq_false_iff, decide_eq_false_iff_not, decide_eq_false_iff_not]
  constructor <;> rintro rfl <;> cases h

end Parse

namespace Yields

open Parse

variable {v : LanguageVersion} {w rest : List Leaf} {ss o : List Shape}

/-- No statement and no brace begins with an `else`. -/
theorem front_ne_else (h : Yields .statements w ss) (hrest : frontKind rest = .punct .rBrace) :
    frontKind (w ++ rest) ≠ .keyword .elseKw := by
  rcases eq_or_ne w [] with rfl | hnil
  · simp [hrest]
  · rw [frontKind_append hnil]
    intro hkind
    have hstarts := h.ne_nil_and_starts.2 hnil
    rw [hkind] at hstarts
    cases hstarts

/-- The statements of a block that stands in a member. -/
theorem rounds_statement (h : Yields .statements w ss) (hrest : frontKind rest = .punct .rBrace) :
    Rounds v (blockRound statement) (w ++ rest) o rest (o ++ ss) := by
  generalize hform : Form.statements = form at h
  induction h generalizing o with
  | noStatements =>
    rw [blockRound_eq, List.append_nil]
    exact .stop (.listRound_of_stops (by simp [hrest]))
  | @nextStatement u w ss ts b hfirst hmore _ ih =>
    have hne : u ≠ [] := hfirst.ne_nil (by simp)
    have hstarts : (frontKind (u ++ (w ++ rest))).startsStatement = true := by
      rw [frontKind_append hne]
      exact hfirst.starts (by simp)
    have hbuilds : BuildsStatement v b u ss := hfirst.builds v
    have hstatement : Reads v statement (u ++ (w ++ rest)) o () (w ++ rest) (o ++ ss) :=
      hbuilds.statement fun _ => hmore.front_ne_else hrest
    have hround : Reads v (blockRound statement) (u ++ (w ++ rest)) o true (w ++ rest) (o ++ ss) := by
      rw [blockRound_eq]
      exact .listRound_of_starts (not_closes_of_startsStatement hstarts) hstarts hstatement
    rw [List.append_assoc, ← List.append_assoc o]
    exact .more hround (by simp [List.length_pos_iff.2 hne]) (ih rfl)
  | _ => cases hform

end Yields

namespace Parse

variable {v : LanguageVersion}

/-! ## Parts of members -/

section Parts

variable {u w n : List Leaf} {ss ts us : List Shape} {d l r t : Leaf} {rest : List Leaf} {o : List Shape}

theorem builds_parameter (h : BuildsType v u ss) (hl : l.tokenKind = .ident) :
    BuildsItem v parameter (.punct .rParen) (u ++ [l]) [branch .param (ss ++ [leaf l])] := by
  intro rest o _
  have htype : Reads v type (u ++ l :: rest) [] () (l :: rest) ss := h.type (by simp [hl]) (by simp [hl])
  rw [List.append_assoc]
  exact .node (.bind htype (.expect hl (by decide)))

theorem builds_base (h : BuildsType v u ss) : BuildsItem v type (.punct .lBrace) u ss := by
  intro rest o hrest
  rcases hrest with hrest | hrest <;> exact h.type (by simp [hrest]) (by simp [hrest])

/-- Parameters in parentheses. -/
def BuildsParameterList (v : LanguageVersion) (w : List Leaf) (ss : List Shape) : Prop :=
  ∀ {rest o}, Reads v parameterList (w ++ rest) o () rest (o ++ ss)

theorem BuildsParameterList.none (hl : l.tokenKind = .punct .lParen) (hr : r.tokenKind = .punct .rParen) :
    BuildsParameterList v [l, r] [branch .paramList [leaf l, leaf r]] := by
  intro rest o
  refine .node (.bind (.expect hl (by decide)) (.peek_bind (.ite_neg ?_ (.expect hr (by decide)))))
  simp [hr, TokenKind.startsType]

theorem BuildsParameterList.some (hl : l.tokenKind = .punct .lParen)
    (hstarts : (frontKind w).startsType = true) (h : BuildsItems v parameter (.punct .rParen) w ss)
    (hr : r.tokenKind = .punct .rParen) :
    BuildsParameterList v (l :: (w ++ [r])) [branch .paramList (leaf l :: (ss ++ [leaf r]))] := by
  intro rest o
  have hne : w ≠ [] := by
    rintro rfl
    cases hstarts
  have hfront : (frontKind (w ++ r :: rest)).startsType = true := by rwa [frontKind_append hne]
  have hloop : Reads v (loop (do parameter; eat (.punct .comma))) (w ++ r :: rest) [leaf l] () (r :: rest)
      ([leaf l] ++ ss) := (h (by rw [frontKind_cons, hr])).reads
  have hbody : Reads v parameterList (l :: (w ++ r :: rest)) o () rest
      (o ++ [branch .paramList ([leaf l] ++ ss ++ [leaf r])]) :=
    .node (.bind (.expect hl (by decide))
      (.peek_bind (.ite_pos hfront (.bind hloop (.expect hr (by decide))))))
  simpa using hbody

/-- What may stand between the name of a type and its members. -/
def BuildsBases (v : LanguageVersion) (w : List Leaf) (ss : List Shape) : Prop :=
  ∀ {m : Parse TokenList Unit} {rest o L' o'}, frontKind rest = .punct .lBrace →
    Reads v m rest (o ++ ss) () L' o' →
    Reads v (do
      if ← isAt (.punct .colon) then baseList
      m) (w ++ rest) o () L' o'

theorem BuildsBases.none : BuildsBases v [] [] := by
  intro m rest o L' o' hrest h
  rw [List.append_nil] at h
  exact .isAt_bind (.ite_neg (by simp [hrest]) h)

theorem BuildsBases.some (hd : d.tokenKind = .punct .colon) (h : BuildsItems v type (.punct .lBrace) w ss) :
    BuildsBases v (d :: w) [branch .baseList (leaf d :: ss)] := by
  intro m rest o L' o' hrest hm
  have hloop : Reads v (loop (do type; eat (.punct .comma))) (w ++ rest) [leaf d] () rest ([leaf d] ++ ss) :=
    (h hrest).reads
  have hlist : Reads v baseList (d :: (w ++ rest)) o () rest (o ++ [branch .baseList ([leaf d] ++ ss)]) :=
    .node (.bind (.bump (by simp [hd])) hloop)
  exact .isAt_bind (.ite_pos (by simp [hd]) (.bind hlist hm))

/-- What a method ends with: a block or a semicolon. -/
def BuildsBody (v : LanguageVersion) (w : List Leaf) (ss : List Shape) : Prop :=
  ∀ {m : Parse TokenList Unit} {rest o L' o'}, Reads v m rest (o ++ ss) () L' o' →
    Reads v (do
      if ← isAt (.punct .lBrace) then block else expect (.punct .semicolon)
      m) (w ++ rest) o () L' o'

theorem BuildsBody.semicolon (hr : r.tokenKind = .punct .semicolon) : BuildsBody v [r] [leaf r] := by
  intro m rest o L' o' h
  exact .isAt_bind (.ite_neg (by simp [hr]) (.bind (.expect hr (by decide)) h))

theorem BuildsBody.block (hl : l.tokenKind = .punct .lBrace) (hw : Yields .statements w ss)
    (hr : r.tokenKind = .punct .rBrace) :
    BuildsBody v (l :: (w ++ [r])) [branch .block (leaf l :: (ss ++ [leaf r]))] := by
  intro m rest o L' o' hm
  have hloop : Reads v (loop (blockRound statement)) (w ++ r :: rest) [leaf l] () (r :: rest) ([leaf l] ++ ss) :=
    (hw.rounds_statement (by rw [frontKind_cons, hr])).reads
  have hbody : Reads v (blockOf statement) (l :: (w ++ r :: rest)) o () rest
      (o ++ [branch .block ([leaf l] ++ ss ++ [leaf r])]) :=
    .node (.bind (.expect hl (by decide)) (.bind (.within hloop) (.expect hr (by decide))))
  have hblock : Reads v Parse.block (l :: (w ++ [r]) ++ rest) o () rest
      (o ++ [branch .block (leaf l :: (ss ++ [leaf r]))]) := by
    rw [block_eq]
    simpa using hbody
  exact .isAt_bind (.ite_pos (by simp [hl]) (.bind hblock hm))

end Parts

/-! ## Members -/

/-- Whatever comes behind it, a member is taken. -/
def BuildsMember (v : LanguageVersion) (w : List Leaf) (ss : List Shape) : Prop :=
  ∀ {d rest o}, w.length ≤ d → Reads v (memberUpTo d) (w ++ rest) o () rest (o ++ ss)

/-- A member behind its modifiers, around which a node is built together with them. -/
def BuildsTail (v : LanguageVersion) (w : List Leaf) (kind : NodeKind) (ss : List Shape) : Prop :=
  ∀ {d rest o}, w.length ≤ d + 1 →
    Reads v (memberTail (memberUpTo d)) (w ++ rest) o () rest [branch kind (o ++ ss)]

/-- Members are the rounds of a repetition up to the token that closes the list, or to the end of the text;
`inner` reads the members further inside. -/
def BuildsMembers (v : LanguageVersion) (w : List Leaf) (ss : List Shape) : Prop :=
  ∀ {inner : Parse TokenList Unit} {closer : Option TokenKind} {rest o},
    (∀ {u us rest o}, BuildsMember v u us → u.length ≤ w.length →
      Reads v inner (u ++ rest) o () rest (o ++ us)) →
    (∀ k ∈ closer, k.startsMember = false) → frontKind rest = .eof ∨ some (frontKind rest) = closer →
    Rounds v (memberRound inner closer) (w ++ rest) o rest (o ++ ss)

section Members

variable {u w z : List Leaf} {ss ts us : List Shape} {d l r : Leaf}

theorem rounds_modifiers {ms rest : List Leaf} (hms : ∀ l ∈ ms, l.tokenKind.isModifier = true)
    (hrest : (frontKind rest).isModifier = false) (o : List Shape) :
    Rounds v modifierRound (ms ++ rest) o rest (o ++ ms.map leaf) := by
  induction ms generalizing o with
  | nil =>
    simp only [List.nil_append, List.map_nil, List.append_nil]
    exact .stop (.peek_bind (.ite_neg (by simp [hrest]) .pure))
  | cons l ms ih =>
    have hl : l.tokenKind.isModifier = true := hms l List.mem_cons_self
    have hround : Reads v modifierRound (l :: (ms ++ rest)) o true (ms ++ rest) (o ++ [leaf l]) :=
      .peek_bind (.ite_pos hl (.bind (.bump (ne_eof_of_closes (closes_of_isModifier hl))) .pure))
    have hrounds := Rounds.more hround (by simp) (ih (fun k hk => hms k (List.mem_cons_of_mem _ hk)) _)
    simpa using hrounds

/-- A member is its modifiers and what stands behind them. -/
theorem BuildsMember.of_tail {ms : List Leaf} {kind : NodeKind} (hms : ∀ l ∈ ms, l.tokenKind.isModifier = true)
    (hne : w ≠ []) (hfront : (frontKind w).isModifier = false) (h : BuildsTail v w kind ss) :
    BuildsMember v (ms ++ w) [branch kind (ms.map leaf ++ ss)] := by
  intro depth rest o hlen
  rw [List.length_append] at hlen
  obtain ⟨depth, rfl⟩ : ∃ n, depth = n + 1 := by
    have := List.length_pos_iff.2 hne
    exact ⟨depth - 1, by omega⟩
  have hmodifiers : Reads v (loop modifierRound) (ms ++ (w ++ rest)) [] () (w ++ rest) ([] ++ ms.map leaf) :=
    (rounds_modifiers hms (by rwa [frontKind_append hne]) []).reads
  have hmember : Reads v (memberOf (memberUpTo depth)) (ms ++ w ++ rest) o () rest
      (o ++ [branch kind (ms.map leaf ++ ss)]) := by
    rw [memberOf_eq, List.append_assoc]
    exact .scope (.bind hmodifiers (h (by omega)))
  exact hmember

theorem BuildsMember.member (h : BuildsMember v w ss) {rest : List Leaf} {o : List Shape} :
    Reads v member (w ++ rest) o () rest (o ++ ss) :=
  .fix (h (by simp))

/-! ### Members by their first token -/

/-- What stands behind the modifiers is the production for its first token. -/
theorem BuildsTail.of_front {kind : NodeKind} (hne : w ≠ [])
    (h : ∀ {d rest o}, w.length ≤ d + 1 →
      Reads v (tailAt (memberUpTo d) (frontKind w)) (w ++ rest) o () rest [branch kind (o ++ ss)]) :
    BuildsTail v w kind ss := by
  intro depth rest o hlen
  rw [memberTail_eq]
  refine .peek_bind ?_
  rw [frontKind_append hne]
  exact h hlen

theorem BuildsTail.usingDirective (hd : d.tokenKind = .keyword .usingKw) (h : BuildsName v l w ss)
    (hr : r.tokenKind = .punct .semicolon) :
    BuildsTail v (d :: l :: (w ++ [r])) .usingDirective [leaf d, branch .name ss, leaf r] :=
  of_front (by simp) fun {depth rest o} _ => by
    have hbody : Reads v Parse.usingDirective (d :: l :: (w ++ r :: rest)) o () rest
        [branch .usingDirective (o ++ [leaf d] ++ [branch .name ss] ++ [leaf r])] :=
      .bind (.bump (by simp [hd])) (.bind (h.name (by simp [hr])) (.bind (.expect hr (by decide)) .enclose))
    rw [frontKind_cons, hd]
    simpa [tailAt] using hbody

/-- The members of a namespace or a type, between braces. -/
theorem BuildsMembers.memberBody (h : BuildsMembers v w ss) (hl : l.tokenKind = .punct .lBrace)
    (hr : r.tokenKind = .punct .rBrace) {context : ListContext} {depth : Nat} (hlen : w.length ≤ depth)
    {rest : List Leaf} {o : List Shape} :
    Reads v (memberBody (memberUpTo depth) context) (l :: (w ++ r :: rest)) o () rest
      (o ++ [leaf l] ++ ss ++ [leaf r]) := by
  have hrounds : Rounds v (memberRound (memberUpTo depth) (some (.punct .rBrace))) (w ++ r :: rest)
      (o ++ [leaf l]) (r :: rest) (o ++ [leaf l] ++ ss) := by
    refine h (fun hu hle => hu (hle.trans hlen)) ?_ (.inr (by rw [frontKind_cons, hr]))
    rintro k ⟨⟩
    rfl
  exact .bind (.expect hl (by decide)) (.bind (.within hrounds.reads) (.expect hr (by decide)))

theorem BuildsTail.namespaceDecl (hd : d.tokenKind = .keyword .namespaceKw) (h : BuildsName v l w ss)
    {b e : Leaf} (hb : b.tokenKind = .punct .lBrace) (hz : BuildsMembers v z ts)
    (he : e.tokenKind = .punct .rBrace) :
    BuildsTail v (d :: l :: (w ++ b :: (z ++ [e]))) .namespaceDecl
      (leaf d :: branch .name ss :: leaf b :: (ts ++ [leaf e])) :=
  of_front (by simp) fun {depth rest o} hlen => by
    simp only [List.length_append, List.length_cons] at hlen
    have hbody : Reads v (namespaceDeclaration (memberUpTo depth)) (d :: l :: (w ++ b :: (z ++ e :: rest))) o ()
        rest [branch .namespaceDecl (o ++ [leaf d] ++ [branch .name ss] ++ [leaf b] ++ ts ++ [leaf e])] :=
      .bind (.bump (by simp [hd])) (.bind (h.name (by simp [hb]))
        (.bind (hz.memberBody hb he (by omega)) .enclose))
    rw [frontKind_cons, hd]
    simpa [tailAt] using hbody

/-- The production for a type declaration, where its first token or a look ahead asks for it. -/
theorem reads_typeDeclaration (hd : d.tokenKind ≠ .eof) (hl : l.tokenKind = .ident) (h : BuildsBases v w ss)
    {b e : Leaf} (hb : b.tokenKind = .punct .lBrace) (hz : BuildsMembers v z ts)
    (he : e.tokenKind = .punct .rBrace) {depth : Nat} (hlen : z.length ≤ depth) {kind : NodeKind}
    {rest : List Leaf} {o : List Shape} :
    Reads v (typeDeclaration (memberUpTo depth) kind) (d :: l :: (w ++ b :: (z ++ e :: rest))) o () rest
      [branch kind (o ++ leaf d :: leaf l :: (ss ++ leaf b :: (ts ++ [leaf e])))] := by
  have hbody : Reads v (do memberBody (memberUpTo depth) .typeBody; enclose kind) (b :: (z ++ e :: rest))
      (o ++ [leaf d] ++ [leaf l] ++ ss) () rest
      [branch kind (o ++ [leaf d] ++ [leaf l] ++ ss ++ [leaf b] ++ ts ++ [leaf e])] :=
    .bind (hz.memberBody hb he hlen) .enclose
  have hdecl : Reads v (typeDeclaration (memberUpTo depth) kind) (d :: l :: (w ++ b :: (z ++ e :: rest))) o () rest
      [branch kind (o ++ [leaf d] ++ [leaf l] ++ ss ++ [leaf b] ++ ts ++ [leaf e])] :=
    .bind (.bump hd) (.bind (.expect hl (by decide)) (h (by rw [frontKind_cons, hb]) hbody))
  simpa using hdecl

theorem BuildsTail.typeDecl {k : Keyword} {kind : NodeKind} (hd : d.tokenKind = .keyword k)
    (hk : ∀ i : Parse TokenList Unit, tailAt i (.keyword k) = typeDeclaration i kind) (hl : l.tokenKind = .ident)
    (h : BuildsBases v w ss) {b e : Leaf} (hb : b.tokenKind = .punct .lBrace) (hz : BuildsMembers v z ts)
    (he : e.tokenKind = .punct .rBrace) :
    BuildsTail v (d :: l :: (w ++ b :: (z ++ [e]))) kind
      (leaf d :: leaf l :: (ss ++ leaf b :: (ts ++ [leaf e]))) :=
  of_front (by simp) fun {depth rest o} hlen => by
    simp only [List.length_append, List.length_cons] at hlen
    rw [frontKind_cons, hd, hk]
    have hdecl : Reads v (typeDeclaration (memberUpTo depth) kind) (d :: l :: (w ++ b :: (z ++ e :: rest))) o ()
        rest _ := reads_typeDeclaration (by simp [hd]) hl h hb hz he (by omega)
    simpa using hdecl

/-- Whether the word `record` stands for a declaration. -/
theorem Reads.atRecord (hd : d.tokenKind ≠ .eof) {L : List Leaf} {o : List Shape} :
    Reads v atRecord (d :: L) o (v.supportsRecords && d.text = "record".toList && frontKind L = .ident)
      (d :: L) o := by
  intro p hp hL ho
  refine ⟨p.source, p.out, ?_, hp.ok, hL, ho⟩
  obtain ⟨hleaf, hnext, hrest⟩ := Reads.next_eq hp.ok hL hd
  obtain rfl : p.version = v := hp.version
  have hsecond : (TokenSource.next (TokenSource.next p.source).2).1.leaf.tokenKind = frontKind L := by
    rw [← hrest]
    exact ((Supply.ofTokenList p.version).frontKind_upcoming hnext).symm
  show (p.version.supportsRecords && decide ((TokenSource.next p.source).1.leaf.text = _) &&
    decide ((TokenSource.next (TokenSource.next p.source).2).1.leaf.tokenKind = _), p) = _
  rw [hleaf, hsecond]

theorem BuildsTail.recordDecl (hv : v.supportsRecords = true) (hd : d.tokenKind = .ident)
    (htext : d.text = "record".toList) (hl : l.tokenKind = .ident)
    (h : BuildsBases v w ss) {b e : Leaf} (hb : b.tokenKind = .punct .lBrace) (hz : BuildsMembers v z ts)
    (he : e.tokenKind = .punct .rBrace) :
    BuildsTail v (d :: l :: (w ++ b :: (z ++ [e]))) .recordDecl
      (leaf d :: leaf l :: (ss ++ leaf b :: (ts ++ [leaf e]))) :=
  of_front (by simp) fun {depth rest o} hlen => by
    simp only [List.length_append, List.length_cons] at hlen
    rw [frontKind_cons, hd]
    have hdecl : Reads v (typeDeclaration (memberUpTo depth) .recordDecl) (d :: l :: (w ++ b :: (z ++ e :: rest))) o
        () rest _ := reads_typeDeclaration (by simp [hd]) hl h hb hz he (by omega)
    refine .bind (.atRecord (by simp [hd])) (.ite_pos (by simp [hv, htext, hl]) ?_)
    simpa using hdecl

/-! ### Methods and fields -/

/-- What stands behind the type of a method or a field. -/
def BuildsTyped (v : LanguageVersion) (w : List Leaf) (kind : NodeKind) (ss : List Shape) : Prop :=
  ∀ {rest o}, Reads v methodOrField (w ++ rest) o () rest [branch kind (o ++ ss)]

theorem BuildsTyped.method (hl : l.tokenKind = .ident) (hfront : frontKind w = .punct .lParen)
    (h : BuildsParameterList v w ss) (h' : BuildsBody v z ts) :
    BuildsTyped v (l :: (w ++ z)) .methodDecl (leaf l :: (ss ++ ts)) := by
  intro rest o
  have hne : w ≠ [] := by
    rintro rfl
    cases hfront
  have hpair : Reads v (atPair .ident (.punct .lParen)) (l :: (w ++ (z ++ rest))) o true (l :: (w ++ (z ++ rest))) o := by
    have hat : Reads v (atPair .ident (.punct .lParen)) (l :: (w ++ (z ++ rest))) o _ (l :: (w ++ (z ++ rest))) o :=
      .atPair rfl
    simpa [hl, frontKind_append hne, hfront] using hat
  have hbody : Reads v methodOrField (l :: (w ++ (z ++ rest))) o () rest
      [branch .methodDecl (o ++ [leaf l] ++ ss ++ ts)] := by
    rw [Meets.methodOrField_eq]
    exact .bind hpair (.ite_pos rfl (.bind (.bump (by simp [hl])) (.bind h (h' .enclose))))
  simpa using hbody

/-- The variables of a field go on with a value, a comma or a semicolon. -/
theorem front_tail_ne_lParen (hw : Yields .declarators w ss) (hr : r.tokenKind = .punct .semicolon)
    (rest : List Leaf) : frontKind (w ++ r :: rest).tail ≠ .punct .lParen := by
  have hone : ∀ {u us} {d : Leaf} {L : List Leaf}, Yields .declarator u us → d.tokenKind ≠ .punct .lParen →
      frontKind (u ++ d :: L).tail ≠ .punct .lParen := by
    intro u us d L hu hd
    cases hu with
    | uninitialized => exact hd
    | initialized _ hd' => simp [hd']
  cases hw with
  | declared h => exact hone h (by simp [hr])
  | nextDeclared h hd _ =>
    rw [List.append_assoc]
    exact hone h (by simp [hd])

theorem BuildsTyped.field (hw : Yields .declarators w ss) (hr : r.tokenKind = .punct .semicolon) :
    BuildsTyped v (w ++ [r]) .fieldDecl (ss ++ [leaf r]) := by
  intro rest o
  have hbuilds : BuildsDeclarators v w ss := hw.builds v
  have hrounds : Rounds v (do declarator; eat (.punct .comma)) (w ++ r :: rest) o (r :: rest) (o ++ ss) :=
    hbuilds (by rw [frontKind_cons, hr])
  have hpair : Reads v (atPair .ident (.punct .lParen)) (w ++ r :: rest) o false (w ++ r :: rest) o := by
    have hat : Reads v (atPair .ident (.punct .lParen)) (w ++ r :: rest) o _ (w ++ r :: rest) o := .atPair rfl
    rwa [decide_eq_false fun h => front_tail_ne_lParen hw hr rest h.2] at hat
  have hbody : Reads v methodOrField (w ++ r :: rest) o () rest [branch .fieldDecl (o ++ ss ++ [leaf r])] := by
    rw [Meets.methodOrField_eq]
    exact .bind hpair (.ite_neg (by simp) (.bind hrounds.reads (.bind (.expect hr (by decide)) .enclose)))
  simpa using hbody

/-- A type at the front of a member that is no record. -/
theorem BuildsTail.typed {kind : NodeKind} (hu : Yields .type u ss) (h : BuildsTyped v w kind ts)
    (hfront : frontKind w = .ident) (hrecord : ∀ l ∈ u.head?, l.text ≠ "record".toList) :
    BuildsTail v (u ++ w) kind (ss ++ ts) := by
  have hne : u ≠ [] := hu.ne_nil (by simp)
  have hbuilds : BuildsType v u ss := hu.builds v
  apply of_front (List.append_ne_nil_of_left_ne_nil hne w)
  intro depth rest o _
  have hrest : frontKind (w ++ rest) = .ident := by
    have hw : w ≠ [] := by
      rintro rfl
      cases hfront
    rw [frontKind_append hw, hfront]
  have hbody : Reads v (do type; methodOrField) (u ++ (w ++ rest)) o () rest [branch kind (o ++ ss ++ ts)] :=
    .bind (hbuilds.type (by simp [hrest]) (by simp [hrest])) h
  rw [List.append_assoc o] at hbody
  rw [frontKind_append hne, List.append_assoc]
  have hstarts : (frontKind u).startsType = true := hu.starts (by simp)
  by_cases hbuiltin : (frontKind u).isBuiltin = true
  · obtain ⟨t, ht⟩ : ∃ t, frontKind u = .builtin t := by
      cases hk : frontKind u <;> simp_all [TokenKind.isBuiltin]
    rw [ht]
    exact hbody
  · obtain ⟨l, u, rfl⟩ := List.exists_cons_of_ne_nil hne
    have hl : l.tokenKind = .ident := eq_ident_of_startsType hstarts hbuiltin
    rw [frontKind_cons, hl]
    refine .bind (.atRecord (by simp [hl])) (.ite_neg ?_ hbody)
    rw [decide_eq_false (hrecord l rfl), Bool.and_false, Bool.false_and]
    exact Bool.false_ne_true

/-! ### Lists of members -/

theorem BuildsMembers.nil : BuildsMembers v [] [] := by
  intro inner closer rest o _ _ hrest
  rw [List.append_nil, memberRound_eq]
  exact .stop (.listRound_of_stops (by simpa using hrest))

theorem BuildsMembers.cons (hstarts : (frontKind u).startsMember = true) (h : BuildsMember v u ss)
    (h' : BuildsMembers v w ts) : BuildsMembers v (u ++ w) (ss ++ ts) := by
  intro inner closer rest o hinner hcloser hrest
  have hne : u ≠ [] := by
    rintro rfl
    cases hstarts
  have hfront : frontKind (u ++ (w ++ rest)) = frontKind u := frontKind_append hne _
  have hstops : (decide (frontKind u = .eof) || decide (some (frontKind u) = closer)) = false := by
    rw [Bool.or_eq_false_iff, decide_eq_false_iff_not, decide_eq_false_iff_not]
    refine ⟨fun heof => ?_, fun hclosing => ?_⟩
    · rw [heof] at hstarts
      cases hstarts
    · rw [hcloser _ hclosing.symm] at hstarts
      cases hstarts
  have hround : Reads v (memberRound inner closer) (u ++ (w ++ rest)) o true (w ++ rest) (o ++ ss) := by
    rw [memberRound_eq]
    exact .listRound_of_starts (by rw [hfront]; exact hstops) (by rwa [hfront]) (hinner h (by simp))
  rw [List.append_assoc, ← List.append_assoc o]
  exact .more hround (by simp [List.length_pos_iff.2 hne])
    (h' (fun hu hle => hinner hu (hle.trans (by simp))) hcloser hrest)

/-- The members of a file. -/
theorem BuildsMembers.members (h : BuildsMembers v w ss) {rest : List Leaf} {o : List Shape}
    (hrest : frontKind rest = .eof) : Reads v members (w ++ rest) o () rest (o ++ ss) := by
  have hrounds : Rounds v (memberRound member none) (w ++ rest) o rest (o ++ ss) :=
    h (fun hu _ => hu.member) nofun (.inl hrest)
  exact .within hrounds.reads

end Members

end Parse

end IncrementalSyntax

import IncrementalSyntax.Proofs.Directive.Groups
import IncrementalSyntax.Proofs.Token.Normal
import IncrementalSyntax.Proofs.Tree.Directives

/-!
# What a false branch leaves out

The pieces of trivia in front of a token can be walked through with the directive state: each directive among them
takes effect, and nothing else does. Where the state is not active, a piece is made of lines that are left out, or it
is one of the directives that make up conditionals, or the white space in front of such a directive. Where it is
active, no line is left out, and every token but the one that ends the text stands there. So what a false branch holds
has no effect: nothing that it defines, opens or reports gets through.

## Main definitions

* `DirectiveState.behind`: the state behind some pieces of trivia
* `Trivia.complaints`: what is reported in pieces of trivia
* `Leaf.LeavesOut`: a token in front of which just the inactive text is left out

## Main results

* `Leading.Walked.step`: every piece of trivia is what the state in front of it asks for
* `leavesOut_scan`: the tokens of a text leave out just the inactive text
-/

namespace IncrementalSyntax

/-! ## Walking through trivia -/

/-- The state behind some pieces of trivia: each directive among them takes effect, one after the other. -/
def DirectiveState.behind (s : DirectiveState) (ps : List Trivia) : DirectiveState :=
  s.after ((ps.filter Trivia.isDirective).map fun p => p.text.line)

namespace DirectiveState

variable {s : DirectiveState}

@[simp] theorem behind_nil (s : DirectiveState) : s.behind [] = s := rfl

theorem behind_append (s : DirectiveState) (ps qs : List Trivia) : s.behind (ps ++ qs) = (s.behind ps).behind qs := by
  simp [behind, after]

/-- Pieces without a directive leave the state alone. -/
theorem behind_eq (s : DirectiveState) {ps : List Trivia} (h : ∀ p ∈ ps, p.isDirective = false) : s.behind ps = s := by
  have hfilter : ps.filter Trivia.isDirective = [] := List.filter_eq_nil_iff.2 fun p hp => by simp [h p hp]
  rw [behind, hfilter]
  rfl

theorem behind_directive (s : DirectiveState) (kind : DirectiveKind) (text : Text) :
    s.behind [⟨.trivia (.directive kind), text⟩] = (DirectiveLine.process text.line s).state := rfl

end DirectiveState

namespace Trivia

/-- The directives that make up conditionals. -/
def conditionalKinds : List DirectiveKind := [.ifDir, .elifDir, .elseDir, .endifDir]

/-- **Conditional.** A directive that makes up a conditional, in the text of a branch that is left out as well. -/
def IsConditional (p : Trivia) : Prop := ∃ k ∈ conditionalKinds, p.kind = .trivia (.directive k)

/-- What is reported in a piece of trivia at an offset: what a directive complains of in the state there, and a comment
that is not closed. -/
def complaint (s : DirectiveState) (offset : Nat) (p : Trivia) : List Diagnostic :=
  match p.kind with
  | .trivia (.directive _) => (DirectiveLine.process p.text.line s).diagnostics.map (·.shift offset)
  | .trivia .multiLineComment => (Comment.ofBody (p.text.drop 2)).complain offset
  | _ => []

/-- What is reported in pieces of trivia in a row, the first of which stands at an offset. -/
def complaints : DirectiveState → Nat → List Trivia → List Diagnostic
  | _, _, [] => []
  | s, offset, p :: ps => p.complaint s offset ++ complaints (s.behind [p]) (offset + Text.width p.text) ps

theorem complaints_append (s : DirectiveState) (offset : Nat) (ps qs : List Trivia) :
    complaints s offset (ps ++ qs) = complaints s offset ps ++ complaints (s.behind ps) (offset + widthAll ps) qs := by
  induction ps generalizing s offset with
  | nil => simp [complaints, widthAll]
  | cons p ps ih =>
    rw [List.cons_append, complaints, complaints, ih, ← DirectiveState.behind_append, List.append_assoc, widthAll,
      Nat.add_assoc]
    rfl

theorem complaints_singleton (s : DirectiveState) (offset : Nat) (p : Trivia) :
    complaints s offset [p] = p.complaint s offset := by
  rw [complaints, complaints, List.append_nil]

end Trivia

/-- **Leaves out.** In front of a token that begins in a state, just the inactive text is left out. -/
structure Leaf.LeavesOut (s : DirectiveState) (l : Leaf) : Prop where
  /-- Inactive text is left out, up to the next directive that makes up a conditional. -/
  inactive : ∀ before p after, l.leading = before ++ p :: after → (s.behind before).isActive = false →
    p.kind = .trivia .disabledText ∨ p.IsConditional ∨
      p.kind = .trivia .whitespace ∧ ∃ q ∈ after.head?, q.IsConditional
  /-- Active text is not left out. -/
  active : ∀ before p after, l.leading = before ++ p :: after → (s.behind before).isActive = true →
    p.kind ≠ .trivia .disabledText
  /-- What is left out reports nothing and takes no effect. -/
  silent : ∀ before p after, l.leading = before ++ p :: after → (s.behind before).isActive = false →
    ¬p.IsConditional → s.behind (before ++ [p]) = s.behind before ∧
      p.complaint (s.behind before) (Trivia.widthAll before) = []
  /-- A directive is what its line is where it stands. -/
  directive : ∀ before text after k, l.leading = before ++ ⟨.trivia (.directive k), text⟩ :: after →
    (DirectiveLine.process text.line (s.behind before)).kind = k
  /-- The text of a token and the trivia behind it are active. -/
  text : l.kind ≠ .token .eof → ∀ before after, l.trailing = before ++ after →
    (s.behind (l.leading ++ before)).isActive = true
  /-- No line is left out behind the text. -/
  trailing : ∀ p ∈ l.trailing, p.kind ≠ .trivia .disabledText
  /-- What is reported in front of the text is what directives and open comments are. -/
  reports : ∃ own, l.diagnostics = Trivia.complaints s 0 l.leading ++ own ∧ ∀ d ∈ own, l.leadingWidth ≤ d.offset

/-! ## Leading trivia -/

/-- Blanks in a line do not end it. -/
theorem Text.dropWhile_line (t : Text) : t.line.dropWhile isBlankInLine = line (t.dropWhile isBlankInLine) := by
  induction t with
  | nil => rfl
  | cons c t ih =>
    by_cases hblank : isBlankInLine c = true
    · have hbreak := not_isLineBreak_of_isBlankInLine hblank
      have hline : line (c :: t) = c :: line t := by simp [line, hbreak]
      rw [hline, List.dropWhile_cons_of_pos hblank, List.dropWhile_cons_of_pos hblank, ih]
    · rw [List.dropWhile_cons_of_neg hblank]
      by_cases hbreak : isLineBreak c = true
      · simp [line, hbreak]
      · have hline : line (c :: t) = c :: line t := by simp [line, hbreak]
        rw [hline, List.dropWhile_cons_of_neg hblank]

theorem DirectiveLine.kind_process_of_isConditional {line : Text} (h : isConditional line = true) (s : DirectiveState) :
    (process line s).kind ∈ Trivia.conditionalKinds := by
  rw [isConditional_eq, Bool.and_eq_true] at h
  have hmem : name line ∈ groupWords.map String.toList := by simpa using h.2
  simp only [groupWords, List.map_cons, List.map_nil, List.mem_cons, List.not_mem_nil, or_false] at hmem
  rcases hmem with hname | hname | hname | hname
  · have hkind : (process line s).kind = .ifDir := by rw [process_if hname, processIf]
    exact hkind ▸ by decide
  · have hkind : (process line s).kind = .elifDir := by
      rw [process_elif hname, processElif]
      split <;> rfl
    exact hkind ▸ by decide
  · have hkind : (process line s).kind = .elseDir := by
      rw [process_else hname, processElse]
      split <;> rfl
    exact hkind ▸ by decide
  · have hkind : (process line s).kind = .endifDir := by
      rw [process_endif hname, processEndif]
      split <;> rfl
    exact hkind ▸ by decide

namespace Leading

variable {s : DirectiveState} {l l' : Leading}

/-- The next piece is a directive that makes up a conditional. -/
def AtConditional (l : Leading) : Prop := l.lineStart = true ∧ DirectiveLine.isConditional l.rest.line = true

/-- Such a directive begins with its sign. -/
theorem AtConditional.exists_rest (h : l.AtConditional) : ∃ t, l.rest = '#' :: t := by
  have hhead := beq_iff_eq.1 (Bool.and_eq_true_iff.1 h.2).1
  cases hrest : l.rest with
  | nil =>
    rw [hrest] at hhead
    cases hhead
  | cons c t =>
    rw [hrest, Text.line, List.takeWhile_cons] at hhead
    split at hhead
    · obtain rfl := Option.some.inj hhead
      exact ⟨t, rfl⟩
    · cases hhead

/-- **Walked.** The pieces read so far are what the states in front of them ask for, and so is the state. -/
structure Walked (s : DirectiveState) (l : Leading) : Prop where
  state : l.state = s.behind l.pieces
  diagnostics : l.diagnostics = Trivia.complaints s 0 l.pieces
  inactive : ∀ before p after, l.pieces = before ++ p :: after → (s.behind before).isActive = false →
    p.kind = .trivia .disabledText ∨ p.IsConditional ∨
      p.kind = .trivia .whitespace ∧ ((∃ q ∈ after.head?, q.IsConditional) ∨ after = [] ∧ l.AtConditional)
  active : ∀ before p after, l.pieces = before ++ p :: after → (s.behind before).isActive = true →
    p.kind ≠ .trivia .disabledText
  directive : ∀ before text after k, l.pieces = before ++ ⟨.trivia (.directive k), text⟩ :: after →
    (DirectiveLine.process text.line (s.behind before)).kind = k

/-- **Asked.** A piece is what a state in front of it asks for, if some trivia have been read in that state. -/
structure Asked (l l' : Leading) (q : Trivia) : Prop where
  state : l'.state = l.state.behind [q]
  diagnostics : l'.diagnostics = l.diagnostics ++ q.complaint l.state l.offset
  inactive : l.state.isActive = false →
    q.kind = .trivia .disabledText ∨ q.IsConditional ∨ q.kind = .trivia .whitespace ∧ l'.AtConditional
  active : l.state.isActive = true → q.kind ≠ .trivia .disabledText
  directive : ∀ text k, q = ⟨.trivia (.directive k), text⟩ → (DirectiveLine.process text.line l.state).kind = k
  pending : l.state.isActive = false → l.AtConditional → q.IsConditional

/-- The last piece of a split is the new one, or the split is one of the pieces in front of it. -/
theorem split_concat {before after ps : List Trivia} {p q : Trivia} (h : ps ++ [q] = before ++ p :: after) :
    (after = [] ∧ p = q ∧ before = ps) ∨ ∃ after', after = after' ++ [q] ∧ ps = before ++ p :: after' := by
  rcases List.eq_nil_or_concat after with rfl | ⟨after', e, rfl⟩
  · obtain ⟨rfl, hq⟩ := List.append_inj' h rfl
    exact .inl ⟨rfl, (List.singleton_inj.1 hq).symm, rfl⟩
  · rw [List.concat_eq_append] at h ⊢
    rw [← List.cons_append, ← List.append_assoc] at h
    obtain ⟨rfl, hq⟩ := List.append_inj' h rfl
    rw [List.singleton_inj.1 hq]
    exact .inr ⟨after', rfl, rfl⟩

/-- White space leaves the state alone. -/
theorem behind_whitespace {p : Trivia} (h : p.kind = .trivia .whitespace) (s : DirectiveState) : s.behind [p] = s :=
  s.behind_eq (List.forall_mem_singleton.2 (by simp [Trivia.isDirective, h, Kind.isTriviaThat, TriviaKind.isDirective]))

/-- One more piece, if it is what the state asks for. -/
theorem Walked.push (h : Walked s l) {q : Trivia} (hpieces : l'.pieces = l.pieces ++ [q]) (hq : Asked l l' q) :
    Walked s l' where
  state := by rw [hq.state, hpieces, DirectiveState.behind_append, ← h.state]
  diagnostics := by
    rw [hq.diagnostics, hpieces, Trivia.complaints_append, ← h.state, ← h.diagnostics, Nat.zero_add,
      Trivia.complaints_singleton, offset]
  inactive := by
    intro before p after hsplit hactive
    rcases split_concat (hpieces ▸ hsplit) with ⟨rfl, rfl, rfl⟩ | ⟨after', rfl, hpieces'⟩
    · rw [← h.state] at hactive
      exact (hq.inactive hactive).imp_right (Or.imp_right (And.imp_right fun hnext => .inr ⟨rfl, hnext⟩))
    · refine (h.inactive before p after' hpieces' hactive).imp_right (Or.imp_right ?_)
      rintro ⟨hkind, ⟨r, hr, hcond⟩ | ⟨rfl, hnext⟩⟩
      · refine ⟨hkind, .inl ⟨r, ?_, hcond⟩⟩
        rw [List.head?_append, hr]
        rfl
      -- the white space was the last piece, and what it announces comes now
      · have hstate : l.state = s.behind before := by
          rw [h.state, hpieces', DirectiveState.behind_append, behind_whitespace hkind]
        exact ⟨hkind, .inl ⟨q, rfl, hq.pending (hstate ▸ hactive) hnext⟩⟩
  active := by
    intro before p after hsplit hactive
    rcases split_concat (hpieces ▸ hsplit) with ⟨rfl, rfl, rfl⟩ | ⟨after', rfl, hpieces'⟩
    · exact hq.active (h.state ▸ hactive)
    · exact h.active before p after' hpieces' hactive
  directive := by
    intro before text after k hsplit
    rcases split_concat (hpieces ▸ hsplit) with ⟨rfl, hkind, rfl⟩ | ⟨after', rfl, hpieces'⟩
    · rw [← h.state]
      exact hq.directive text k hkind.symm
    · exact h.directive before text after' k hpieces'

/-- One more line of a piece that is left out. -/
theorem Walked.extend (h : Walked s l) {qs : List Trivia} {u v : Text}
    (hpieces : l.pieces = qs ++ [⟨.trivia .disabledText, u⟩]) (hpieces' : l'.pieces = qs ++ [⟨.trivia .disabledText, v⟩])
    (hstate : l'.state = l.state) (hdiag : l'.diagnostics = l.diagnostics) : Walked s l' where
  state := by
    rw [hstate, h.state, hpieces, hpieces', DirectiveState.behind_append, DirectiveState.behind_append]
    rfl
  diagnostics := by
    rw [hdiag, h.diagnostics, hpieces, hpieces', Trivia.complaints_append, Trivia.complaints_append]
    rfl
  inactive := by
    intro before p after hsplit hactive
    rcases split_concat (hpieces' ▸ hsplit) with ⟨-, rfl, -⟩ | ⟨after', rfl, rfl⟩
    · exact .inl rfl
    · have hsplit' : l.pieces = before ++ p :: (after' ++ [⟨.trivia .disabledText, u⟩]) := by simp [hpieces]
      refine (h.inactive before p _ hsplit' hactive).imp_right (Or.imp_right ?_)
      rintro ⟨hkind, ⟨r, hr, k, hk, hcond⟩ | ⟨hnil, -⟩⟩
      -- only the text of the last piece has changed, and that is no directive
      · refine ⟨hkind, .inl ⟨r, ?_, k, hk, hcond⟩⟩
        cases after' with
        | nil =>
          obtain rfl := Option.some.inj hr
          cases hcond
        | cons e after' => exact hr
      · simp at hnil
  active := by
    intro before p after hsplit hactive
    rcases split_concat (hpieces' ▸ hsplit) with ⟨-, rfl, rfl⟩ | ⟨after', rfl, rfl⟩
    · exact absurd rfl (h.active before _ [] hpieces hactive)
    · exact h.active before p (after' ++ [⟨.trivia .disabledText, u⟩]) (by simp [hpieces]) hactive
  directive := by
    intro before text after k hsplit
    rcases split_concat (hpieces' ▸ hsplit) with ⟨-, hkind, -⟩ | ⟨after', rfl, rfl⟩
    · cases hkind
    · exact h.directive before text (after' ++ [⟨.trivia .disabledText, u⟩]) k (by simp [hpieces])

/-- Where text is left out, what is not begins a line that makes up a conditional, perhaps behind blanks. -/
theorem isConditional_of_inactive (hact : l.state.isActive = false) (hd : l.isDisabled = false) :
    l.lineStart = true ∧ DirectiveLine.isConditional (Text.line (l.rest.dropWhile isBlankInLine)) = true := by
  rw [isDisabled, hact, Bool.not_false, Bool.true_and, Bool.not_eq_false', Bool.and_eq_true, Text.dropWhile_line] at hd
  exact hd

/-- Only where text is compiled, a piece begins with a character that is neither a blank nor a number sign. -/
theorem isActive_of_not_isDisabled {c : Char} {t : Text} (hd : l.isDisabled = false) (hrest : l.rest = c :: t)
    (hc : isBlankInLine c = false ∧ c ≠ '#') : l.state.isActive = true := by
  by_contra hact
  rw [Bool.not_eq_true] at hact
  rcases exists_step_of_conditional hact hd with ⟨d, u, hrest', hd⟩ | ⟨u, hrest', -⟩
  · obtain ⟨rfl, -⟩ := List.cons.inj (hrest.symm.trans hrest')
    rw [hc.1] at hd
    cases hd
  · exact hc.2 (List.cons.inj (hrest.symm.trans hrest')).1

/-- A piece of active text that is no directive. -/
theorem Asked.of_active {q : Trivia} (hact : l.state.isActive = true) (hstate : l'.state = l.state.behind [q])
    (hdiag : l'.diagnostics = l.diagnostics ++ q.complaint l.state l.offset)
    (hkind : q.kind ≠ .trivia .disabledText ∧ q.isDirective = false) : Asked l l' q where
  state := hstate
  diagnostics := hdiag
  inactive hinact := by
    rw [hact] at hinact
    cases hinact
  active _ := hkind.1
  directive text k hq := by
    rw [hq] at hkind
    cases hkind.2
  pending hinact := by
    rw [hact] at hinact
    cases hinact

/-- The comment in a piece is closed if it was closed in the text. -/
theorem complain_ofBody_text (t : Text) (offset : Nat) :
    (Comment.ofBody ((Comment.ofBody t).text.drop 2)).complain offset = (Comment.ofBody t).complain offset := by
  cases hclosed : (Comment.ofBody t).closed with
  | false =>
    have hopen : Comment.ofBody t = ⟨'/' :: '*' :: t, [], false⟩ := by
      unfold Comment.ofBody at hclosed ⊢
      split at hclosed
      · cases hclosed
      · rfl
    rw [hopen]
    exact congrArg (Comment.complain · offset) hopen
  | true =>
    obtain ⟨body, -, htext, -, hlocal⟩ := Comment.ofBody_of_closed hclosed
    have hbody := hlocal []
    rw [List.append_nil] at hbody
    rw [htext]
    show (Comment.ofBody body).complain offset = _
    rw [hbody, Comment.complain, Comment.complain, if_pos rfl, if_pos hclosed]

/-- **Every piece of trivia is what the state in front of it asks for.** -/
theorem Walked.step (h : Walked s l) (hstep : Step l l') : Walked s l' := by
  cases hstep with
  | disable hne hd =>
    have hdisabled := Bool.and_eq_true_iff.1 hd
    have hact : l.state.isActive = false := by simpa using hdisabled.1
    rcases appendDisabled_cases l.rest.fullLine l.pieces with ⟨qs, u, hpieces, happ⟩ | ⟨-, happ⟩
    · exact h.extend hpieces happ rfl rfl
    · refine h.push happ ⟨rfl, (List.append_nil _).symm, fun _ => .inl rfl, fun hact' => ?_, nofun, fun _ hnext => ?_⟩
      · rw [hact] at hact'
        cases hact'
      · -- such a directive is not left out
        obtain ⟨t, hrest⟩ := hnext.exists_rest
        have hline : l.rest.line.dropWhile isBlankInLine = l.rest.line := by
          rw [hrest]
          rfl
        have hno := hdisabled.2
        rw [hline, hnext.1, hnext.2] at hno
        cases hno
  | @blank c t hd hrest hc =>
    refine h.push rfl ⟨rfl, (List.append_nil _).symm, fun hact => .inr (.inr ⟨rfl, ?_⟩), nofun, nofun, fun _ hnext => ?_⟩
    · obtain ⟨hstart, hcond⟩ := isConditional_of_inactive hact hd
      rw [hrest, List.dropWhile_cons_of_pos hc] at hcond
      exact ⟨hstart, hcond⟩
    · obtain ⟨u, hrest'⟩ := hnext.exists_rest
      obtain ⟨rfl, -⟩ := List.cons.inj (hrest.symm.trans hrest')
      cases hc
  | @endOfLine c t hd hrest hc =>
    have hact := isActive_of_not_isDisabled hd hrest
      ⟨not_isBlankInLine_of_isLineBreak hc, ne_of_isLineBreak hc (by decide)⟩
    exact h.push rfl (.of_active hact rfl (List.append_nil _).symm ⟨nofun, rfl⟩)
  | lineComment hd hrest =>
    have hact := isActive_of_not_isDisabled hd hrest (by decide)
    exact h.push rfl (.of_active hact rfl (List.append_nil _).symm ⟨nofun, rfl⟩)
  | @blockComment t hd hrest =>
    have hact := isActive_of_not_isDisabled hd hrest (by decide)
    refine h.push rfl (.of_active hact rfl ?_ ⟨nofun, rfl⟩)
    show l.diagnostics ++ (Comment.ofBody t).complain l.offset = _
    rw [← complain_ofBody_text]
    rfl
  | @directive t hd hrest hstart =>
    have hline := Text.line_fullLine l.rest
    have hcond : l.AtConditional →
        Trivia.IsConditional ⟨.trivia (.directive (DirectiveLine.process l.rest.line l.state).kind), l.rest.fullLine⟩ :=
      fun hnext => ⟨_, DirectiveLine.kind_process_of_isConditional hnext.2 l.state, rfl⟩
    refine h.push rfl ⟨?_, ?_, fun hact => .inr (.inl (hcond ?_)), nofun, ?_, fun _ => hcond⟩
    · rw [DirectiveState.behind_directive, hline]
      rfl
    · show _ = l.diagnostics ++ (DirectiveLine.process l.rest.fullLine.line l.state).diagnostics.map _
      rw [hline]
      rfl
    · obtain ⟨-, hcond⟩ := isConditional_of_inactive hact hd
      rw [hrest] at hcond
      exact ⟨hstart, by rw [hrest]; exact hcond⟩
    · rintro text k ⟨⟩
      rw [hline]

theorem walked_run {fuel : Nat} (h : Walked s l) : Walked s (run fuel l) := by
  induction fuel generalizing l with
  | zero => exact h
  | succ fuel ih =>
    unfold run
    split
    · next l' hs => exact ih (h.step (.of_step? hs))
    · exact h

theorem walked_read (s : DirectiveState) (lineStart : Bool) (t : Text) : Walked s (read s lineStart t) :=
  walked_run ⟨rfl, rfl, by simp, by simp, by simp⟩

/-- Leading trivia does not end in front of a directive that makes up a conditional. -/
theorem not_atConditional_of_step?_eq_none (h : l.step? = none) : ¬l.AtConditional := by
  intro hnext
  obtain ⟨t, hrest⟩ := hnext.exists_rest
  obtain ⟨l', hs, -⟩ := step?_directive hnext.1 (by rw [hrest, List.head?_cons])
  rw [h] at hs
  cases hs

/-- Inactive pieces at the end of the trivia. -/
theorem Walked.inactive_of_step?_eq_none (h : Walked s l) (hstop : l.step? = none) {before after : List Trivia}
    {p : Trivia} (hsplit : l.pieces = before ++ p :: after) (hact : (s.behind before).isActive = false) :
    p.kind = .trivia .disabledText ∨ p.IsConditional ∨
      p.kind = .trivia .whitespace ∧ ∃ q ∈ after.head?, q.IsConditional := by
  refine (h.inactive before p after hsplit hact).imp_right (Or.imp_right ?_)
  rintro ⟨hkind, hnext | ⟨-, hnext⟩⟩
  · exact ⟨hkind, hnext⟩
  · exact absurd hnext (not_atConditional_of_step?_eq_none hstop)

/-- A token whose leading trivia have been walked through. -/
theorem Walked.leavesOut (h : Walked s l) (hstop : l.step? = none) {leaf : Leaf} (hleading : leaf.leading = l.pieces)
    (htext : leaf.kind ≠ .token .eof → l.rest ≠ [])
    (htrailing : ∀ p ∈ leaf.trailing, p.isDirective = false ∧ p.kind ≠ .trivia .disabledText)
    (hreports : ∃ own, leaf.diagnostics = l.diagnostics ++ own ∧ ∀ d ∈ own, leaf.leadingWidth ≤ d.offset) :
    leaf.LeavesOut s where
  inactive before p after hsplit := h.inactive_of_step?_eq_none hstop (hleading ▸ hsplit)
  active before p after hsplit := h.active before p after (hleading ▸ hsplit)
  silent before p after hsplit hact hcond := by
    have hkind : p.kind = .trivia .disabledText ∨ p.kind = .trivia .whitespace :=
      (h.inactive_of_step?_eq_none hstop (hleading ▸ hsplit) hact).imp_right fun h' =>
        h'.elim (fun hp => absurd hp hcond) And.left
    have hdirective : p.isDirective = false := by
      rcases hkind with hkind | hkind <;>
        simp [Trivia.isDirective, hkind, Kind.isTriviaThat, TriviaKind.isDirective]
    refine ⟨?_, ?_⟩
    · rw [DirectiveState.behind_append, DirectiveState.behind_eq _ (List.forall_mem_singleton.2 hdirective)]
    · rcases hkind with hkind | hkind <;> rw [Trivia.complaint, hkind]
  directive before text after k hsplit := h.directive before text after k (hleading ▸ hsplit)
  text hkind before after hsplit := by
    have hbefore : ∀ p ∈ before, p.isDirective = false :=
      fun p hp => (htrailing p (hsplit ▸ List.mem_append_left _ hp)).1
    rw [DirectiveState.behind_append, DirectiveState.behind_eq _ hbefore, hleading, ← h.state]
    exact isActive_of_step?_eq_none hstop (htext hkind)
  trailing p hp := (htrailing p hp).2
  reports := by
    obtain ⟨own, hdiag, hown⟩ := hreports
    exact ⟨own, by rw [hdiag, h.diagnostics, hleading], hown⟩

end Leading

/-! ## Tokens -/

/-- What is reported behind a token stands there. -/
theorem Trailing.le_offset_run {fuel offset : Nat} {t : Text} :
    ∀ d ∈ (run fuel offset t).diagnostics, offset ≤ d.offset := by
  fun_induction run fuel offset t with
  | case1 => simp
  | case2 => simp
  | case3 fuel offset c t hc text ih => exact fun d hd => (Nat.le_add_right _ _).trans (ih d hd)
  | case4 fuel offset c t hc hl text ih => exact fun d hd => (Nat.le_add_right _ _).trans (ih d hd)
  | case5 fuel offset c t hc hl hs comment ih =>
    intro d hd
    rcases List.mem_append.1 hd with hd | hd
    · unfold Comment.complain at hd
      split at hd
      · cases hd
      · rw [List.mem_singleton.1 hd]
        exact le_rfl
    · exact (Nat.le_add_right _ _).trans (ih d hd)
  | case6 => simp
  | case7 => simp

theorem RawToken.le_offset_complain {raw : RawToken} {offset : Nat} : ∀ d ∈ raw.complain offset, offset ≤ d.offset := by
  intro d hd
  unfold complain at hd
  split at hd
  · cases hd
  · rw [List.mem_singleton.1 hd]
    exact le_rfl
  · rw [List.mem_singleton.1 hd]
    exact le_rfl

section Scans

variable (c : Context) (t : Text)

theorem leavesOut_leaf_scan : (scan c t).leaf.LeavesOut c.directives := by
  have hwalked := Leading.walked_read c.directives c.lineStart t
  have hstop : (Leading.read c.directives c.lineStart t).step? = none := Leading.step?_run le_rfl
  rcases scan_cases c t with ⟨-, hs⟩ | ⟨d, z, hrest, hs⟩ <;> rw [hs]
  · refine hwalked.leavesOut hstop rfl (fun hkind => absurd rfl hkind) (by simp [Scan.atEnd]) ⟨_, rfl, fun d hd => ?_⟩
    split at hd
    · rw [List.mem_singleton.1 hd]
      exact le_rfl
    · cases hd
  · refine hwalked.leavesOut hstop rfl (fun _ => by simp [hrest])
      (fun p hp => ⟨Trailing.isDirective_run p hp, (Trailing.normal_run _ _ _).ne_disabledText p hp⟩)
      ⟨_, List.append_assoc .., fun d hd => ?_⟩
    rcases List.mem_append.1 hd with hd | hd
    · exact RawToken.le_offset_complain d hd
    · exact (Nat.le_add_right _ _).trans (Trailing.le_offset_run d hd)

/-- The directives in front of a token are the only pieces of trivia that take effect. -/
theorem directives_scan_eq_behind : (scan c t).context.directives = c.directives.behind (scan c t).leaf.trivia := by
  have hstate := (Leading.walked_read c.directives c.lineStart t).state
  rcases scan_cases c t with ⟨-, hs⟩ | ⟨d, z, -, hs⟩ <;> rw [hs, Leaf.trivia, DirectiveState.behind_append]
  · exact hstate
  · exact hstate.trans (DirectiveState.behind_eq _ Trailing.isDirective_run).symm

end Scans

theorem Scanned.directives_eq_behind {c c' : Context} {t t' : Text} {ls : List Leaf} {es : List DirectiveEntry}
    (h : Scanned c t ls c' t' es) : c'.directives = c.directives.behind (ls.flatMap Leaf.trivia) := by
  induction h with
  | nil c t => rfl
  | cons h ih => rw [ih, directives_scan_eq_behind, ← DirectiveState.behind_append, List.flatMap_cons]

/-- **What a false branch leaves out.** In front of every token just the inactive text is left out, and behind it the
state is what the directives in front of it make of the state there, which are all that the scan finds. In the tokens
of a text each one begins in the state that all directives before it have left. -/
theorem leavesOut_scan (c : Context) (t : Text) :
    (scan c t).leaf.LeavesOut c.directives ∧
    (scan c t).context.directives = c.directives.behind (scan c t).leaf.trivia ∧
    (scan c t).entries = DirectiveEntry.replay c.directives (Leaf.placeTrivia 0 [(scan c t).leaf]) ∧
    ∀ as l bs, tokenizeRest c t = as ++ l :: bs → l.LeavesOut (c.directives.behind (as.flatMap Leaf.trivia)) := by
  refine ⟨leavesOut_leaf_scan c t, directives_scan_eq_behind c t, entries_scan_eq_replay c t, fun as l bs h => ?_⟩
  obtain ⟨c', t', es, hs, -, hrest⟩ := Scanned.of_prefix h (List.cons_ne_nil l bs)
  have hhead := head?_tokenizeRest c' t'
  rw [← hrest, List.head?_cons] at hhead
  rw [Option.some.inj hhead, ← hs.directives_eq_behind]
  exact leavesOut_leaf_scan c' t'

/-- A false branch with a reported error and a comment and a string that are not closed. -/
theorem leavesOut_scan_unclosed :
    let t := "#if A\n#error B\n/* \"\n#endif\nx".toList
    let first := (scan (.initial []) t).leaf
    let last := (scan (scan (.initial []) t).context (scan (.initial []) t).rest).leaf
    first.leading.map Trivia.kind =
        [.trivia (.directive .ifDir), .trivia .disabledText, .trivia (.directive .endifDir)] ∧
      first.diagnostics = [] ∧ first.LeavesOut (.ofSymbols []) ∧
      last.LeavesOut ((DirectiveState.ofSymbols []).behind first.trivia) := by
  intro t first last
  obtain ⟨hfirst, -, -, hall⟩ := leavesOut_scan (.initial []) t
  have hlast := hall [first] last [] (by decide +kernel)
  rw [List.flatMap_singleton] at hlast
  exact ⟨by decide +kernel, by decide +kernel, hfirst, hlast⟩

end IncrementalSyntax

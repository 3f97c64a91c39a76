import IncrementalSyntax.Proofs.Directive.Complaints
import IncrementalSyntax.Proofs.Tree.LeftOut

/-!
# What is reported in a token

The diagnostics of a scanned token come in the order in which it was read: those of its leading trivia, then the one of
its text, then those of its trailing trivia. Each covers whole characters of the piece it is about, and each piece has
one at most, so their offsets never decrease and none of them leaves the token.

## Main definitions

* `Trivia.Signed`: a block comment that was read behind its sign
* `Diagnostic.InOrder`: diagnostics whose offsets do not decrease
* `Leaf.Reports`: the diagnostics of a token, part by part

## Main results

* `Trivia.mem_complaints`: what is reported in pieces in a row is reported in one of them
* `reports_scan`: what is reported in a scanned token
* `Leaf.Reports.inOrder`, `Leaf.Reports.marks`, `Leaf.Reports.cases`: its order, where it stands, and what it is about
-/

namespace IncrementalSyntax

/-- **In order.** The offsets of some diagnostics do not decrease. -/
def Diagnostic.InOrder (ds : List Diagnostic) : Prop := ds.Pairwise fun d e => d.offset ≤ e.offset

theorem Diagnostic.inOrder_of_length_le {ds : List Diagnostic} (h : ds.length ≤ 1) : InOrder ds := by
  match ds, h with
  | [], _ => exact .nil
  | [d], _ => exact List.pairwise_singleton _ d

namespace Trivia

variable {s : DirectiveState} {offset : Nat} {p : Trivia} {ps : List Trivia} {d : Diagnostic}

/-! ## One piece -/

/-- **Signed.** A block comment was read behind its sign. -/
def Signed (p : Trivia) : Prop := p.kind = .trivia .multiLineComment → ∃ t, p.text = (Comment.ofBody t).text

theorem Signed.of_ne (h : p.kind ≠ .trivia .multiLineComment) : p.Signed := fun hcomment => absurd hcomment h

theorem exists_kind_of_isDirective (h : p.isDirective = true) : ∃ k, p.kind = .trivia (.directive k) := by
  unfold isDirective at h
  match hkind : p.kind with
  | .trivia (.directive k) => exact ⟨k, rfl⟩
  | .node _ | .token _ => simp [hkind, Kind.isTriviaThat] at h
  | .trivia .whitespace | .trivia .endOfLine | .trivia .singleLineComment | .trivia .multiLineComment
  | .trivia .disabledText => simp [hkind, Kind.isTriviaThat, TriviaKind.isDirective] at h

/-- What is reported in a piece: nothing, what a directive complains of, or that a comment is not closed. -/
theorem complaint_cases (hsigned : p.Signed) (s : DirectiveState) (offset : Nat) :
    p.complaint s offset = [] ∨
      (p.isDirective = true ∧
        p.complaint s offset = (DirectiveLine.process p.text.line s).diagnostics.map (·.shift offset)) ∨
      (p.isDirective = false ∧ p.complaint s offset = [.ofCode .openComment offset (Text.width p.text) []]) := by
  unfold complaint
  split
  · next k hkind =>
    exact .inr (.inl ⟨by simp [isDirective, hkind, Kind.isTriviaThat, TriviaKind.isDirective], rfl⟩)
  · next hkind =>
    obtain ⟨t, ht⟩ := hsigned hkind
    rw [ht, Leading.complain_ofBody_text]
    cases hclosed : (Comment.ofBody t).closed with
    | true => exact .inl (if_pos hclosed)
    | false =>
      refine .inr (.inr ⟨by simp [isDirective, hkind, Kind.isTriviaThat, TriviaKind.isDirective], ?_⟩)
      rw [Comment.complain, if_neg (by simp [hclosed])]
  · exact .inl rfl

theorem length_complaint_le (hsigned : p.Signed) : (p.complaint s offset).length ≤ 1 := by
  rcases complaint_cases hsigned s offset with h | ⟨-, h⟩ | ⟨-, h⟩
  · simp [h]
  · rw [h, List.length_map]
    exact (DirectiveLine.complains_process _ _).length_le
  · simp [h]

/-- What is reported in a piece is what its directive complains of, or that it is a comment which is not closed. -/
theorem mem_complaint (hsigned : p.Signed) (hd : d ∈ p.complaint s offset) :
    (p.isDirective = true ∧ ∃ d₀ ∈ (DirectiveLine.process p.text.line s).diagnostics, d₀.shift offset = d) ∨
      (p.isDirective = false ∧ d = .ofCode .openComment offset (Text.width p.text) []) := by
  rcases complaint_cases hsigned s offset with h | ⟨hdirective, h⟩ | ⟨hdirective, h⟩
  · rw [h] at hd
    cases hd
  · rw [h] at hd
    exact .inl ⟨hdirective, List.mem_map.1 hd⟩
  · rw [h] at hd
    exact .inr ⟨hdirective, List.mem_singleton.1 hd⟩

/-- What a directive reports covers whole characters of its line. -/
theorem marks_line (hsigned : p.Signed) (hdirective : p.isDirective = true) (hd : d ∈ p.complaint s offset) :
    ∃ n, d.offset = offset + n ∧ p.text.line.Marks n d.length := by
  rcases mem_complaint hsigned hd with ⟨-, d₀, hd₀, rfl⟩ | ⟨hno, -⟩
  · exact ⟨d₀.offset, Nat.add_comm _ _, ((DirectiveLine.complains_process _ _).of_mem hd₀).1⟩
  · cases hno.symm.trans hdirective

/-- What is reported in a piece covers whole characters of it. -/
theorem marks_complaint (hsigned : p.Signed) (hd : d ∈ p.complaint s offset) :
    ∃ n, d.offset = offset + n ∧ p.text.Marks n d.length := by
  rcases mem_complaint hsigned hd with ⟨hdirective, -⟩ | ⟨-, rfl⟩
  · obtain ⟨n, hn, hmarks⟩ := marks_line hsigned hdirective hd
    have hline : p.text.line ++ p.text.dropWhile (fun c => !Text.isLineBreak c) = p.text :=
      List.takeWhile_append_dropWhile
    exact ⟨n, hn, hline ▸ hmarks.append _⟩
  · exact ⟨0, rfl, .whole _⟩

/-! ## Pieces in a row -/

/-- What is reported in pieces in a row is reported in one of them. -/
theorem mem_complaints : d ∈ complaints s offset ps ↔ ∃ before p after, ps = before ++ p :: after ∧
    d ∈ p.complaint (s.behind before) (offset + widthAll before) := by
  induction ps generalizing s offset with
  | nil => simp [complaints]
  | cons q ps ih =>
    rw [complaints, List.mem_append, ih]
    constructor
    · rintro (hd | ⟨before, p, after, rfl, hd⟩)
      · exact ⟨[], q, ps, rfl, hd⟩
      · refine ⟨q :: before, p, after, rfl, ?_⟩
        rwa [← DirectiveState.behind_append, Nat.add_assoc] at hd
    · rintro ⟨before, p, after, hps, hd⟩
      cases before with
      | nil =>
        obtain ⟨rfl, rfl⟩ := List.cons.inj hps
        exact .inl hd
      | cons q' before =>
        obtain ⟨rfl, rfl⟩ := List.cons.inj hps
        refine .inr ⟨before, p, after, rfl, ?_⟩
        rwa [← DirectiveState.behind_append, Nat.add_assoc]

/-- What is reported in pieces in a row covers whole characters of them. -/
theorem marks_complaints (hsigned : ∀ p ∈ ps, p.Signed) (hd : d ∈ complaints s offset ps) :
    ∃ n, d.offset = offset + n ∧ (textAll ps).Marks n d.length := by
  obtain ⟨before, p, after, rfl, hp⟩ := mem_complaints.1 hd
  obtain ⟨n, hn, hmarks⟩ := marks_complaint (hsigned p (by simp)) hp
  have hwidth : Text.width (textAll before) = widthAll before := (widthAll_eq before).symm
  refine ⟨widthAll before + n, by rw [hn, Nat.add_assoc], ?_⟩
  have htext : textAll (before ++ p :: after) = textAll before ++ p.text ++ textAll after := by simp [textAll]
  rw [htext, ← hwidth]
  exact hmarks.inside _ _

theorem bounds_complaints (hsigned : ∀ p ∈ ps, p.Signed) (hd : d ∈ complaints s offset ps) :
    offset ≤ d.offset ∧ d.offset + d.length ≤ offset + widthAll ps := by
  obtain ⟨n, hn, hmarks⟩ := marks_complaints hsigned hd
  have hle := hmarks.le_width
  rw [widthAll_eq]
  exact ⟨hn ▸ Nat.le_add_right _ _, by omega⟩

theorem inOrder_complaints (hsigned : ∀ p ∈ ps, p.Signed) : Diagnostic.InOrder (complaints s offset ps) := by
  induction ps generalizing s offset with
  | nil => exact .nil
  | cons p ps ih =>
    obtain ⟨hp, hps⟩ := List.forall_mem_cons.1 hsigned
    have hone : Diagnostic.InOrder (p.complaint s offset) := Diagnostic.inOrder_of_length_le (length_complaint_le hp)
    refine List.pairwise_append.2 ⟨hone, ih hps, fun d hd e he => ?_⟩
    -- what is reported in the first piece ends before the next one begins
    obtain ⟨n, hn, hmarks⟩ := marks_complaint hp hd
    have hle := hmarks.le_width
    have hbehind := (bounds_complaints hps he).1
    omega

end Trivia

/-! ## Trivia that have been read -/

namespace Leading

variable {l l' : Leading}

theorem signed_step (h : ∀ p ∈ l.pieces, p.Signed) (hstep : Step l l') : ∀ p ∈ l'.pieces, p.Signed := by
  have hpush : ∀ {q : Trivia}, q.Signed → ∀ p ∈ l.pieces ++ [q], p.Signed := fun hq =>
    List.forall_mem_append.2 ⟨h, List.forall_mem_singleton.2 hq⟩
  cases hstep with
  | disable =>
    show ∀ p ∈ appendDisabled _ _, _
    rcases appendDisabled_cases l.rest.fullLine l.pieces with ⟨qs, u, hpieces, happ⟩ | ⟨-, happ⟩
    · rw [happ]
      rw [hpieces] at h
      exact List.forall_mem_append.2 ⟨(List.forall_mem_append.1 h).1, List.forall_mem_singleton.2 nofun⟩
    · rw [happ]
      exact hpush nofun
  | blank | endOfLine | lineComment | directive => exact hpush nofun
  | blockComment => exact hpush fun _ => ⟨_, rfl⟩

theorem signed_run {fuel : Nat} (h : ∀ p ∈ l.pieces, p.Signed) : ∀ p ∈ (run fuel l).pieces, p.Signed := by
  induction fuel generalizing l with
  | zero => exact h
  | succ fuel ih =>
    unfold run
    split
    · next l' hs => exact ih (signed_step h (.of_step? hs))
    · exact h

theorem signed_read (s : DirectiveState) (lineStart : Bool) (t : Text) : ∀ p ∈ (read s lineStart t).pieces, p.Signed :=
  signed_run nofun

end Leading

namespace Trailing

theorem signed_run {fuel offset : Nat} {t : Text} : ∀ p ∈ (run fuel offset t).pieces, p.Signed := by
  fun_induction run fuel offset t with
  | case1 | case2 | case7 => exact List.forall_mem_nil _
  | case3 fuel offset c t hc text ih => exact List.forall_mem_cons.2 ⟨.of_ne (by simp), ih⟩
  | case4 fuel offset c t hc hl text ih => exact List.forall_mem_cons.2 ⟨.of_ne (by simp), ih⟩
  | case5 fuel offset c t hc hl hs comment ih =>
    exact List.forall_mem_cons.2 ⟨fun _ => ⟨_, rfl⟩, ih⟩
  | case6 => exact List.forall_mem_singleton.2 (.of_ne (by simp))

/-- What is reported in trailing trivia is what open comments are, in any state. -/
theorem diagnostics_run {fuel offset : Nat} {t : Text} (s : DirectiveState) :
    (run fuel offset t).diagnostics = Trivia.complaints s offset (run fuel offset t).pieces := by
  fun_induction run fuel offset t generalizing s with
  | case1 | case2 | case6 | case7 => rfl
  | case3 fuel offset c t hc text ih => exact ih _
  | case4 fuel offset c t hc hl text ih => exact ih _
  | case5 fuel offset c t hc hl hs comment ih =>
    show comment.complain offset ++ _ = Comment.complain _ _ ++ _
    rw [ih, Leading.complain_ofBody_text]

end Trailing

/-! ## Tokens -/

theorem RawToken.length_complain_le (r : RawToken) (offset : Nat) : (r.complain offset).length ≤ 1 := by
  unfold complain
  split <;> simp

/-- What is reported of a token covers its text. -/
theorem RawToken.mem_complain {c : Char} {t : Text} {offset : Nat} {d : Diagnostic}
    (hd : d ∈ (read c t).complain offset) :
    d.offset = offset ∧ d.length = Text.width (read c t).text ∧ d.code ∈ codes := by
  have hcode := code_read_mem (code_complain hd)
  unfold complain at hd
  split at hd
  · cases hd
  · rw [List.mem_singleton.1 hd] at hcode ⊢
    exact ⟨rfl, rfl, hcode⟩
  · rw [List.mem_singleton.1 hd] at hcode ⊢
    exact ⟨rfl, rfl, hcode⟩

/-- What is reported at the end of a text, behind what is reported in the trivia there. -/
theorem Scan.diagnostics_atEnd (c : Context) (l : Leading) : ∃ own : List Diagnostic,
    (atEnd c l).leaf.diagnostics = l.diagnostics ++ own ∧ own.length ≤ 1 ∧
      ∀ d ∈ own, ∃ closer, d = .ofCode .closerExpected l.offset 0 [closer] := by
  unfold atEnd
  cases l.state.expectedCloser? with
  | none => exact ⟨[], rfl, Nat.zero_le 1, List.forall_mem_nil _⟩
  | some closer => exact ⟨_, rfl, le_rfl, fun d hd => ⟨closer, List.mem_singleton.1 hd⟩⟩

/-- **Reports.** What is reported in a token that begins in a state: in its leading trivia, then of the token itself,
and then in its trailing trivia. -/
structure Leaf.Reports (s : DirectiveState) (l : Leaf) (own : List Diagnostic) : Prop where
  diagnostics : l.diagnostics =
    Trivia.complaints s 0 l.leading ++ own ++ Trivia.complaints s (l.leadingWidth + l.textWidth) l.trailing
  length_own : own.length ≤ 1
  /-- What is reported of the token covers its text, or it stands at the end of the text. -/
  own : ∀ d ∈ own, d.offset = l.leadingWidth ∧ (d.length = l.textWidth ∧ d.code ∈ RawToken.codes ∨
    l.kind = .token .eof ∧ ∃ closer, d = .ofCode .closerExpected l.leadingWidth 0 [closer])
  signed : ∀ p ∈ l.trivia, p.Signed
  /-- A directive is what its line is where it stands. -/
  directive : ∀ before text after k, l.leading = before ++ ⟨.trivia (.directive k), text⟩ :: after →
    (DirectiveLine.process text.line (s.behind before)).kind = k
  trailing : ∀ p ∈ l.trailing, p.isDirective = false

theorem reports_scan (c : Context) (t : Text) : ∃ own, (scan c t).leaf.Reports c.directives own := by
  have hwalked := Leading.walked_read c.directives c.lineStart t
  have hsigned := Leading.signed_read c.directives c.lineStart t
  have hdirective := (leavesOut_leaf_scan c t).directive
  rcases scan_cases c t with ⟨-, hs⟩ | ⟨d, z, hrest, hs⟩ <;> rw [hs] at hdirective ⊢
  · obtain ⟨own, hown, hlength, hcloser⟩ := Scan.diagnostics_atEnd c (Leading.read c.directives c.lineStart t)
    -- the last token has no text and nothing behind it, so `own` is the end of its diagnostics
    refine ⟨own, ⟨?_, hlength, fun d hd => ?_, ?_, hdirective, List.forall_mem_nil _⟩⟩
    · rw [hown, hwalked.diagnostics]
      exact (List.append_nil _).symm
    · obtain ⟨closer, rfl⟩ := hcloser d hd
      exact ⟨rfl, .inr ⟨rfl, closer, rfl⟩⟩
    · simpa [Leaf.trivia, Scan.atEnd] using hsigned
  · refine ⟨(RawToken.read d z).complain (Leading.read c.directives c.lineStart t).offset,
      ⟨?_, RawToken.length_complain_le _ _, fun d hd => ?_, ?_, hdirective, Trailing.isDirective_run⟩⟩
    · exact congrArg₂ (fun ds es => ds ++ RawToken.complain _ _ ++ es) hwalked.diagnostics (Trailing.diagnostics_run _)
    · obtain ⟨hoffset, hwidth, hcode⟩ := RawToken.mem_complain hd
      exact ⟨hoffset, .inl ⟨hwidth, hcode⟩⟩
    · exact List.forall_mem_append.2 ⟨hsigned, Trailing.signed_run⟩

namespace Leaf.Reports

variable {s : DirectiveState} {l : Leaf} {own : List Diagnostic} {d : Diagnostic}

theorem signed_leading (h : l.Reports s own) : ∀ p ∈ l.leading, p.Signed := (List.forall_mem_append.1 h.signed).1

theorem signed_trailing (h : l.Reports s own) : ∀ p ∈ l.trailing, p.Signed := (List.forall_mem_append.1 h.signed).2

/-- What is reported stands in one of the three parts. -/
theorem mem (h : l.Reports s own) (hd : d ∈ l.diagnostics) : d ∈ Trivia.complaints s 0 l.leading ∨ d ∈ own ∨
    d ∈ Trivia.complaints s (l.leadingWidth + l.textWidth) l.trailing := by
  rw [h.diagnostics, List.mem_append, List.mem_append, or_assoc] at hd
  exact hd

/-- Behind the text of a token only comments are reported. -/
theorem code_trailing (h : l.Reports s own) {offset : Nat} (hd : d ∈ Trivia.complaints s offset l.trailing) :
    d.code = .openComment := by
  obtain ⟨before, p, after, hsplit, hd⟩ := Trivia.mem_complaints.1 hd
  have hp : p ∈ l.trailing := by simp [hsplit]
  rcases Trivia.mem_complaint (h.signed_trailing p hp) hd with ⟨hyes, -⟩ | ⟨-, rfl⟩
  · cases (h.trailing p hp).symm.trans hyes
  · rfl

/-- What is reported begins no later than the text of the token, or else it is a comment that is not closed. -/
theorem offset_le_or (h : l.Reports s own) (hd : d ∈ l.diagnostics) :
    d.offset ≤ l.leadingWidth ∨ d.code = .openComment := by
  rcases h.mem hd with hd | hd | hd
  · have hle := (Trivia.bounds_complaints h.signed_leading hd).2
    exact .inl (by rw [Leaf.leadingWidth]; omega)
  · exact .inl (h.own d hd).1.le
  · exact .inr (h.code_trailing hd)

/-- What is reported in a token is in order. -/
theorem inOrder (h : l.Reports s own) : Diagnostic.InOrder l.diagnostics := by
  have hown : ∀ d ∈ Trivia.complaints s 0 l.leading, ∀ e ∈ own, d.offset ≤ e.offset := fun d hd e he => by
    have hle := (Trivia.bounds_complaints h.signed_leading hd).2
    have he := (h.own e he).1
    rw [Leaf.leadingWidth] at he
    omega
  rw [h.diagnostics]
  refine List.pairwise_append.2 ⟨List.pairwise_append.2 ⟨Trivia.inOrder_complaints h.signed_leading, ?_, hown⟩,
    Trivia.inOrder_complaints h.signed_trailing, fun d hd e he => ?_⟩
  · exact Diagnostic.inOrder_of_length_le h.length_own
  · have hbehind := (Trivia.bounds_complaints h.signed_trailing he).1
    rcases List.mem_append.1 hd with hd | hd
    · have hle := (Trivia.bounds_complaints h.signed_leading hd).2
      rw [Leaf.leadingWidth] at hbehind
      omega
    · have hown := (h.own d hd).1
      omega

/-- What is reported in a token covers whole characters of it. -/
theorem marks (h : l.Reports s own) (hd : d ∈ l.diagnostics) : l.fullText.Marks d.offset d.length := by
  have hleading : Text.width (Trivia.textAll l.leading) = l.leadingWidth := (Trivia.widthAll_eq _).symm
  rcases h.mem hd with hd | hd | hd
  · obtain ⟨n, hn, hmarks⟩ := Trivia.marks_complaints h.signed_leading hd
    rw [hn, Nat.zero_add, Leaf.fullText, List.append_assoc]
    exact hmarks.append _
  · obtain ⟨hoffset, ⟨hlength, -⟩ | ⟨-, closer, hcloser⟩⟩ := h.own d hd
    · rw [hoffset, hlength]
      exact ⟨_, l.text, _, rfl, hleading, rfl⟩
    · rw [hoffset, hcloser]
      exact ⟨_, [], l.text ++ Trivia.textAll l.trailing, by simp [Leaf.fullText], hleading, rfl⟩
  · obtain ⟨n, hn, hmarks⟩ := Trivia.marks_complaints h.signed_trailing hd
    have hwidth : l.leadingWidth + l.textWidth = Text.width (Trivia.textAll l.leading ++ l.text) := by
      rw [Text.width_append, hleading, Leaf.textWidth]
    rw [hn, hwidth]
    simpa [Leaf.fullText] using hmarks.inside (Trivia.textAll l.leading ++ l.text) []

/-- What is reported in a token: of a directive in front of it, of a comment, of its text, or of a directive that is
open at the end of the text. -/
theorem cases (h : l.Reports s own) (hd : d ∈ l.diagnostics) :
    (∃ before p after, l.leading = before ++ p :: after ∧ p.isDirective = true ∧
      d ∈ p.complaint (s.behind before) (Trivia.widthAll before)) ∨
    d.code = .openComment ∨ d.code ∈ RawToken.codes ∨
    (l.kind = .token .eof ∧ ∃ closer, d = .ofCode .closerExpected l.leadingWidth 0 [closer]) := by
  rcases h.mem hd with hd | hd | hd
  · obtain ⟨before, p, after, hsplit, hd⟩ := Trivia.mem_complaints.1 hd
    rw [Nat.zero_add] at hd
    rcases Trivia.mem_complaint (h.signed_leading p (by simp [hsplit])) hd with ⟨hdirective, -⟩ | ⟨-, rfl⟩
    · exact .inl ⟨before, p, after, hsplit, hdirective, hd⟩
    · exact .inr (.inl rfl)
  · exact .inr (.inr ((h.own d hd).2.imp_left And.right))
  · exact .inr (.inl (h.code_trailing hd))

end Leaf.Reports

end IncrementalSyntax

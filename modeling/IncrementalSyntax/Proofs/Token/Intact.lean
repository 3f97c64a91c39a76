import IncrementalSyntax.Proofs.Token.Complaints
import IncrementalSyntax.Proofs.Token.Locality

/-!
# Tokens that nothing is wrong with

A literal is closed if its text goes from the opening delimiter to the first one that closes it, and a block comment is
closed if it ends with its sign. Which character closes a literal depends on those in front of it: a backslash takes the
meaning away from a quote, a verbatim string has its quotes doubled, and in the holes of an interpolated string quotes
begin strings of their own. A token without diagnostics has a kind of its own, its literal and its comments are closed,
and no directive in front of it is reported.

## Main definitions

* `Cut.StringBody`, `Cut.VerbatimBody`, `Cut.InterpolatedBody`, `Cut.CharBody`: literals behind the opening delimiter
* `Literal.Closed`: the text of a literal that is closed
* `Trivia.Closed`: a block comment that is closed
* `Leaf.Intact`: a token that nothing is wrong with

## Main results

* `RawToken.tells_read`: the text of a token with no code
* `intact_scan`: a token without diagnostics
-/

namespace IncrementalSyntax

/-! ## Literals -/

namespace Cut

/-- **String body.** The rest of a string on one line behind its opening quote. -/
inductive StringBody : Text → Prop
  | close : StringBody ['"']
  | escape {c : Char} {t : Text} (hline : Text.isLineBreak c = false) (h : StringBody t) : StringBody ('\\' :: c :: t)
  | char {c : Char} {t : Text} (hc : c ∉ ['"', '\\']) (hline : Text.isLineBreak c = false) (h : StringBody t) :
      StringBody (c :: t)

/-- **Verbatim body.** The rest of a verbatim string behind its opening quote. -/
inductive VerbatimBody : Text → Prop
  | close : VerbatimBody ['"']
  | quote {t : Text} (h : VerbatimBody t) : VerbatimBody ('"' :: '"' :: t)
  | char {c : Char} {t : Text} (hc : c ≠ '"') (h : VerbatimBody t) : VerbatimBody (c :: t)

/-- **Interpolated body.** The rest of an interpolated string from a place in it on. -/
inductive InterpolatedBody : Place → Text → Prop
  -- only in the text of the string a quote closes it
  | close : InterpolatedBody .text ['"']
  | escape {c : Char} {t : Text} (hline : Text.isLineBreak c = false) (h : InterpolatedBody .text t) :
      InterpolatedBody .text ('\\' :: c :: t)
  | brace {t : Text} (h : InterpolatedBody .text t) : InterpolatedBody .text ('\x7b' :: '\x7b' :: t)
  | enter {t : Text} (hbrace : t.head? ≠ some '\x7b') (h : InterpolatedBody (.hole 0) t) :
      InterpolatedBody .text ('\x7b' :: t)
  | char {c : Char} {t : Text} (hc : c ∉ ['"', '\\', '\x7b']) (hline : Text.isLineBreak c = false)
      (h : InterpolatedBody .text t) : InterpolatedBody .text (c :: t)
  -- in a hole braces are counted
  | deeper {depth : Nat} {t : Text} (h : InterpolatedBody (.hole (depth + 1)) t) :
      InterpolatedBody (.hole depth) ('\x7b' :: t)
  | leave {depth : Nat} {t : Text} (h : InterpolatedBody (.leave depth) t) :
      InterpolatedBody (.hole depth) ('\x7d' :: t)
  | quote {depth : Nat} {t : Text} (h : InterpolatedBody (.nested depth) t) :
      InterpolatedBody (.hole depth) ('"' :: t)
  | inHole {depth : Nat} {c : Char} {t : Text} (hc : c ∉ ['"', '\x7b', '\x7d']) (hline : Text.isLineBreak c = false)
      (h : InterpolatedBody (.hole depth) t) : InterpolatedBody (.hole depth) (c :: t)
  -- in a string of a hole a backslash takes any character, a line break too
  | unquote {depth : Nat} {t : Text} (h : InterpolatedBody (.hole depth) t) :
      InterpolatedBody (.nested depth) ('"' :: t)
  | skip {depth : Nat} {c : Char} {t : Text} (h : InterpolatedBody (.nested depth) t) :
      InterpolatedBody (.nested depth) ('\\' :: c :: t)
  | inString {depth : Nat} {c : Char} {t : Text} (hc : c ∉ ['"', '\\']) (hline : Text.isLineBreak c = false)
      (h : InterpolatedBody (.nested depth) t) : InterpolatedBody (.nested depth) (c :: t)

/-- **Apostrophe body.** What stands in front of an apostrophe on its line, and the apostrophe. -/
inductive ApostropheBody : Text → Prop
  | close : ApostropheBody ['\'']
  | char {c : Char} {t : Text} (hc : c ≠ '\'') (hline : Text.isLineBreak c = false) (h : ApostropheBody t) :
      ApostropheBody (c :: t)

/-- **Character body.** The rest of a character literal behind its opening apostrophe. It is not empty, and only the first
character may have a backslash in front of it. -/
inductive CharBody : Text → Prop
  | escape {c : Char} {t : Text} (hline : Text.isLineBreak c = false) (h : ApostropheBody t) : CharBody ('\\' :: c :: t)
  | char {c : Char} {t : Text} (hc : c ∉ ['\'', '\\']) (hline : Text.isLineBreak c = false) (h : ApostropheBody t) :
      CharBody (c :: t)

variable {c : Char} {t : Text}

/-- What stands in front of a closed literal is no backslash that could have taken the next character. -/
theorem ne_backslash {cut : Text → Cut} (hnil : (cut []).closed = false) (h : (cut t).closed = true)
    (hlast : ∀ d s, c = '\\' → t = d :: s → False) : c ≠ '\\' := by
  rintro rfl
  cases t with
  | nil => cases hnil.symm.trans h
  | cons d s => exact hlast d s rfl rfl

theorem stringBody_taken (h : (string t).closed = true) : StringBody (string t).taken := by
  fun_induction string t with
  | case1 | case2 | case5 => cases h
  | case3 c t hline ih => exact .escape (Bool.eq_false_iff.2 hline) (ih h)
  | case4 => exact .close
  | case6 c t hlast hquote hline ih =>
    exact .char (by simp [hquote, ne_backslash rfl h hlast]) (Bool.eq_false_iff.2 hline) (ih h)

theorem verbatimBody_taken (h : (verbatim t).closed = true) : VerbatimBody (verbatim t).taken := by
  fun_induction verbatim t with
  | case1 => cases h
  | case2 t ih => exact .quote (ih h)
  | case3 => exact .close
  | case4 c t _ hc ih => exact .char hc (ih h)

theorem interpolatedBody_taken {place : Place} (h : (interpolated place t).closed = true) :
    InterpolatedBody place (interpolated place t).taken := by
  fun_induction interpolated place t with
  | case1 | case4 | case6 | case11 | case15 => cases h
  | case2 depth c t ih => exact .skip (ih h)
  | case3 depth t hlast ih => exact .unquote (ih h)
  | case5 depth c t hlast hquote hline ih =>
    have hnil : (interpolated (.nested depth) []).closed = false := rfl
    exact .inString (by simp [hquote, ne_backslash hnil h hlast]) (Bool.eq_false_iff.2 hline) (ih h)
  | case7 depth t hline ih => exact .deeper (ih h)
  | case8 depth t hline hopen ih => exact .leave (ih h)
  | case9 depth t hline hopen hclose ih => exact .quote (ih h)
  | case10 depth c t hline hopen hclose hquote ih =>
    exact .inHole (by simp [hquote, hopen, hclose]) (Bool.eq_false_iff.2 hline) (ih h)
  | case12 c t hline ih => exact .escape (Bool.eq_false_iff.2 hline) (ih h)
  | case13 t ih => exact .brace (ih h)
  -- a closing brace means nothing in the text of the string, so two of them are two characters
  | case14 t ih => exact .char (by decide) rfl (.char (by decide) rfl (ih h))
  | case16 t hlast hbrace hbrace' hline ih =>
    refine .enter (fun hhead => ?_) (ih h)
    obtain ⟨s, hs⟩ := List.head?_eq_some_iff.1 hhead
    have htext : t = '\x7b' :: (s ++ (interpolated (.hole 0) t).rest) := by
      rw [← List.cons_append, ← hs, interpolated_append]
    exact hbrace _ rfl htext
  | case17 => exact .close
  | case18 c t hlast hbrace hbrace' hline hopen hquote ih =>
    have hnil : (interpolated .text []).closed = false := rfl
    exact .char (by simp [hquote, hopen, ne_backslash hnil h hlast]) (Bool.eq_false_iff.2 hline) (ih h)

theorem apostropheBody_taken (h : (apostrophe t).closed = true) : ApostropheBody (apostrophe t).taken := by
  fun_induction apostrophe t with
  | case1 | case3 => cases h
  | case2 => exact .close
  | case4 c t hc hline ih => exact .char hc (Bool.eq_false_iff.2 hline) (ih h)

theorem ApostropheBody.charBody (h : ApostropheBody t) (hempty : t ≠ ['\'']) (hback : t.head? ≠ some '\\') :
    CharBody t := by
  cases h with
  | close => exact absurd rfl hempty
  | char hc hline h => exact .char (by simpa [hc] using hback) hline h

theorem charBody_taken (h : (char t).closed = true) (hempty : (char t).taken ≠ ['\'']) : CharBody (char t).taken := by
  fun_cases char t with
  | case1 c t hline => simp [char, hline, cons, openAt] at h
  | case2 c t hline =>
    have hbody : (apostrophe t).closed = true := by simpa [char, hline, cons] using h
    exact .escape (Bool.eq_false_iff.2 hline) (apostropheBody_taken hbody)
  | case3 t hlast =>
    rw [char.eq_2 _ hlast] at h hempty
    refine (apostropheBody_taken h).charBody hempty fun hhead => ?_
    obtain ⟨u, hu⟩ := List.head?_eq_some_iff.1 hhead
    have htext := apostrophe_append t
    rw [hu, List.cons_append] at htext
    cases hrest : u ++ (apostrophe t).rest with
    | nil =>
      rw [← htext, hrest] at h
      cases h
    | cons d s => exact hlast d s (by rw [← htext, hrest])

end Cut

/-- **Closed.** The text of a literal goes from its opening delimiter to the one that closes it. Numbers have none. -/
inductive Literal.Closed : Literal → Text → Prop
  | int {t : Text} : Closed .int t
  | real {t : Text} : Closed .real t
  | string {t : Text} (h : Cut.StringBody t) : Closed .string ('"' :: t)
  | verbatim {t : Text} (h : Cut.VerbatimBody t) : Closed .verbatim ('@' :: '"' :: t)
  | interpolated {t : Text} (h : Cut.InterpolatedBody .text t) : Closed .interpolated ('$' :: '"' :: t)
  | char {t : Text} (h : Cut.CharBody t) : Closed .char ('\'' :: t)

namespace RawToken

variable {c : Char} {t : Text}

/-- **Tells.** A raw token without a code has a kind of its own, and it is closed if it is a literal. -/
def Tells (r : RawToken) : Prop :=
  r.code = none → r.kind ≠ .bad ∧ ∀ k, r.kind = .literal k → k.Closed r.text

theorem Tells.of_ne {r : RawToken} (hbad : r.kind ≠ .bad) (h : ∀ k, r.kind ≠ .literal k) : r.Tells := fun _ =>
  ⟨hbad, fun k hk => absurd hk (h k)⟩

theorem Tells.of_closed {r : RawToken} {k : Literal} (hkind : r.kind = .literal k)
    (h : r.code = none → k.Closed r.text) : r.Tells := by
  refine fun hcode => ⟨by simp [hkind], fun k' hk' => ?_⟩
  obtain rfl : k = k' := TokenKind.literal.inj (hkind.symm.trans hk')
  exact h hcode

theorem tells_bad (c : Char) (t : Text) : (bad c t).Tells := nofun

theorem tells_word (c : Char) (t : Text) : (word c t).Tells :=
  .of_ne (kind_word_ne (by decide) (by decide) c t) fun k => kind_word_ne (by cases k <;> decide) (by simp) c t

theorem tells_number (c : Char) (t : Text) : (number c t).Tells := by
  unfold number
  dsimp only
  split
  · split
    · exact .of_closed rfl fun _ => .real
    · exact .of_closed rfl fun _ => .int
  · exact .of_closed rfl fun _ => .int

theorem tells_afterAt (t : Text) : (afterAt t).Tells := by
  unfold afterAt
  split
  · exact .of_closed rfl fun h => .verbatim (Cut.verbatimBody_taken (closed_of_code_literal h))
  · split
    · exact .of_ne nofun nofun
    · exact tells_bad _ _
  · exact tells_bad _ _

theorem tells_afterDollar (t : Text) : (afterDollar t).Tells := by
  unfold afterDollar
  split
  · exact .of_closed rfl fun h => .interpolated (Cut.interpolatedBody_taken (closed_of_code_literal h))
  · exact tells_bad _ _

theorem tells_charLiteral (t : Text) : (charLiteral t).Tells := by
  unfold charLiteral
  dsimp only
  split
  · exact nofun
  · next hempty =>
    refine .of_closed rfl fun h => .char (Cut.charBody_taken (closed_of_code_literal h) fun htaken => hempty ?_)
    rw [literal, htaken]
    rfl

/-- **A token with no code.** It has a kind of its own, and it is closed if it is a literal. -/
theorem tells_read (c : Char) (t : Text) : (read c t).Tells := by
  unfold read
  split
  · exact tells_word c t
  split
  · exact tells_number c t
  split
  · next h =>
    subst h
    exact .of_closed rfl fun h => .string (Cut.stringBody_taken (closed_of_code_literal h))
  split
  · exact tells_afterAt t
  split
  · exact tells_afterDollar t
  split
  · exact tells_charLiteral t
  split
  · exact .of_ne nofun nofun
  · exact tells_bad c t

end RawToken

/-! ## Comments and directives -/

theorem Text.exists_of_throughCommentEnd? {t body rest : Text} (h : throughCommentEnd? t = some (body, rest)) :
    ∃ u, body = u ++ ['*', '/'] := by
  fun_induction throughCommentEnd? t generalizing body with
  | case1 => cases h
  | case2 t =>
    obtain ⟨rfl, -⟩ := Prod.mk.inj (Option.some.inj h)
    exact ⟨[], rfl⟩
  | case3 c t _ ih =>
    obtain ⟨⟨v, r⟩, hv, heq⟩ := Option.map_eq_some_iff.1 h
    obtain ⟨rfl, rfl⟩ := Prod.mk.inj heq
    obtain ⟨u, rfl⟩ := ih hv
    exact ⟨c :: u, rfl⟩

namespace Trivia

variable {s : DirectiveState} {offset : Nat} {p : Trivia} {ps before after : List Trivia}

/-- **Closed.** A block comment ends with its sign. -/
def Closed (p : Trivia) : Prop := p.kind = .trivia .multiLineComment → ∃ u, p.text = ['/', '*'] ++ u ++ ['*', '/']

/-- Nothing is reported in any of some pieces. -/
theorem complaint_eq_nil (h : complaints s offset ps = []) (hps : ps = before ++ p :: after) :
    p.complaint (s.behind before) (offset + widthAll before) = [] := by
  rw [hps, complaints_append, complaints] at h
  exact (List.append_eq_nil_iff.1 (List.append_eq_nil_iff.1 h).2).1

theorem closed_of_complaint (hsigned : p.Signed) (h : p.complaint s offset = []) : p.Closed := by
  intro hkind
  obtain ⟨t, ht⟩ := hsigned hkind
  unfold complaint at h
  rw [hkind, ht] at h
  dsimp only at h
  rw [Leading.complain_ofBody_text] at h
  rw [ht]
  unfold Comment.ofBody at h ⊢
  split at h
  · next body rest hbody =>
    obtain ⟨u, rfl⟩ := Text.exists_of_throughCommentEnd? hbody
    exact ⟨u, rfl⟩
  · cases h

theorem diagnostics_of_complaint (hdirective : p.isDirective = true) (h : p.complaint s offset = []) :
    (DirectiveLine.process p.text.line s).diagnostics = [] := by
  obtain ⟨k, hk⟩ := exists_kind_of_isDirective hdirective
  unfold complaint at h
  rw [hk] at h
  exact List.map_eq_nil_iff.1 h

end Trivia

/-! ## Tokens -/

/-- **Intact.** Nothing is wrong with a token that begins in a state. -/
structure Leaf.Intact (s : DirectiveState) (l : Leaf) : Prop where
  /-- It is not missing. -/
  present : l.missing = false
  /-- It has a kind of its own. -/
  kind : l.kind ≠ .token .bad
  /-- It is closed if it is a literal. -/
  literal : ∀ k, l.kind = .token (.literal k) → k.Closed l.text
  /-- Comments around it are closed. -/
  comment : ∀ p ∈ l.trivia, p.Closed
  /-- No directive around it is reported. -/
  directive : ∀ before p after, l.trivia = before ++ p :: after → p.isDirective = true →
    (DirectiveLine.process p.text.line (s.behind before)).diagnostics = []
  /-- At the end of a text no directive is left open. -/
  ending : l.kind = .token .eof → (s.behind l.trivia).expectedCloser? = none

namespace Leaf.Reports

variable {s : DirectiveState} {l : Leaf} {own : List Diagnostic}

theorem complaints_eq_nil (h : l.Reports s own) (hdiag : l.diagnostics = []) :
    Trivia.complaints s 0 l.leading = [] ∧ Trivia.complaints s (l.leadingWidth + l.textWidth) l.trailing = [] := by
  rw [h.diagnostics] at hdiag
  obtain ⟨hleading, htrailing⟩ := List.append_eq_nil_iff.1 hdiag
  exact ⟨(List.append_eq_nil_iff.1 hleading).1, htrailing⟩

/-- Without diagnostics all comments are closed. -/
theorem closed (h : l.Reports s own) (hdiag : l.diagnostics = []) {p : Trivia} (hp : p ∈ l.trivia) : p.Closed := by
  obtain ⟨hleading, htrailing⟩ := h.complaints_eq_nil hdiag
  rcases List.mem_append.1 hp with hp' | hp' <;> obtain ⟨before, after, hsplit⟩ := List.append_of_mem hp'
  · exact Trivia.closed_of_complaint (h.signed p hp) (Trivia.complaint_eq_nil hleading hsplit)
  · exact Trivia.closed_of_complaint (h.signed p hp) (Trivia.complaint_eq_nil htrailing hsplit)

/-- Without diagnostics no directive is reported. -/
theorem unreported (h : l.Reports s own) (hdiag : l.diagnostics = []) {before after : List Trivia} {p : Trivia}
    (hsplit : l.trivia = before ++ p :: after) (hdirective : p.isDirective = true) :
    (DirectiveLine.process p.text.line (s.behind before)).diagnostics = [] := by
  have hne : p ∉ l.trailing := fun hp => by simp [h.trailing p hp] at hdirective
  -- so all that stands in front of the directive is leading trivia
  obtain ⟨after', hleading⟩ : ∃ after', l.leading = before ++ p :: after' := by
    rcases List.append_eq_append_iff.1 hsplit with ⟨as, -, htrailing⟩ | ⟨as, hleading, hrest⟩
    · exact absurd (by simp [htrailing]) hne
    · cases as with
      | nil => exact absurd (show p ∈ [] ++ l.trailing from hrest ▸ List.mem_cons_self) hne
      | cons q as =>
        obtain ⟨rfl, -⟩ := List.cons.inj hrest
        exact ⟨as, hleading⟩
  exact Trivia.diagnostics_of_complaint hdirective
    (Trivia.complaint_eq_nil (h.complaints_eq_nil hdiag).1 hleading)

end Leaf.Reports

section Scans

variable {c : Context} {t : Text}

/-- The text of a token without diagnostics. -/
theorem closed_scan (h : (scan c t).leaf.diagnostics = []) : (scan c t).leaf.kind ≠ .token .bad ∧
    ∀ k, (scan c t).leaf.kind = .token (.literal k) → k.Closed (scan c t).leaf.text := by
  rcases scan_cases c t with ⟨-, hs⟩ | ⟨d, z, -, hs⟩ <;> rw [hs] at h ⊢
  · exact ⟨nofun, nofun⟩
  · have hcode : (RawToken.read d z).code = none := by
      simp only [Scan.ofRaw, List.append_eq_nil_iff] at h
      exact code_eq_none_of_complain h.1.2
    obtain ⟨hbad, hclosed⟩ := RawToken.tells_read d z hcode
    exact ⟨fun hkind => hbad (Kind.token.inj hkind), fun k hkind => hclosed k (Kind.token.inj hkind)⟩

/-- Without diagnostics no directive is left open at the end of a text. -/
theorem expectedCloser?_scan (h : (scan c t).leaf.diagnostics = []) (hkind : (scan c t).leaf.kind = .token .eof) :
    (scan c t).context.directives.expectedCloser? = none := by
  rcases scan_cases c t with ⟨-, hs⟩ | ⟨d, z, hrest, -⟩
  · rw [hs] at h ⊢
    have hcloser := (List.append_eq_nil_iff.1 h).2
    split at hcloser
    · cases hcloser
    · assumption
  · have hend := (tokenKind_scan_eq_eof_iff c t).1 (by rw [Leaf.tokenKind, hkind])
    rw [hrest] at hend
    cases hend

/-- **A token without diagnostics is intact.** -/
theorem intact_scan (h : (scan c t).leaf.diagnostics = []) : (scan c t).leaf.Intact c.directives := by
  obtain ⟨own, hreports⟩ := reports_scan c t
  obtain ⟨hkind, hliteral⟩ := closed_scan h
  exact ⟨missing_scan c t, hkind, hliteral, fun p => hreports.closed h, fun before p after => hreports.unreported h,
    fun heof => directives_scan_eq_behind c t ▸ expectedCloser?_scan h heof⟩

end Scans

end IncrementalSyntax

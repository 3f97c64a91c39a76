import IncrementalSyntax.Proofs.Stream.Scanned
import IncrementalSyntax.Proofs.Token.Bytes

/-!
# Tokens in normal form

Each piece of trivia takes a character at least and as much as it can: no white space follows white space, and lines
that are left out one after the other are one piece. Behind the text of a token stand blanks and comments, and then
the end of the line. Each token but the one that ends the text takes a character at least, so the tokens of a text
come to an end, and together they are the text.

## Main definitions

* `Trivia.Apart`: two pieces that could not be one
* `Leaf.Normal`: a token whose trivia are in normal form

## Main results

* `Leading.normal_read`, `Trailing.normal_run`: the trivia that are read are in normal form
* `scan_normal`: what a scan takes, and that tokens in a row come to an end
-/

namespace IncrementalSyntax

/-! ## Normal form -/

/-- **Apart.** Two pieces of trivia of which not both are white space, nor both lines that are left out. -/
def Trivia.Apart (p q : Trivia) : Prop :=
  ∀ k ∈ [TriviaKind.whitespace, TriviaKind.disabledText], ¬(p.kind = .trivia k ∧ q.kind = .trivia k)

/-- The kinds of trivia that may stand behind a token on its line. -/
def Trivia.lineKinds : List TriviaKind := [.whitespace, .singleLineComment, .multiLineComment]

/-- **Normal.** No piece of trivia is empty, no two of them could be one, and the end of a line is the last piece
behind the text. -/
structure Leaf.Normal (l : Leaf) : Prop where
  text_ne_nil : ∀ p ∈ l.trivia, p.text ≠ []
  leading_apart : l.leading.IsChain Trivia.Apart
  trailing_apart : l.trailing.IsChain Trivia.Apart
  trailing_eq : ∃ ps es : List Trivia, l.trailing = ps ++ es ∧ (∀ p ∈ ps, ∃ k ∈ Trivia.lineKinds, p.kind = .trivia k) ∧
    es.length ≤ 1 ∧ ∀ e ∈ es, e.kind = .trivia .endOfLine

/-! ## Leading trivia -/

namespace Leading

/-- A line that is left out is a piece of its own, or it goes on with the last piece. -/
theorem appendDisabled_cases (text : Text) (ps : List Trivia) :
    (∃ qs u, ps = qs ++ [⟨.trivia .disabledText, u⟩] ∧
      appendDisabled text ps = qs ++ [⟨.trivia .disabledText, u ++ text⟩]) ∨
    ((∀ p ∈ ps.getLast?, p.kind ≠ .trivia .disabledText) ∧
      appendDisabled text ps = ps ++ [⟨.trivia .disabledText, text⟩]) := by
  fun_induction appendDisabled text ps with
  | case1 => exact .inr ⟨by simp, rfl⟩
  | case2 p hp =>
    obtain ⟨kind, u⟩ := p
    obtain rfl : kind = .trivia .disabledText := hp
    exact .inl ⟨[], u, rfl, rfl⟩
  | case3 p hp => exact .inr ⟨by simpa using hp, rfl⟩
  | case4 p q ps ih =>
    rcases ih with ⟨qs, u, hps, happ⟩ | ⟨hlast, happ⟩
    · exact .inl ⟨p :: qs, u, by rw [hps, List.cons_append], by rw [happ, List.cons_append]⟩
    · exact .inr ⟨by simpa [List.getLast?_cons_cons] using hlast, by rw [happ]; rfl⟩

/-- **Normal.** The pieces read so far are in normal form, and behind white space comes something else. -/
structure Normal (l : Leading) : Prop where
  text_ne_nil : ∀ p ∈ l.pieces, p.text ≠ []
  apart : l.pieces.IsChain Trivia.Apart
  behind : ∀ p ∈ l.pieces.getLast?, p.kind = .trivia .whitespace → ∀ c ∈ l.rest.head?, isBlankInLine c = false

variable {l l' : Leading}

/-- A piece that could not be one with the last one keeps the normal form. -/
theorem Normal.concat (h : Normal l) {k : TriviaKind} {u : Text} (hu : u ≠ []) (hpieces : l'.pieces = l.pieces ++ [⟨k, u⟩])
    (hlast : ∀ p ∈ l.pieces.getLast?, Trivia.Apart p ⟨k, u⟩)
    (hbehind : k = .whitespace → ∀ c ∈ l'.rest.head?, isBlankInLine c = false) : Normal l' where
  text_ne_nil := by
    rw [hpieces]
    intro p hp
    rcases List.mem_append.1 hp with hp | hp
    · exact h.text_ne_nil p hp
    · rw [List.mem_singleton.1 hp]
      exact hu
  apart := by
    rw [hpieces, List.isChain_append]
    refine ⟨h.apart, List.isChain_singleton _, fun p hp q hq => ?_⟩
    obtain rfl : q = ⟨k, u⟩ := (Option.some.inj hq).symm
    exact hlast p hp
  behind := by
    rw [hpieces, List.getLast?_concat]
    rintro p ⟨⟩ hkind
    exact hbehind (Kind.trivia.inj hkind)

/-- White space keeps the normal form only behind a piece that is none; every other kind does anyway. -/
theorem Normal.push (h : Normal l) {k : TriviaKind} {u : Text} (hu : u ≠ []) (hpieces : l'.pieces = l.pieces ++ [⟨k, u⟩])
    (hk : k ≠ .whitespace ∧ k ≠ .disabledText) : Normal l' := by
  refine h.concat hu hpieces ?_ fun hblank => absurd hblank hk.1
  rintro p - k' hk' ⟨-, hkind⟩
  obtain rfl : k = k' := Kind.trivia.inj hkind
  simp only [List.mem_cons, List.not_mem_nil, or_false] at hk'
  exact hk'.elim hk.1 hk.2

/-- One more line of a piece that is left out keeps the normal form, since the kind of the piece stays. -/
theorem Normal.extend (h : Normal l) {qs : List Trivia} {u v : Text}
    (hpieces : l.pieces = qs ++ [⟨.trivia .disabledText, u⟩])
    (hpieces' : l'.pieces = qs ++ [⟨.trivia .disabledText, u ++ v⟩]) (hv : v ≠ []) : Normal l' where
  text_ne_nil := by
    rw [hpieces']
    intro p hp
    rcases List.mem_append.1 hp with hp | hp
    · exact h.text_ne_nil p (hpieces ▸ List.mem_append_left _ hp)
    · rw [List.mem_singleton.1 hp]
      exact List.append_ne_nil_of_right_ne_nil _ hv
  apart := by
    have hchain := h.apart
    rw [hpieces, List.isChain_append] at hchain
    rw [hpieces', List.isChain_append]
    refine ⟨hchain.1, List.isChain_singleton _, fun p hp q hq => ?_⟩
    obtain rfl := Option.some.inj hq
    exact hchain.2.2 p hp ⟨.trivia .disabledText, u⟩ rfl
  behind := by
    rw [hpieces', List.getLast?_concat]
    rintro p ⟨⟩ ⟨⟩

/-- Every piece of trivia keeps the normal form. -/
theorem Normal.step (h : Normal l) (hstep : Step l l') : Normal l' := by
  cases hstep with
  | disable hne hd =>
    have hu := Text.fullLine_ne_nil hne
    rcases appendDisabled_cases l.rest.fullLine l.pieces with ⟨qs, u, hpieces, happ⟩ | ⟨hlast, happ⟩
    · exact h.extend hpieces happ hu
    -- the line is a piece of its own
    · refine h.concat hu happ ?_ fun hblank => absurd hblank (by decide)
      rintro p hp k hk ⟨hkind, hdisabled⟩
      obtain rfl : TriviaKind.disabledText = k := Kind.trivia.inj hdisabled
      exact hlast p hp hkind
  | @blank c t hd hrest hc =>
    refine h.concat (k := .whitespace) (by simp) rfl ?_ fun _ d hd => ?_
    · rintro p hp k hk ⟨hkind, hblank⟩
      obtain rfl : TriviaKind.whitespace = k := Kind.trivia.inj hblank
      have := h.behind p hp hkind c (by simp [hrest])
      rw [hc] at this
      cases this
    · have := List.head?_dropWhile_not isBlankInLine t
      rw [show (t.dropWhile isBlankInLine).head? = some d from hd] at this
      simpa using this
  | endOfLine hd hrest hc =>
    exact h.push (by rw [hrest]; exact Text.terminator_ne_nil hc) rfl (by decide)
  | lineComment hd hrest =>
    exact h.push (by simp [hrest, Text.line, Text.isLineBreak]) rfl (by decide)
  | blockComment hd hrest => exact h.push (Comment.text_ofBody_ne_nil _) rfl (by decide)
  | directive hd hrest hstart =>
    exact h.push (Text.fullLine_ne_nil (by simp [hrest])) rfl ⟨by simp, by simp⟩

theorem normal_run {fuel : Nat} (h : Normal l) : Normal (run fuel l) := by
  induction fuel generalizing l with
  | zero => exact h
  | succ fuel ih =>
    unfold run
    split
    · next l' hs => exact ih (h.step (.of_step? hs))
    · exact h

theorem normal_read (state : DirectiveState) (lineStart : Bool) (t : Text) : Normal (read state lineStart t) :=
  normal_run ⟨by simp, .nil, by simp⟩

end Leading

/-! ## Trailing trivia -/

namespace Trailing

/-- No white space stands in front of a rest that does not begin with a blank. -/
theorem head?_run {fuel offset : Nat} {t : Text} (h : ∀ c ∈ t.head?, isBlankInLine c = false) :
    ∀ p ∈ (run fuel offset t).pieces.head?, p.kind ≠ .trivia .whitespace := by
  fun_cases run fuel offset t with
  | case1 => simp
  | case2 => simp
  | case3 fuel offset c t hc =>
    rw [h c rfl] at hc
    cases hc
  | case4 => simp [cons]
  | case5 => simp [cons]
  | case6 => simp
  | case7 => simp

/-- **Normal.** The pieces are in normal form: blanks and comments, and then at most one end of the line. -/
structure Normal (pieces : List Trivia) : Prop where
  text_ne_nil : ∀ p ∈ pieces, p.text ≠ []
  apart : pieces.IsChain Trivia.Apart
  eq : ∃ ps es : List Trivia, pieces = ps ++ es ∧ (∀ p ∈ ps, ∃ k ∈ Trivia.lineKinds, p.kind = .trivia k) ∧
    es.length ≤ 1 ∧ ∀ e ∈ es, e.kind = .trivia .endOfLine

theorem Normal.nil : Normal [] := ⟨by simp, .nil, [], [], rfl, by simp, Nat.zero_le _, by simp⟩

/-- Trailing trivia leave nothing out. -/
theorem Normal.ne_disabledText {pieces : List Trivia} (h : Normal pieces) :
    ∀ p ∈ pieces, p.kind ≠ .trivia .disabledText := by
  obtain ⟨ps, es, rfl, hps, -, hes⟩ := h.eq
  intro p hp
  rcases List.mem_append.1 hp with hp | hp
  · obtain ⟨k, hk, hkind⟩ := hps p hp
    rw [hkind]
    rintro ⟨⟩
    exact absurd hk (by decide)
  · simp [hes p hp]

/-- One more piece in front keeps the normal form, if white space does not get in front of white space. -/
theorem Normal.cons {pieces : List Trivia} (h : Normal pieces) {k : TriviaKind} {u : Text} (hk : k ∈ Trivia.lineKinds)
    (hu : u ≠ []) (hblank : k = .whitespace → ∀ p ∈ pieces.head?, p.kind ≠ .trivia .whitespace) :
    Normal (⟨k, u⟩ :: pieces) where
  text_ne_nil := List.forall_mem_cons.2 ⟨hu, h.text_ne_nil⟩
  apart := by
    rw [List.isChain_cons]
    refine ⟨?_, h.apart⟩
    rintro p hp k' hk' ⟨hkind, hkind'⟩
    obtain rfl : k = k' := Kind.trivia.inj hkind
    simp only [List.mem_cons, List.not_mem_nil, or_false] at hk'
    rcases hk' with rfl | rfl
    · exact hblank rfl p hp hkind'
    · exact absurd hk (by decide)
  eq := by
    obtain ⟨ps, es, rfl, hps, hes⟩ := h.eq
    exact ⟨⟨k, u⟩ :: ps, es, rfl, List.forall_mem_cons.2 ⟨⟨k, hk, rfl⟩, hps⟩, hes⟩

/-- By induction on the pieces, the last of which may be the end of the line. -/
theorem normal_run (fuel offset : Nat) (t : Text) : Normal (run fuel offset t).pieces := by
  fun_induction run fuel offset t with
  | case1 => exact .nil
  | case2 => exact .nil
  | case3 fuel offset c t hc text ih =>
    refine ih.cons (by decide) (List.cons_ne_nil _ _) fun _ => head?_run fun d hd => ?_
    have := List.head?_dropWhile_not isBlankInLine t
    rw [show (t.dropWhile isBlankInLine).head? = some d from hd] at this
    simpa using this
  | case4 fuel offset c t hc hl text ih =>
    refine ih.cons (by decide) ?_ fun hblank => absurd hblank (by decide)
    obtain ⟨hslash, -⟩ := Bool.and_eq_true_iff.1 hl
    obtain rfl : c = '/' := of_decide_eq_true hslash
    simp [text, Text.line, Text.isLineBreak]
  | case5 fuel offset c t hc hl hs comment ih =>
    exact ih.cons (by decide) (Comment.text_ofBody_ne_nil _) fun hblank => absurd hblank (by decide)
  | case6 fuel offset c t hc hl hs hbreak text =>
    exact ⟨by simpa [text] using Text.terminator_ne_nil hbreak, List.isChain_singleton _, [], _, rfl, by simp,
      le_rfl, by simp⟩
  | case7 => exact .nil

end Trailing

/-! ## Tokens -/

/-- The trivia of a scanned token are in normal form. -/
theorem normal_leaf_scan (c : Context) (t : Text) : (scan c t).leaf.Normal := by
  have hleading := Leading.normal_read c.directives c.lineStart t
  have hnormal : ∀ l : Leaf, l.leading = (Leading.read c.directives c.lineStart t).pieces →
      Trailing.Normal l.trailing → l.Normal := by
    intro l hl htrailing
    refine ⟨fun p hp => ?_, hl ▸ hleading.apart, htrailing.apart, htrailing.eq⟩
    rcases List.mem_append.1 hp with hp | hp
    · exact hleading.text_ne_nil p (hl ▸ hp)
    · exact htrailing.text_ne_nil p hp
  rcases scan_cases c t with ⟨-, hs⟩ | ⟨d, z, -, hs⟩ <;> rw [hs]
  · exact hnormal _ rfl .nil
  · exact hnormal _ rfl (Trailing.normal_run _ _ _)

/-- Just the token that ends the text has no text of its own. -/
theorem kind_scan_eq_eof_iff (c : Context) (t : Text) :
    (scan c t).leaf.kind = .token .eof ↔ (scan c t).leaf.text = [] := by
  rcases scan_cases c t with ⟨-, hs⟩ | ⟨d, z, -, hs⟩ <;> rw [hs]
  · exact ⟨fun _ => rfl, fun _ => rfl⟩
  · refine iff_of_false (fun h => ?_) (RawToken.text_read_ne_nil d z)
    exact RawToken.kind_read_ne_eof d z (Kind.token.inj h)

theorem tokenKind_eq_of_kind {l : Leaf} (h : l.kind = .token .eof) : l.tokenKind = .eof := by
  rw [Leaf.tokenKind, h]

theorem kind_scan_of_tokenKind {c : Context} {t : Text} (h : (scan c t).leaf.tokenKind = .eof) :
    (scan c t).leaf.kind = .token .eof := by
  rcases scan_cases c t with ⟨-, hs⟩ | ⟨d, z, hrest, -⟩
  · rw [hs]
    rfl
  · rw [tokenKind_scan_eq_eof_iff, hrest] at h
    cases h

/-- The tokens from a place on come to an end with the end of the text, and together they are the text. -/
theorem exists_tokenizeFrom_eq (c : Context) (t : Text) : ∃ ls e,
    (∀ fuel, t.length ≤ fuel → tokenizeFrom fuel c t = ls ++ [e]) ∧ (∀ l ∈ ls, l.kind ≠ .token .eof) ∧
      e.kind = .token .eof ∧ Leaf.textAll (ls ++ [e]) = t := by
  obtain ⟨ls, c', t', es, hs, hkind, heof⟩ := Scanned.exists_eof c t
  have hall : tokenizeRest c t = ls ++ [(scan c' t').leaf] := by rw [hs.tokenizeRest_eq hkind, tokenizeRest_of_eq heof]
  refine ⟨ls, (scan c' t').leaf, fun fuel h => (tokenizeFrom_eq h).trans hall, fun l hl hkind' => ?_,
    kind_scan_of_tokenKind heof, hall ▸ textAll_tokenizeRest c t⟩
  exact hkind l hl (tokenKind_eq_of_kind hkind')

/-- **Scanning.** A token that is scanned between two characters of a text is the text up to where it ends, which is
between two characters as well, and its trivia are in normal form. It ends the text just if it has no text of its own,
and every other token ends further on. Each literal ends where a reader of its bytes stops. So the tokens come to an
end, whatever the bound on their number is that is not too small, and together they are the text. -/
theorem scan_normal (c : Context) {text : Text} {pos : Nat} (h : text.isBoundary pos = true) :
    let s := scan c (text.after pos)
    let stop := pos + s.leaf.width
    (text.isBoundary stop = true ∧ text.between pos stop = s.leaf.fullText ∧ text.after stop = s.rest) ∧
    (s.leaf.kind = .token .eof ↔ s.leaf.text = []) ∧
    (s.leaf.kind = .token .eof → stop = Text.width text) ∧
    (s.leaf.kind ≠ .token .eof → pos < stop) ∧
    s.leaf.Normal ∧
    (∀ t : Text, (Cut.string t).EndsAt t (ByteReader.ofString t.bytes) ∧
      (Cut.verbatim t).EndsAt t (ByteReader.ofVerbatim t.bytes) ∧
      (Cut.interpolated .text t).EndsAt t (ByteReader.ofInterpolated t.bytes) ∧
      (Cut.char t).EndsAt t (ByteReader.ofChar t.bytes)) ∧
    ∃ ls e, (∀ fuel, (text.after pos).length ≤ fuel → tokenizeFrom fuel c (text.after pos) = ls ++ [e]) ∧
      (∀ l ∈ ls, l.kind ≠ .token .eof) ∧ e.kind = .token .eof ∧ Leaf.textAll (ls ++ [e]) = text.after pos := by
  obtain ⟨before, t, rfl, rfl⟩ := Text.isBoundary_iff.1 h
  simp only [Text.after_append]
  have happ : before ++ t = (before ++ (scan c t).leaf.fullText) ++ (scan c t).rest := by
    rw [List.append_assoc, scan_append]
  have hwidth : Text.width before + (scan c t).leaf.width = Text.width (before ++ (scan c t).leaf.fullText) := by
    rw [Text.width_append, Leaf.width_eq]
  refine ⟨⟨?_, ?_, ?_⟩, kind_scan_eq_eof_iff c t, fun heof => ?_, fun hne => ?_, normal_leaf_scan c t, fun t => ?_,
    exists_tokenizeFrom_eq c t⟩
  · exact Text.isBoundary_iff.2 ⟨_, _, happ, hwidth.symm⟩
  · have hbefore := Text.before_append (scan c t).leaf.fullText (scan c t).rest
    rw [scan_append, ← Leaf.width_eq] at hbefore
    rw [Text.between, Text.after_append, Nat.add_sub_cancel_left, hbefore]
  · rw [hwidth, happ, Text.after_append]
  · rw [hwidth]
    conv_rhs => rw [happ, rest_scan (tokenKind_eq_of_kind heof), List.append_nil]
  · have htext : (scan c t).leaf.text ≠ [] := fun h => hne ((kind_scan_eq_eof_iff c t).2 h)
    have hpos : 0 < (scan c t).leaf.width := by
      rw [Leaf.width_eq]
      refine Text.width_pos_of_ne_nil fun hnil => htext ?_
      rw [Leaf.fullText, List.append_assoc] at hnil
      exact (List.append_eq_nil_iff.1 (List.append_eq_nil_iff.1 hnil).2).1
    exact Nat.lt_add_of_pos_right hpos
  · exact ⟨ByteReader.endsAt_string t, ByteReader.endsAt_verbatim t, ByteReader.endsAt_interpolated t,
      ByteReader.endsAt_char t⟩

/-- A string in front of which a wide character stands and in which a backslash precedes one. -/
theorem scan_normal_escape :
    let text : Text := ['é', '"', '\\', 'é', '"', ' ', '\n', 'x']
    let s := scan (.initial []) (text.after 2)
    text.isBoundary 2 = true ∧ s.leaf.text = ['"', '\\', 'é', '"'] ∧ s.leaf.trailing.length = 2 ∧
      text.between 2 9 = s.leaf.fullText ∧ text.after 9 = s.rest := by
  intro text s
  have hpos : text.isBoundary 2 = true := by decide
  have hwidth : 2 + s.leaf.width = 9 := by decide +kernel
  obtain ⟨-, hbetween, hafter⟩ := (scan_normal (.initial []) hpos).1
  rw [hwidth] at hbetween hafter
  exact ⟨hpos, by decide +kernel, by decide +kernel, hbetween, hafter⟩

end IncrementalSyntax

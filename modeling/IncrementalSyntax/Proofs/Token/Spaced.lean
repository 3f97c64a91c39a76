import IncrementalSyntax.Proofs.Token.Longest
import IncrementalSyntax.Proofs.Token.RawLocality
import IncrementalSyntax.Proofs.Token.TriviaLocality
import IncrementalSyntax.Proofs.Token.Outcome

/-!
# Tokens with a space behind them

A token that nothing is wrong with is read again from its own text, if nothing or a space stands behind it, whatever
comes then. No trivia begins where such a text begins, so what stands in front of it ends with the space.

## Main definitions

* `RawToken.Whole`: a text that is one token, with nothing wrong
* `Text.Delimits`: a text that no token in front of it goes on with

## Main results

* `RawToken.read_delimited`: a token that nothing is wrong with, in front of a space or at the end of a text
* `RawToken.whole_read`: such a token is one token by itself
* `scan_spaced`, `scan_last`: the scan of a token with a space behind it, and at the end of the text
-/

namespace IncrementalSyntax

/-! ## Texts that are one token -/

/-- **Whole.** The text is one token of a kind, with nothing wrong. -/
def RawToken.Whole (k : TokenKind) (t : Text) : Prop :=
  ∃ c r, t = c :: r ∧ read c r = ⟨k, t, [], none⟩

/-- **Delimits.** A space stands at the front of the text, or nothing at all. -/
def Text.Delimits (t : Text) : Prop := t = [] ∨ ∃ z, t = ' ' :: z

theorem Text.Delimits.nil : Delimits [] := .inl rfl

theorem Text.Delimits.space (z : Text) : Delimits (' ' :: z) := .inr ⟨z, rfl⟩

/-- Characters of a class that the space is not in end where the text is delimited. -/
theorem Text.Delimits.takeWhile {p : Char → Bool} {u z : Text} (hz : Delimits z) (hp : p ' ' = false)
    (hu : ∀ d ∈ u, p d = true) : (u ++ z).takeWhile p = u ∧ (u ++ z).dropWhile p = z := by
  rw [List.takeWhile_append_of_pos hu, List.dropWhile_append_of_pos hu]
  rcases hz with rfl | ⟨z, rfl⟩ <;> simp [hp]

namespace RawToken

variable {c : Char} {t u y z : Text} {k : TokenKind}

theorem word_delimited (hrest : (word c (u ++ y)).rest = y) (hz : z.Delimits) :
    word c (u ++ z) = { word c (u ++ y) with rest := z } := by
  have htake : (u ++ y).takeWhile isIdentifierPart = u := by
    have happ := List.takeWhile_append_dropWhile (p := isIdentifierPart) (l := u ++ y)
    rw [show (u ++ y).dropWhile isIdentifierPart = y from hrest] at happ
    exact List.append_cancel_right happ
  have hall : ∀ d ∈ u, isIdentifierPart d = true := fun d hd => List.mem_takeWhile_imp (htake.symm ▸ hd)
  have hspace : isIdentifierPart ' ' = false := (identifierClasses.part_of_ascii (by decide)).trans (by decide)
  obtain ⟨htake', hdrop'⟩ := hz.takeWhile hspace hall
  simp [word, htake, htake', hdrop']

/-- A delimited number has the same digits, and the point only if a digit follows it. -/
theorem number_delimited (hrest : (number c (u ++ y)).rest = y) (hz : z.Delimits) :
    number c (u ++ z) = { number c (u ++ y) with rest := z } := by
  obtain ⟨w, r, ht, hw, ⟨d, r, rfl, hd⟩ | ⟨hr, hpoint⟩⟩ := exists_digits (u ++ y)
  · rw [ht, number_of_fraction hw hd] at hrest
    have hdrop : r.dropWhile Char.isDigit = y := hrest
    obtain rfl : u = w ++ '.' :: d :: r.takeWhile Char.isDigit := by
      have happ := List.takeWhile_append_dropWhile (p := Char.isDigit) (l := r)
      rw [hdrop] at happ
      rw [← happ, ← List.cons_append, ← List.cons_append, ← List.append_assoc] at ht
      exact List.append_cancel_right ht
    obtain ⟨htake', hdrop'⟩ := hz.takeWhile (u := r.takeWhile Char.isDigit) (p := Char.isDigit) (by decide)
      fun e he => List.mem_takeWhile_imp he
    rw [ht, number_of_fraction hw hd, List.append_assoc, List.cons_append, List.cons_append, number_of_fraction hw hd,
      htake', hdrop']
  · rw [ht, number_of_whole hw hr hpoint] at hrest
    obtain rfl : r = y := hrest
    obtain rfl : u = w := List.append_cancel_right ht
    rw [number_of_whole hw hr hpoint]
    rcases hz with rfl | ⟨z, rfl⟩ <;> exact number_of_whole hw rfl (by simp)

theorem punct?_delimited (p : Punct) (hz : z.Delimits) : punct? (p.spelling.toList ++ z) = some p := by
  rcases hz with rfl | ⟨z, rfl⟩ <;> cases p <;> rfl

theorem afterAt_delimited (hcode : (afterAt (u ++ y)).code = none) (hrest : (afterAt (u ++ y)).rest = y) (hu : u ≠ [])
    (hz : z.Delimits) : afterAt (u ++ z) = { afterAt (u ++ y) with rest := z } := by
  obtain ⟨d, u, rfl⟩ := List.exists_cons_of_ne_nil hu
  -- a verbatim string, or an identifier
  by_cases hq : d = '"'
  · subst hq
    have hquote : z.head? ≠ some '"' := by rcases hz with rfl | ⟨z, rfl⟩ <;> simp
    exact literal_local (o := ['@', '"']) (Cut.verbatim_append _) hcode hrest
      fun hclosed _ => Cut.verbatim_append_of_head?_ne hclosed hquote
  · have hafter : ∀ t, afterAt (d :: t) = if isPlainWordStart d then
        ⟨.ident, '@' :: d :: t.takeWhile isIdentifierPart, t.dropWhile isIdentifierPart, none⟩
        else bad '@' (d :: t) := fun t => afterAt.eq_2 d t hq
    simp only [List.cons_append, hafter] at hcode hrest ⊢
    split at hcode
    · next hd =>
      rw [if_pos hd] at hrest
      have hw : word d (u ++ z) = { word d (u ++ y) with rest := z } := word_delimited hrest hz
      simp only [word, mk.injEq, List.cons.injEq] at hw
      simp [hd, hw]
    · cases hcode

/-- A raw token that nothing is wrong with is read again in front of a space, and at the end of a text. -/
theorem read_delimited (hcode : (read c (u ++ y)).code = none) (hrest : (read c (u ++ y)).rest = y)
    (hz : z.Delimits) : read c (u ++ z) = { read c (u ++ y) with rest := z } := by
  have htext : (read c (u ++ y)).text = c :: u := by
    have := read_append c (u ++ y)
    rw [hrest, ← List.cons_append] at this
    exact List.append_cancel_right this
  unfold read at hcode hrest htext ⊢
  split
  · next hc =>
    rw [if_pos hc] at hrest
    exact word_delimited hrest hz
  next hword =>
  rw [if_neg hword] at hcode hrest htext
  split
  · next hc =>
    rw [if_pos hc] at hrest
    exact number_delimited hrest hz
  next hdigit =>
  rw [if_neg hdigit] at hcode hrest htext
  split
  · next hc =>
    rw [if_pos hc] at hrest hcode
    exact literal_local (Cut.string_append _) hcode hrest fun h _ => Cut.string_local h z
  next hquote =>
  rw [if_neg hquote] at hcode hrest htext
  split
  · next hc =>
    rw [if_pos hc] at hrest hcode
    refine afterAt_delimited hcode hrest ?_ hz
    rintro rfl
    rw [if_pos hc] at htext
    exact text_ne_singleton.1 hcode htext
  next hat =>
  rw [if_neg hat] at hcode hrest htext
  split
  · next hc =>
    rw [if_pos hc] at hrest hcode
    refine afterDollar_local hcode hrest ?_
    rintro rfl
    rw [if_pos hc] at htext
    exact text_ne_singleton.2 hcode htext
  next hdollar =>
  rw [if_neg hdollar] at hcode hrest htext
  split
  · next hc =>
    rw [if_pos hc] at hrest hcode
    exact charLiteral_local hcode hrest
  next hchar =>
  rw [if_neg hchar] at hcode hrest htext
  cases hp : punct? (c :: (u ++ y)) with
  | none => simp [hp, bad] at hcode
  | some p =>
    rw [hp] at htext
    have hspell : p.spelling.toList = c :: u := htext
    have hdelimited : punct? (c :: (u ++ z)) = some p := by
      rw [← List.cons_append, ← hspell, punct?_delimited p hz]
    simp [hdelimited, hspell]

/-- **A token with a space behind it.** -/
theorem read_spaced (h : read c t = ⟨k, c :: t, [], none⟩) (z : Text) :
    read c (t ++ ' ' :: z) = ⟨k, c :: t, ' ' :: z, none⟩ := by
  have hread : read c (t ++ []) = ⟨k, c :: t, [], none⟩ := by rw [List.append_nil, h]
  rw [read_delimited (by rw [hread]) (by rw [hread]) (.space z), hread]

/-- **A token by itself.** Every token that nothing is wrong with is one token of its kind. -/
theorem whole_read (hcode : (read c t).code = none) : Whole (read c t).kind (read c t).text := by
  obtain ⟨d, u, htext⟩ := List.exists_cons_of_ne_nil (text_read_ne_nil c t)
  have happ := read_append c t
  rw [htext, List.cons_append] at happ
  obtain ⟨rfl, happ⟩ := List.cons.inj happ
  have halone : read d (u ++ []) = { read d (u ++ (read d t).rest) with rest := [] } :=
    read_delimited (by rw [happ]; exact hcode) (by rw [happ]) .nil
  rw [List.append_nil, happ] at halone
  exact ⟨d, u, htext, by rw [halone, ← hcode]⟩

/-- Behind an `@` every word is an identifier, a reserved one as well. -/
theorem whole_at (hc : isPlainWordStart c = true) (hu : ∀ d ∈ u, isIdentifierPart d = true) :
    Whole .ident ('@' :: c :: u) := by
  have hquote : c ≠ '"' := by
    rintro rfl
    cases hc
  have hread : read '@' (c :: u) = afterAt (c :: u) := read_delimiter (by decide)
  refine ⟨'@', c :: u, rfl, ?_⟩
  rw [hread, afterAt.eq_2 c u hquote, if_pos hc, List.takeWhile_eq_self_iff.2 hu, List.dropWhile_eq_nil_iff.2 hu]

/-! ## The front of a token -/

/-- No blank character and no number sign is or begins a token. -/
theorem not_starts_of_isBlank (h : isBlank c = true ∨ c = '#') :
    isWordStart c = false ∧ c.isDigit = false ∧ c ∉ ['"', '@', '$', '\''] ∧
      ∀ p : Punct, p.spelling.toList.head? ≠ some c := by
  have hspelling : ∀ p : Punct, ∀ d ∈ p.spelling.toList.head?, isBlank d = false ∧ d ≠ '#' := by
    intro p d hd
    cases p <;> (obtain rfl := Option.some.inj hd; decide)
  refine ⟨?_, ?_, ?_, fun p hp => ?_⟩
  · rcases h with h | rfl
    · exact isWordStart_of_isBlank h
    · exact (isWordStart_of_ascii (by decide)).trans (by decide)
  · rcases h with h | rfl
    · obtain ⟨n, hn, rfl⟩ := exists_of_isBlank h
      revert n
      decide +kernel
    · decide
  · rintro hc
    simp only [List.mem_cons, List.not_mem_nil, or_false] at hc
    rcases hc with rfl | rfl | rfl | rfl <;> revert h <;> decide
  · obtain ⟨hblank, hhash⟩ := hspelling p c hp
    rcases h with h | h
    · rw [hblank] at h
      cases h
    · exact hhash h

theorem head?_of_punct? {p : Punct} (h : punct? (c :: t) = some p) : p.spelling.toList.head? = some c := by
  obtain ⟨y, hy⟩ := prefix_of_punct? h
  cases hs : p.spelling.toList with
  | nil => exact absurd hs (spelling_ne_nil p)
  | cons d r =>
    rw [hs] at hy
    rw [(List.cons.inj hy).1]
    rfl

/-- Where something is read that is not wrong, no trivia but a comment begins. -/
theorem not_isBlank_of_read (h : (read c t).code = none) : isBlank c = false ∧ c ≠ '#' := by
  rw [← Bool.not_eq_true, ← not_or]
  intro hc
  obtain ⟨hword, hdigit, hdelimiter, hpunct⟩ := not_starts_of_isBlank hc
  simp only [List.mem_cons, List.not_mem_nil, or_false, not_or] at hdelimiter
  have hnone : punct? (c :: t) = none := Option.eq_none_iff_forall_ne_some.2 fun p hp => hpunct p (head?_of_punct? hp)
  unfold read at h
  rw [if_neg (by simp [hword]), if_neg (by simp [hdigit]), if_neg hdelimiter.1, if_neg hdelimiter.2.1,
    if_neg hdelimiter.2.2.1, if_neg hdelimiter.2.2.2, hnone] at h
  cases h

/-- A slash that begins a token is the slash or the slash with an equals sign. -/
theorem Whole.of_slash (h : read '/' t = ⟨k, '/' :: t, [], none⟩) : t = [] ∨ t = ['='] := by
  have htext : (read '/' t).text = '/' :: t := by rw [h]
  have hcode : (read '/' t).code = none := by rw [h]
  have hword : isWordStart '/' = false := (isWordStart_of_ascii (by decide)).trans (by decide)
  cases hp : punct? ('/' :: t) with
  | none =>
    have hread : read '/' t = bad '/' t := by simp [read, hword, hp]
    rw [hread] at hcode
    cases hcode
  | some p =>
    have hread : read '/' t = ⟨.punct p, p.spelling.toList, ('/' :: t).drop p.spelling.toList.length, none⟩ := by
      simp [read, hword, hp]
    rw [hread] at htext
    have hspell : p.spelling.toList = '/' :: t := htext
    cases p <;> simp_all [Punct.spelling]

end RawToken

/-! ## Scanning a token with a space behind it -/

/-- No trivia begins where a token does. -/
theorem RawToken.plain {c : Char} {t z : Text} {k : TokenKind} (h : read c t = ⟨k, c :: t, [], none⟩)
    (hz : z.Delimits) : Trailing.Plain (c :: (t ++ z)) := by
  obtain ⟨hblank, -⟩ := not_isBlank_of_read (c := c) (t := t) (by rw [h])
  rintro d u ⟨⟩
  refine ⟨by rw [isBlankInLine, hblank, Bool.false_and], ?_, ?_⟩
  · by_contra hc
    have hc : (c == '\n' || c == '\r') = true := Bool.eq_true_of_not_eq_false hc
    simp only [Bool.or_eq_true, beq_iff_eq] at hc
    rcases hc with rfl | rfl <;> cases hblank
  · rintro rfl
    rcases Whole.of_slash h with rfl | rfl
    · rcases hz with rfl | ⟨z, rfl⟩ <;> simp
    · simp

/-- No leading trivia is read where text is compiled. -/
theorem Leading.read_plain {c : Char} {t : Text} (h : Trailing.Plain (c :: t)) (hhash : c ≠ '#')
    {state : DirectiveState} (hactive : state.isActive = true) (lineStart : Bool) :
    read state lineStart (c :: t) = ⟨state, lineStart, c :: t, [], [], []⟩ := by
  obtain ⟨hblank, hbreak, hslash⟩ := h c t rfl
  refine run_of_step?_eq_none ?_ _
  have hdisabled : isDisabled ⟨state, lineStart, c :: t, [], [], []⟩ = false := by simp [isDisabled, hactive]
  by_cases hc : c = '/'
  · obtain ⟨hline, hblock⟩ := hslash hc
    simp [step?, hdisabled, hblank, hbreak, hhash, hline, hblock]
  · simp [step?, hdisabled, hblank, hbreak, hhash, hc]

theorem Trailing.read_space {c : Char} {t : Text} (h : Plain (c :: t)) (offset : Nat) :
    read offset (' ' :: c :: t) = ⟨[⟨.trivia .whitespace, [' ']⟩], [], c :: t⟩ := by
  have hspace : isBlankInLine ' ' = true := by decide
  obtain ⟨hblank, -⟩ := h c t rfl
  show run (t.length + 1 + 1) offset (' ' :: c :: t) = _
  rw [run_blank hspace, List.takeWhile_cons_of_neg (by simp [hblank]), List.dropWhile_cons_of_neg (by simp [hblank]),
    run_plain h]
  rfl

/-- The scan of a token with a space behind it, and another token behind that. -/
theorem scan_spaced {c d : Char} {t u : Text} {k : TokenKind} {context : Context}
    (h : RawToken.read c t = ⟨k, c :: t, [], none⟩) (hu : Trailing.Plain (d :: u))
    (hactive : context.directives.isActive = true) :
    (scan context (c :: (t ++ ' ' :: d :: u))).leaf =
        { kind := .token k, text := c :: t, trailing := [⟨.trivia .whitespace, [' ']⟩] } ∧
      (scan context (c :: (t ++ ' ' :: d :: u))).rest = d :: u ∧
      (scan context (c :: (t ++ ' ' :: d :: u))).context.directives = context.directives := by
  obtain ⟨-, hhash⟩ := RawToken.not_isBlank_of_read (c := c) (t := t) (by rw [h])
  have hplain : Trailing.Plain (c :: (t ++ ' ' :: d :: u)) := RawToken.plain h (.space _)
  simp [scan, Leading.read_plain hplain hhash hactive, Scan.ofRaw, RawToken.read_spaced h, Trailing.read_space hu,
    RawToken.complain]

/-- The scan of a token at the end of the text. -/
theorem scan_last {c : Char} {t : Text} {k : TokenKind} {context : Context}
    (h : RawToken.read c t = ⟨k, c :: t, [], none⟩) (hactive : context.directives.isActive = true) :
    (scan context (c :: t)).leaf = { kind := .token k, text := c :: t } ∧ (scan context (c :: t)).rest = [] ∧
      (scan context (c :: t)).context.directives = context.directives := by
  obtain ⟨-, hhash⟩ := RawToken.not_isBlank_of_read (c := c) (t := t) (by rw [h])
  have hplain : Trailing.Plain (c :: t) := by simpa using RawToken.plain h .nil
  have htrailing : ∀ offset, Trailing.read offset [] = ⟨[], [], []⟩ := fun _ => rfl
  simp [scan, Leading.read_plain hplain hhash hactive, Scan.ofRaw, h, htrailing, RawToken.complain]

end IncrementalSyntax

import IncrementalSyntax.Proofs.Token.Reprint

/-!
# Literals on one line

Strings, interpolated strings and character literals end on the line on which they begin. One that is not closed
there ends right in front of the line break, and is reported. There is one way for a line break to get into such a
literal: in a string inside a hole of an interpolated string a backslash passes over it. Of all other tokens only
verbatim strings have line breaks in them.

## Main definitions

* `Cut.GetsTo`: where the reader of an interpolated string stands behind some characters

## Main results

* `Cut.hides_interpolated`: how a line break gets into an interpolated string
* `RawToken.unclosed_read`: a literal that is not closed on its line
* `scan_singleLine`: the line breaks in a token, and literals that are not closed
-/

namespace IncrementalSyntax

/-! ## Line breaks in literals -/

namespace Cut

/-- The cut with more characters in front. -/
def prepend (u : Text) (cut : Cut) : Cut := { cut with taken := u ++ cut.taken }

/-- **Gets to.** The reader of an interpolated string passes over some characters of a text, and behind them it goes
on in a place. -/
def GetsTo (place : Place) (t u : Text) (place' : Place) : Prop :=
  ∃ r, t = u ++ r ∧ interpolated place t = (interpolated place' r).prepend u

theorem not_isLineBreak_of_mem_string {t : Text} : ∀ d ∈ (string t).taken, Text.isLineBreak d = false := by
  fun_induction string t with
  | case1 => simp [openAt]
  | case2 c t hc => rintro d (_ | ⟨_, ⟨⟩⟩); rfl
  | case3 c t hc ih =>
    have hc : Text.isLineBreak c = false := Bool.eq_false_iff.2 hc
    exact List.forall_mem_cons.2 ⟨rfl, List.forall_mem_cons.2 ⟨hc, ih⟩⟩
  | case4 t hne => rintro d (_ | ⟨_, ⟨⟩⟩); rfl
  | case5 => simp [openAt]
  | case6 c t hne hq hc ih => exact List.forall_mem_cons.2 ⟨Bool.eq_false_iff.2 hc, ih⟩

theorem not_isLineBreak_of_mem_apostrophe {t : Text} : ∀ d ∈ (apostrophe t).taken, Text.isLineBreak d = false := by
  fun_induction apostrophe t with
  | case1 => simp [openAt]
  | case2 t => rintro d (_ | ⟨_, ⟨⟩⟩); rfl
  | case3 => simp [openAt]
  | case4 c t hq hc ih => exact List.forall_mem_cons.2 ⟨Bool.eq_false_iff.2 hc, ih⟩

theorem not_isLineBreak_of_mem_char {t : Text} : ∀ d ∈ (char t).taken, Text.isLineBreak d = false := by
  fun_cases char t with
  | case1 c t hc => rintro d (_ | ⟨_, ⟨⟩⟩); rfl
  | case2 c t hc =>
    have hc : Text.isLineBreak c = false := Bool.eq_false_iff.2 hc
    exact List.forall_mem_cons.2 ⟨rfl, List.forall_mem_cons.2 ⟨hc, not_isLineBreak_of_mem_apostrophe⟩⟩
  | case3 => exact not_isLineBreak_of_mem_apostrophe

/-- **Hides.** Every line break in an interpolated string stands right behind a backslash of a string inside a hole. -/
def Hides (place : Place) (t : Text) : Prop :=
  ∀ a d b, (interpolated place t).taken = a ++ d :: b → Text.isLineBreak d = true →
    ∃ u depth, a = u ++ ['\\'] ∧ GetsTo place t u (.nested depth)

theorem Hides.of_forall {place : Place} {t : Text}
    (h : ∀ d ∈ (interpolated place t).taken, Text.isLineBreak d = false) : Hides place t := by
  intro a d b htaken hd
  have := h d (htaken ▸ List.mem_append_right _ List.mem_cons_self)
  rw [hd] at this
  cases this

/-- The line breaks behind some characters that are none. -/
theorem Hides.prepend {place place' : Place} {v t : Text} (ih : Hides place' t)
    (hv : ∀ d ∈ v, Text.isLineBreak d = false)
    (h : interpolated place (v ++ t) = (interpolated place' t).prepend v) : Hides place (v ++ t) := by
  intro a d b htaken hd
  have happ : v ++ (interpolated place' t).taken = a ++ d :: b := by
    rw [h] at htaken
    exact htaken
  have hbehind : ∀ a', a = v ++ a' → (interpolated place' t).taken = a' ++ d :: b →
      ∃ u depth, a = u ++ ['\\'] ∧ GetsTo place (v ++ t) u (.nested depth) := by
    rintro a' rfl htaken'
    obtain ⟨u, depth, rfl, r, rfl, hread⟩ := ih a' d b htaken' hd
    refine ⟨v ++ u, depth, (List.append_assoc ..).symm, r, (List.append_assoc ..).symm, ?_⟩
    rw [h, hread]
    simp [Cut.prepend]
  -- no line break is among the characters in front
  rcases List.append_eq_append_iff.1 happ with ⟨a', ha, htaken'⟩ | ⟨x, hx, htaken'⟩
  · exact hbehind a' ha htaken'
  · cases x with
    | nil => exact hbehind [] (by simpa using hx.symm) (by simpa using htaken'.symm)
    | cons e x =>
      obtain rfl : d = e := (List.cons.inj htaken').1
      have := hv d (hx ▸ List.mem_append_right _ List.mem_cons_self)
      rw [hd] at this
      cases this

/-- Behind a backslash of a string inside a hole stands a line break, or one comes later. -/
theorem Hides.nested_escape {depth : Nat} {c : Char} {t : Text} (ih : Hides (.nested depth) t) :
    Hides (.nested depth) ('\\' :: c :: t) := by
  intro a d b htaken hd
  have hread : interpolated (.nested depth) ('\\' :: c :: t) =
      (interpolated (.nested depth) t).prepend ['\\', c] := rfl
  have htaken' : '\\' :: c :: (interpolated (.nested depth) t).taken = a ++ d :: b := by
    rw [hread] at htaken
    exact htaken
  match a, htaken' with
  | [], htaken' =>
    obtain rfl : '\\' = d := (List.cons.inj htaken').1
    cases hd
  | [e], htaken' =>
    obtain rfl : '\\' = e := (List.cons.inj htaken').1
    exact ⟨[], depth, rfl, _, rfl, rfl⟩
  | e :: f :: a, htaken' =>
    simp only [List.cons_append, List.cons.injEq] at htaken'
    obtain ⟨rfl, rfl, htail⟩ := htaken'
    obtain ⟨u, depth', rfl, r, rfl, hlater⟩ := ih a d b htail hd
    refine ⟨'\\' :: c :: u, depth', rfl, r, rfl, ?_⟩
    rw [hread, hlater]
    rfl

theorem Hides.cons {place place' : Place} {c : Char} {t : Text} (ih : Hides place' t)
    (hc : Text.isLineBreak c = false) (h : interpolated place (c :: t) = (interpolated place' t).cons c) :
    Hides place (c :: t) :=
  ih.prepend (v := [c]) (List.forall_mem_singleton.2 hc) h

theorem Hides.cons₂ {place place' : Place} {c d : Char} {t : Text} (ih : Hides place' t)
    (hc : Text.isLineBreak c = false) (hd : Text.isLineBreak d = false)
    (h : interpolated place (c :: d :: t) = ((interpolated place' t).cons d).cons c) : Hides place (c :: d :: t) :=
  ih.prepend (v := [c, d]) (List.forall_mem_cons.2 ⟨hc, List.forall_mem_singleton.2 hd⟩) h

/-- The reader stops right here. -/
theorem Hides.of_openAt {place : Place} {t : Text} (h : interpolated place t = .openAt t) : Hides place t :=
  .of_forall (by simp [h, openAt])

/-- By induction on the text. A line break is passed over by a backslash in a nested string only. -/
theorem hides_interpolated (place : Place) (t : Text) : Hides place t := by
  fun_induction interpolated place t with
  | case1 place => exact .of_openAt (by cases place <;> rfl)
  | case2 depth c t ih => exact ih.nested_escape
  | case3 depth t hne ih => exact ih.cons rfl (by simp [interpolated])
  | case4 depth c t hne hq hc =>
    exact .of_openAt (by rw [interpolated.eq_3 _ _ _ hne, if_neg hq, if_pos hc])
  | case5 depth c t hne hq hc ih =>
    exact ih.cons (Bool.eq_false_iff.2 hc) (by rw [interpolated.eq_3 _ _ _ hne, if_neg hq, if_neg hc])
  | case6 depth c t hc => exact .of_openAt (by simp [interpolated, hc])
  | case7 depth t hc ih => exact ih.cons rfl (by simp [interpolated, hc])
  | case8 depth t hc hb ih => exact ih.cons rfl (by simp [interpolated, hc])
  | case9 depth t hc hb hb' ih => exact ih.cons rfl (by simp [interpolated, hc])
  | case10 depth c t hc hb hb' hq ih =>
    exact ih.cons (Bool.eq_false_iff.2 hc) (by simp [interpolated, hc, hb, hb', hq])
  | case11 c t hc =>
    refine .of_forall ?_
    have htaken : (interpolated .text ('\\' :: c :: t)).taken = ['\\'] := by simp [interpolated, hc, Cut.cons, openAt]
    rw [htaken]
    exact List.forall_mem_singleton.2 rfl
  | case12 c t hc ih => exact ih.cons₂ rfl (Bool.eq_false_iff.2 hc) (by simp [interpolated, hc])
  | case13 t ih => exact ih.cons₂ rfl rfl rfl
  | case14 t ih => exact ih.cons₂ rfl rfl rfl
  | case15 c t hne hne' hne'' hc => exact .of_openAt (by rw [interpolated.eq_8 _ _ hne hne' hne'', if_pos hc])
  | case16 t hne hne' hne'' hc ih =>
    exact ih.cons rfl (by rw [interpolated.eq_8 _ _ hne hne' hne'', if_neg hc, if_pos rfl])
  | case17 t =>
    refine .of_forall ?_
    have htaken : (interpolated .text ('"' :: t)).taken = ['"'] := rfl
    rw [htaken]
    exact List.forall_mem_singleton.2 rfl
  | case18 c t hne hne' hne'' hc hb hq ih =>
    exact ih.cons (Bool.eq_false_iff.2 hc)
      (by rw [interpolated.eq_8 _ _ hne hne' hne'', if_neg hc, if_neg hb, if_neg hq])

/-! ## Literals that are not closed -/

/-- **Stops.** The literal is closed, or it stops at the end of the text or at a line break. -/
def Stops (cut : Cut) : Prop := cut.closed = false → ∀ d ∈ cut.rest.head?, Text.isLineBreak d = true

theorem stops_string (t : Text) : (string t).Stops := by
  fun_induction string t with
  | case1 => simp [Stops, openAt]
  | case2 c t hc => rintro - d ⟨⟩; exact hc
  | case3 c t hc ih => exact ih
  | case4 => simp [Stops, close]
  | case5 c t hne hq hc => rintro - d ⟨⟩; exact hc
  | case6 c t hne hq hc ih => exact ih

theorem stops_apostrophe (t : Text) : (apostrophe t).Stops := by
  fun_induction apostrophe t with
  | case1 => simp [Stops, openAt]
  | case2 => simp [Stops, close]
  | case3 c t hq hc => rintro - d ⟨⟩; exact hc
  | case4 c t hq hc ih => exact ih

theorem stops_char (t : Text) : (char t).Stops := by
  fun_cases char t with
  | case1 c t hc => rintro - d ⟨⟩; exact hc
  | case2 c t hc => exact stops_apostrophe t
  | case3 => exact stops_apostrophe t

theorem stops_interpolated (place : Place) (t : Text) : (interpolated place t).Stops := by
  fun_induction interpolated place t with
  | case1 => simp [Stops, openAt]
  | case2 depth c t ih => exact ih
  | case3 depth t hne ih => exact ih
  | case4 depth c t hne hq hc => rintro - d ⟨⟩; exact hc
  | case5 depth c t hne hq hc ih => exact ih
  | case6 depth c t hc => rintro - d ⟨⟩; exact hc
  | case7 depth t hc ih => exact ih
  | case8 depth t hc hb ih => exact ih
  | case9 depth t hc hb hb' ih => exact ih
  | case10 depth c t hc hb hb' hq ih => exact ih
  | case11 c t hc => rintro - d ⟨⟩; exact hc
  | case12 c t hc ih => exact ih
  | case13 t ih => exact ih
  | case14 t ih => exact ih
  | case15 c t hne hne' hne'' hc => rintro - d ⟨⟩; exact hc
  | case16 t hne hne' hne'' hc ih => exact ih
  | case17 => simp [Stops, close]
  | case18 c t hne hne' hne'' hc hb hq ih => exact ih

end Cut

/-! ## Raw tokens -/

/-- No line break is part of a word or a number, nor does one begin a token. -/
theorem not_isLineBreak_of_class {d : Char}
    (h : isIdentifierPart d = true ∨ isWordStart d = true ∨ d.isDigit = true ∨ RawToken.isPlainWordStart d = true) :
    Text.isLineBreak d = false := by
  -- all of these characters may stand inside an identifier
  have hpart : isIdentifierPart d = true := by
    rcases h with h | h | h | h
    · exact h
    · exact isIdentifierPart_of_isWordStart h
    · exact identifierClasses.part_of_isAlphanum (by rw [Char.isAlphanum, h, Bool.or_true])
    · exact isIdentifierPart_of_isWordStart (RawToken.isWordStart_of_isPlainWordStart h)
  by_contra hd
  rw [identifierClasses.part_of_isLineBreak (Bool.eq_true_of_not_eq_false hd)] at hpart
  cases hpart

namespace RawToken

variable {c : Char} {t : Text}

/-- The text of a token but of a verbatim or an interpolated string is on one line. -/
def SingleLine (r : RawToken) : Prop :=
  r.kind = .literal .verbatim ∨ ∀ d ∈ r.text, Text.isLineBreak d = false

theorem singleLine_word (h : isWordStart c = true) : (word c t).SingleLine :=
  .inr (List.forall_mem_cons.2 ⟨not_isLineBreak_of_class (.inr (.inl h)),
    fun _ hd => not_isLineBreak_of_class (.inl (List.mem_takeWhile_imp hd))⟩)

theorem singleLine_number (h : c.isDigit = true) : (number c t).SingleLine := by
  have hdigits : ∀ r : Text, ∀ d ∈ r.takeWhile Char.isDigit, Text.isLineBreak d = false :=
    fun r d hd => not_isLineBreak_of_class (.inr (.inr (.inl (List.mem_takeWhile_imp hd))))
  have hc := not_isLineBreak_of_class (.inr (.inr (.inl h)))
  unfold number
  dsimp only
  split
  · next e r _ =>
    split
    · next he =>
      have he := not_isLineBreak_of_class (.inr (.inr (.inl he)))
      refine .inr (List.forall_mem_append.2 ⟨List.forall_mem_cons.2 ⟨hc, hdigits t⟩, ?_⟩)
      exact List.forall_mem_cons.2 ⟨rfl, List.forall_mem_cons.2 ⟨he, hdigits r⟩⟩
    · exact .inr (List.forall_mem_cons.2 ⟨hc, hdigits t⟩)
  · exact .inr (List.forall_mem_cons.2 ⟨hc, hdigits t⟩)

theorem singleLine_bad (h : Text.isLineBreak c = false) : (bad c t).SingleLine :=
  .inr (List.forall_mem_singleton.2 h)

theorem singleLine_afterAt (t : Text) : (afterAt t).SingleLine := by
  unfold afterAt
  split
  · exact .inl rfl
  · next d t _ =>
    split
    · next hd =>
      refine .inr (List.forall_mem_cons.2 ⟨rfl, List.forall_mem_cons.2 ⟨?_, fun e he => ?_⟩⟩)
      · exact not_isLineBreak_of_class (.inr (.inr (.inr hd)))
      · exact not_isLineBreak_of_class (.inl (List.mem_takeWhile_imp he))
    · exact singleLine_bad rfl
  · exact singleLine_bad rfl

theorem singleLine_charLiteral (t : Text) : (charLiteral t).SingleLine := by
  have htext : (charLiteral t).text = '\'' :: (Cut.char t).taken := by
    unfold charLiteral
    dsimp only
    split <;> rfl
  refine .inr ?_
  rw [htext]
  exact List.forall_mem_cons.2 ⟨rfl, Cut.not_isLineBreak_of_mem_char⟩

/-- A token is on one line, or it is an interpolated string. -/
theorem singleLine_read (hc : Text.isLineBreak c = false) : (read c t).SingleLine ∨
    ∃ u, c = '$' ∧ t = '"' :: u ∧ read c t = literal .interpolated ['$', '"'] (Cut.interpolated .text u) .openString := by
  unfold read
  split
  · next h => exact .inl (singleLine_word h)
  split
  · next h => exact .inl (singleLine_number h)
  split
  · exact .inl (.inr (List.forall_mem_cons.2 ⟨rfl, Cut.not_isLineBreak_of_mem_string⟩))
  split
  · exact .inl (singleLine_afterAt t)
  split
  · next h =>
    subst h
    unfold afterDollar
    split
    · next u => exact .inr ⟨u, rfl, rfl, rfl⟩
    · exact .inl (singleLine_bad rfl)
  split
  · exact .inl (singleLine_charLiteral t)
  split
  · next p _ =>
    have hspelling : (p.spelling.toList.all fun d => !Text.isLineBreak d) = true := by cases p <;> rfl
    exact .inl (.inr fun d hd => by simpa using List.all_eq_true.1 hspelling d hd)
  · exact .inl (singleLine_bad hc)

/-- What a literal that is not closed is reported as. -/
def openCode : Literal → Code
  | .char => .badCharLiteral
  | _ => .openString

/-- The kinds of literals that end on the line on which they begin. -/
def lineLiterals : List Literal := [.string, .interpolated, .char]

/-- **Unclosed.** The token is reported as a literal that is not closed, and stops at a line break or at the end of the
text. -/
structure Unclosed (k : Literal) (r : RawToken) : Prop where
  code : r.code = some (openCode k)
  stops : ∀ d ∈ r.rest.head?, Text.isLineBreak d = true

theorem unclosed_literal {k : Literal} {opening : Text} {cut : Cut} (hcut : cut.Stops)
    (hcode : (literal k opening cut (openCode k)).code ≠ none) : (literal k opening cut (openCode k)).Unclosed k := by
  have hopen : cut.closed = false := by
    by_contra hc
    simp [literal, hc] at hcode
  exact ⟨by simp [literal, hopen], hcut hopen⟩

theorem kind_afterAt_notMem {k : Literal} (hk : k ∈ lineLiterals) (t : Text) : (afterAt t).kind ≠ .literal k := by
  unfold afterAt
  split
  · rintro ⟨⟩
    exact absurd hk (by decide)
  · split <;> simp [bad]
  · simp [bad]

theorem unclosed_afterDollar {k : Literal} (hkind : (afterDollar t).kind = .literal k)
    (hcode : (afterDollar t).code ≠ none) : (afterDollar t).Unclosed k := by
  by_cases hquote : ∃ u, t = '"' :: u
  · obtain ⟨u, rfl⟩ := hquote
    obtain rfl : .interpolated = k := TokenKind.literal.inj hkind
    exact unclosed_literal (Cut.stops_interpolated .text u) hcode
  · rw [afterDollar.eq_2 _ fun u hu => hquote ⟨u, hu⟩] at hkind
    cases hkind

/-- A character literal is reported if it is not closed, and if it is empty. -/
theorem unclosed_charLiteral {k : Literal} (hkind : (charLiteral t).kind = .literal k)
    (hcode : (charLiteral t).code ≠ none) (hempty : (charLiteral t).text ≠ ['\'', '\'']) :
    (charLiteral t).Unclosed k := by
  unfold charLiteral at hkind hcode hempty ⊢
  dsimp only at hkind hcode hempty ⊢
  split at hcode
  · next h =>
    rw [if_pos h] at hempty
    exact absurd h hempty
  · next h =>
    rw [if_neg h] at hkind ⊢
    obtain rfl : .char = k := TokenKind.literal.inj hkind
    exact unclosed_literal (Cut.stops_char t) hcode

/-- What is reported of a literal that is not closed covers the whole text. -/
theorem Unclosed.complain_eq {k : Literal} {r : RawToken} (h : r.Unclosed k) (offset : Nat) :
    r.complain offset = [.ofCode (openCode k) offset (Text.width r.text) []] := by
  unfold complain
  rw [h.code]
  cases k <;> rfl

/-- Each line break in an interpolated string stands right behind a backslash that is read in a nested string. -/
theorem exists_getsTo {u a b : Text} {d : Char} (hd : Text.isLineBreak d = true)
    (htext : ['$', '"'] ++ (Cut.interpolated .text u).taken = a ++ d :: b) :
    ∃ v depth, a = ['$', '"'] ++ v ++ ['\\'] ∧ Cut.GetsTo .text u v (.nested depth) := by
  match a, htext with
  | [], htext =>
    obtain rfl := (List.cons.inj htext).1
    cases hd
  | [e], htext =>
    obtain rfl := (List.cons.inj (List.cons.inj htext).2).1
    cases hd
  | e :: f :: a, htext =>
    simp only [List.cons_append, List.nil_append, List.cons.injEq] at htext
    obtain ⟨rfl, rfl, htext⟩ := htext
    obtain ⟨v, depth, rfl, hv⟩ := Cut.hides_interpolated .text u a d b htext hd
    exact ⟨v, depth, rfl, hv⟩

/-- A literal that is not one token by itself has not been closed, unless it is a character literal with no character
in it. -/
theorem unclosed_read {k : Literal} (hk : k ∈ lineLiterals) (hkind : (read c t).kind = .literal k)
    (hwhole : ¬Whole (.literal k) (read c t).text) (hempty : (read c t).text ≠ ['\'', '\'']) :
    (read c t).Unclosed k := by
  -- a token that nothing is wrong with would be one by itself
  have hcode : (read c t).code ≠ none := fun hnone => hwhole (hkind ▸ whole_read hnone)
  clear hwhole
  unfold read at hkind hcode hempty ⊢
  split
  · next h =>
    rw [if_pos h] at hcode
    exact absurd rfl hcode
  next hword =>
  rw [if_neg hword] at hkind hcode hempty
  split
  · next h =>
    rw [if_pos h] at hcode
    exact absurd (code_number c t) hcode
  next hdigit =>
  rw [if_neg hdigit] at hkind hcode hempty
  split
  · next h =>
    rw [if_pos h] at hkind hcode
    obtain rfl : .string = k := TokenKind.literal.inj hkind
    exact unclosed_literal (Cut.stops_string t) hcode
  next hquote =>
  rw [if_neg hquote] at hkind hcode hempty
  split
  · next h =>
    rw [if_pos h] at hkind
    exact absurd hkind (kind_afterAt_notMem hk t)
  next hat =>
  rw [if_neg hat] at hkind hcode hempty
  split
  · next h =>
    rw [if_pos h] at hkind hcode
    exact unclosed_afterDollar hkind hcode
  next hdollar =>
  rw [if_neg hdollar] at hkind hcode hempty
  split
  · next h =>
    rw [if_pos h] at hkind hcode hempty
    exact unclosed_charLiteral hkind hcode hempty
  next hchar =>
  rw [if_neg hchar] at hkind
  split at hkind <;> cases hkind

end RawToken

/-! ## Scanned tokens -/

/-- No line break stands where a token begins. -/
theorem Leading.not_isLineBreak_of_step?_eq_none {l : Leading} {c : Char} {z : Text} (h : l.step? = none)
    (hrest : l.rest = c :: z) : Text.isLineBreak c = false := by
  by_contra hc
  have hc : Text.isLineBreak c = true := Bool.eq_true_of_not_eq_false hc
  rw [step?, if_neg (by simp [hrest])] at h
  split at h
  · cases h
  · rw [hrest] at h
    simp [hc, not_isBlankInLine_of_isLineBreak hc] at h

/-- **On one line.** A token but a verbatim string has a line break in its text only if it is an interpolated string,
and then each line break stands right behind a backslash that is read in a string inside a hole. A string, an
interpolated string or a character literal that is not one token by itself is reported as one that is not closed, over
its whole text, and stops right in front of a line break or at the end of the text; the empty character literal alone
is closed and reported. -/
theorem scan_singleLine (c : Context) (t : Text) :
    let l := (scan c t).leaf
    let behind := Trivia.textAll l.trailing ++ (scan c t).rest
    (l.kind ≠ .token (.literal .verbatim) → ∀ a d b, l.text = a ++ d :: b → Text.isLineBreak d = true →
      l.kind = .token (.literal .interpolated) ∧ ∃ u depth, a = ['$', '"'] ++ u ++ ['\\'] ∧
        Cut.GetsTo .text (u ++ '\\' :: d :: b ++ behind) u (.nested depth)) ∧
    ∀ k ∈ RawToken.lineLiterals, l.kind = .token (.literal k) → ¬RawToken.Whole (.literal k) l.text →
      l.text ≠ ['\'', '\''] →
      Diagnostic.ofCode (RawToken.openCode k) l.leadingWidth l.textWidth [] ∈ l.diagnostics ∧
        ∀ d ∈ behind.head?, Text.isLineBreak d = true := by
  rcases scan_cases c t with ⟨-, hs⟩ | ⟨e, z, hrest, hs⟩ <;> rw [hs]
  · refine ⟨fun _ a d b htext => absurd htext (by simp [Scan.atEnd]), fun k _ hkind => ?_⟩
    cases hkind
  · have hbehind : ∀ offset, Trivia.textAll (Trailing.read offset (RawToken.read e z).rest).pieces ++
        (Trailing.read offset (RawToken.read e z).rest).rest = (RawToken.read e z).rest :=
      fun offset => Trailing.read_append offset _
    dsimp only [Scan.ofRaw]
    rw [hbehind]
    refine ⟨fun hverbatim a d b htext hd => ?_, fun k hk hkind hwhole hempty => ?_⟩
    · have hstop : (Leading.read c.directives c.lineStart t).step? = none := Leading.step?_run le_rfl
      have hstart := Leading.not_isLineBreak_of_step?_eq_none hstop hrest
      rcases RawToken.singleLine_read (t := z) hstart with (hkind | hline) | ⟨u, rfl, rfl, hread⟩
      · exact absurd (congrArg Kind.token hkind) hverbatim
      · have := hline d (htext ▸ List.mem_append_right _ List.mem_cons_self)
        rw [hd] at this
        cases this
      · rw [hread] at htext ⊢
        obtain ⟨v, depth, rfl, hv⟩ := RawToken.exists_getsTo hd htext
        refine ⟨rfl, v, depth, rfl, ?_⟩
        have happ := Cut.interpolated_append .text u
        have htaken : (Cut.interpolated .text u).taken = v ++ '\\' :: d :: b := by
          simpa [RawToken.literal] using htext
        rw [← htaken]
        show Cut.GetsTo .text ((Cut.interpolated .text u).taken ++ (Cut.interpolated .text u).rest) v (.nested depth)
        rw [happ]
        exact hv
    · have hopen := RawToken.unclosed_read hk (Kind.token.inj hkind) hwhole hempty
      refine ⟨List.mem_append_left _ (List.mem_append_right _ ?_), hopen.stops⟩
      rw [hopen.complain_eq]
      exact List.mem_singleton_self _

/-- A line feed behind a backslash of a nested string, and a string that is not closed on its line. -/
theorem scan_singleLine_nested :
    (∃ depth, Cut.GetsTo .text ['\x7b', '"', '\\', '\n', '"', '\x7d', '"'] ['\x7b', '"'] (.nested depth)) ∧
    Diagnostic.ofCode .openString 0 2 [] ∈ (scan (.initial []) ['"', 'a', '\n']).leaf.diagnostics := by
  have hbehind : Trivia.textAll (scan (.initial []) ['$', '"', '\x7b', '"', '\\', '\n', '"', '\x7d', '"']).leaf.trailing ++
      (scan (.initial []) ['$', '"', '\x7b', '"', '\\', '\n', '"', '\x7d', '"']).rest = [] := by decide +kernel
  obtain ⟨-, u, depth, hu, hgets⟩ :=
    (scan_singleLine (.initial []) ['$', '"', '\x7b', '"', '\\', '\n', '"', '\x7d', '"']).1 (by decide +kernel)
      ['$', '"', '\x7b', '"', '\\'] '\n' ['"', '\x7d', '"'] (by decide +kernel) (by decide)
  have hwhole : ¬RawToken.Whole (.literal .string) (scan (.initial []) ['"', 'a', '\n']).leaf.text := by
    have htext : (scan (.initial []) ['"', 'a', '\n']).leaf.text = ['"', 'a'] := by decide +kernel
    rw [htext]
    rintro ⟨c, r, h, hread⟩
    obtain ⟨rfl, rfl⟩ := List.cons.inj h
    exact absurd (congrArg RawToken.code hread) (by decide +kernel)
  obtain ⟨hdiag, -⟩ := (scan_singleLine (.initial []) ['"', 'a', '\n']).2 .string (by decide) (by decide +kernel)
    hwhole (by decide +kernel)
  rw [hbehind, List.append_nil] at hgets
  have hsplit : ['$', '"'] ++ ['\x7b', '"'] ++ ['\\'] = ['$', '"'] ++ u ++ ['\\'] := hu
  obtain rfl := List.append_cancel_left (List.append_cancel_right hsplit)
  exact ⟨⟨depth, hgets⟩, hdiag⟩

/-- An interpolated string on two lines, which nothing is wrong with. -/
theorem exists_interpolated_lineBreak :
    ∃ l ∈ tokenize [] ['$', '"', '\x7b', '"', '\\', '\n', '"', '\x7d', '"'],
      l.kind = .token (.literal .interpolated) ∧ '\n' ∈ l.text ∧ l.diagnostics = [] := by
  decide +kernel

end IncrementalSyntax

import IncrementalSyntax.Proofs.Token.Locality
import IncrementalSyntax.Proofs.Token.Outcome

/-!
# Seeing a keyword

Whether the token at the front of a text is a certain keyword can be said from the text of that token and
what the scanner looks at behind it, whatever the token complains of. No line feed is left at the front of
what is behind a token, since the token would have taken it.

## Main results

* `getLast?_of_head?_rest_scan`: a token takes the line feed behind it
* `tokenKind_eq_of_behind`: no keyword turns up where the text of a token stays
-/

namespace IncrementalSyntax

/-! ## The end of a line -/

/-- A line terminator takes the line feed behind it. -/
theorem Text.getLast?_terminator {c : Char} {t : Text} (hc : isLineBreak c = true)
    (h : ((c :: t).drop (terminator (c :: t)).length).head? = some '\n') :
    (terminator (c :: t)).getLast? = some '\n' := by
  have hcases : c = '\n' ∨ c = '\r' := by simpa [isLineBreak] using hc
  rcases hcases with rfl | rfl
  · rfl
  · cases t with
    | nil => cases h
    | cons d t =>
      by_cases hd : d = '\n'
      · subst hd
        rfl
      · -- a carriage return alone stands in front of another character
        have hlone : terminator ('\r' :: d :: t) = ['\r'] := by simp [terminator, isLineBreak, hd]
        rw [hlone] at h
        exact absurd (by simpa using h) hd

/-- Trailing trivia in front of a line feed ends with one. -/
theorem Trailing.getLast?_of_head?_run {fuel offset : Nat} {t : Text} (hfuel : t.length ≤ fuel)
    (h : (run fuel offset t).rest.head? = some '\n') :
    (Trivia.textAll (run fuel offset t).pieces).getLast? = some '\n' := by
  fun_induction run fuel offset t with
  | case1 offset t =>
    obtain rfl : t = [] := by simpa using hfuel
    cases h
  | case2 => cases h
  | case3 fuel offset c t hc text ih =>
    have hle := (List.dropWhile_sublist isBlankInLine (l := t)).length_le
    have hlast := ih (by simp at hfuel; omega) h
    simp [cons, List.getLast?_append, hlast]
  | case4 fuel offset c t hc hl text ih =>
    have hpos : 0 < text.length := by
      obtain ⟨rfl, -⟩ : c = '/' ∧ _ := by simpa using hl
      simp [text, Text.line, Text.isLineBreak]
    have hlast := ih (by simp at hfuel ⊢; omega) h
    simp [cons, List.getLast?_append, hlast]
  | case5 fuel offset c t hc hl hs comment ih =>
    have happ := congrArg List.length (Comment.ofBody_append t.tail)
    have hpos := List.length_pos_iff.2 (Comment.text_ofBody_ne_nil t.tail)
    have hlen : t.tail.length + 1 = t.length := by
      cases t with
      | nil => simp at hs
      | cons d t => simp
    have hlast := ih (by simp [comment] at hfuel happ ⊢; omega) h
    simp [cons, List.getLast?_append, hlast]
  | case6 fuel offset c t hc hl hs hbreak text =>
    simpa using Text.getLast?_terminator hbreak h
  | case7 fuel offset c t hc hl hs hbreak =>
    obtain rfl : c = '\n' := by simpa using h
    exact absurd rfl hbreak

/-- A token takes the line feed behind it. -/
theorem getLast?_of_head?_rest_scan {c : Context} {t : Text} (h : (scan c t).rest.head? = some '\n') :
    (scan c t).leaf.fullText.getLast? = some '\n' := by
  rcases scan_cases c t with ⟨-, hs⟩ | ⟨d, z, -, hs⟩
  · rw [hs] at h
    cases h
  · rw [hs] at h ⊢
    have hlast := Trailing.getLast?_of_head?_run le_rfl h
    rw [Leaf.fullText, List.getLast?_append]
    exact Option.or_eq_some_iff.2 (.inl hlast)

/-! ## Keywords -/

/-- Where the text of a token stays, and what is seen behind it, no keyword turns up that was not there. -/
theorem tokenKind_eq_of_behind {c : Context} {t r' : Text} {k : Keyword}
    (hkind : (scan c t).leaf.tokenKind ≠ .eof)
    (hb : Text.Behind (scan c t).leaf.fullText (scan c t).rest r')
    (h : (scan c ((scan c t).leaf.fullText ++ r')).leaf.tokenKind = .keyword k) :
    (scan c t).leaf.tokenKind = .keyword k := by
  rcases scan_cases c t with ⟨-, hs⟩ | ⟨d, z, hrest, hs⟩
  · rw [hs] at hkind
    exact absurd rfl hkind
  set l := Leading.read c.directives c.lineStart t with hl
  set raw := RawToken.read d z with hraw
  rw [hs] at hb h ⊢
  -- the text is cut into leading trivia, the word `d :: u`, trailing trivia `v` and the rest `r`
  obtain ⟨v, r, hr, hv, hsplit⟩ : ∃ v r, (Scan.ofRaw l raw).rest = r ∧
      Trivia.textAll (Scan.ofRaw l raw).leaf.trailing = v ∧ raw.rest = v ++ r :=
    ⟨_, _, rfl, rfl, (Trailing.read_append _ _).symm⟩
  have happ := RawToken.read_append d z
  rw [← hraw, hsplit] at happ
  obtain ⟨u, hu⟩ : ∃ u, raw.text = d :: u := by
    obtain ⟨e, u, hu⟩ := List.exists_cons_of_ne_nil (RawToken.text_read_ne_nil d z)
    rw [← hraw] at hu
    rw [hu] at happ
    exact ⟨u, by rw [hu, (List.cons.inj happ).1]⟩
  obtain rfl : z = u ++ (v ++ r) := by
    rw [hu] at happ
    exact (List.cons.inj happ).2.symm
  have hfull : (Scan.ofRaw l raw).leaf.fullText = Trivia.textAll l.pieces ++ (d :: u ++ v) := by
    rw [← hu, ← hv, ← List.append_assoc]
    rfl
  rw [hr, hfull] at hb
  rw [hfull] at h
  -- the leading trivia are read again, and the same character begins the token
  have hread : Leading.read c.directives c.lineStart (Trivia.textAll l.pieces ++ (d :: u ++ v) ++ r') =
      l.withRest (d :: (u ++ (v ++ r'))) := by
    have happ' := Leading.read_append c.directives c.lineStart t
    rw [← hl, hrest] at happ'
    have hahead : Text.Ahead (d :: (u ++ (v ++ r))) (d :: (u ++ (v ++ r'))) := by
      simpa using hb.ahead (by simp)
    have := @Leading.read_local c.directives c.lineStart (Trivia.textAll l.pieces) (d :: (u ++ (v ++ r)))
      (d :: (u ++ (v ++ r'))) (by rw [happ', ← hl, hrest]) (by simp) hahead
    rw [happ', ← hl] at this
    rw [← this]
    simp
  have hscan : scan c (Trivia.textAll l.pieces ++ (d :: u ++ v) ++ r') =
      .ofRaw (l.withRest (d :: (u ++ (v ++ r')))) (.read d (u ++ (v ++ r'))) := by
    simp only [scan, hread, Leading.withRest]
  rw [hscan] at h
  have hword : isWordStart d = true := RawToken.isWordStart_of_kind h rfl
  have hraw' : raw = .word d (u ++ (v ++ r)) := by rw [hraw, RawToken.read, if_pos hword]
  have hbehind : (v ++ r).head? = (v ++ r').head? := by
    rw [← List.append_assoc] at hb
    refine (hb.tail ?_).head?
    rw [List.getLast?_append_of_ne_nil _ (by simp), ← hu]
    exact RawToken.getLast?_read_ne (by rw [← hraw, hraw']; rfl)
  have hrest' : (RawToken.word d (u ++ (v ++ r))).rest = v ++ r := by rw [← hraw', hsplit]
  have hlocal := RawToken.word_local hrest' hbehind
  have hkind' : (RawToken.read d (u ++ (v ++ r'))).kind = .keyword k := h
  rw [RawToken.read, if_pos hword, hlocal, ← hraw'] at hkind'
  exact hkind'

end IncrementalSyntax

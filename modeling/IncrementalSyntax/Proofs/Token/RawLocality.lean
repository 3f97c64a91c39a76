import IncrementalSyntax.Proofs.Text.Identifier
import IncrementalSyntax.Proofs.Token.Ahead

/-!
# How far a raw token looks

A literal that is closed ends where it is closed, and a word, a number or punctuation ends where the next
characters do not belong to it. So a raw token that nothing is wrong with is read again from its own text.

## Main results

* `Cut.string_local`, `Cut.verbatim_local`, `Cut.interpolated_local`, `Cut.char_local`: the literals
* `RawToken.read_local`: every raw token that nothing is wrong with
* `RawToken.getLast?_read_ne`: such a token does not end with a line feed
-/

namespace IncrementalSyntax

namespace Cut

/-- A string that is closed depends on its own text. -/
theorem string_local {t : Text} (h : (string t).closed = true) (y : Text) :
    string ((string t).taken ++ y) = ⟨(string t).taken, y, true⟩ := by
  fun_induction string t with
  | case1 => simp [openAt] at h
  | case2 c t hc => simp [cons, openAt] at h
  | case3 c t hc ih => simp [cons, string, hc, ih h]
  | case4 t hne => simp [close, string]
  | case5 c t hne hq hc => simp [openAt] at h
  | case6 c t hne hq hc ih =>
    have hback : c ≠ '\\' := by
      rintro rfl
      cases t with
      | nil => simp [cons, string, openAt] at h
      | cons d t => exact hne d t rfl rfl
    simp only [cons, List.cons_append]
    rw [string.eq_3 _ _ (fun d s hd _ => hback hd), if_neg hq, if_neg hc, ih h]
    rfl

/-- A verbatim string ends at a quote with no other quote behind it. -/
theorem verbatim_append_of_head?_ne {t y : Text} (h : (verbatim t).closed = true) (hy : y.head? ≠ some '"') :
    verbatim ((verbatim t).taken ++ y) = ⟨(verbatim t).taken, y, true⟩ := by
  fun_induction verbatim t with
  | case1 => simp [openAt] at h
  | case2 t ih => simp [cons, verbatim, ih h]
  | case3 t hne =>
    have hy' : ∀ t', '"' = '"' → y = '"' :: t' → False := by
      rintro t' - rfl
      exact hy rfl
    simp only [close, List.singleton_append]
    rw [verbatim.eq_3 _ _ hy', if_pos rfl]
    rfl
  | case4 c t hne hq ih =>
    simp only [cons, List.cons_append]
    rw [verbatim.eq_3 _ _ (fun s hd _ => hq hd), if_neg hq, ih h]
    rfl

theorem head?_rest_verbatim {t : Text} (h : (verbatim t).closed = true) : (verbatim t).rest.head? ≠ some '"' := by
  fun_induction verbatim t with
  | case1 => simp [openAt] at h
  | case2 t ih => exact ih h
  | case3 t hne =>
    intro hhead
    obtain ⟨t', rfl⟩ := List.head?_eq_some_iff.1 (by simpa [close] using hhead)
    exact hne t' rfl rfl
  | case4 c t hne hq ih => exact ih h

/-- A string over several lines that is closed depends on its own text and on whether another quote
comes behind it. -/
theorem verbatim_local {t y' : Text} (h : (verbatim t).closed = true)
    (hy : (verbatim t).rest.head? = y'.head?) :
    verbatim ((verbatim t).taken ++ y') = ⟨(verbatim t).taken, y', true⟩ :=
  verbatim_append_of_head?_ne h (hy ▸ head?_rest_verbatim h)

theorem apostrophe_local {t : Text} (h : (apostrophe t).closed = true) (y : Text) :
    apostrophe ((apostrophe t).taken ++ y) = ⟨(apostrophe t).taken, y, true⟩ := by
  fun_induction apostrophe t with
  | case1 => simp [openAt] at h
  | case2 t => simp [close, apostrophe]
  | case3 c t hq hc => simp [openAt] at h
  | case4 c t hq hc ih => simp [cons, apostrophe, hq, hc, ih h]

/-- The text of a literal begins as the literal does. -/
theorem exists_cons_of_append_eq {cut : Cut} {t y s : Text} {d : Char}
    (happ : cut.taken ++ cut.rest = t) (hne : cut.taken ≠ []) (hs : cut.taken ++ y = d :: s) :
    ∃ s', t = d :: s' := by
  obtain ⟨c, u, hu⟩ := List.exists_cons_of_ne_nil hne
  rw [hu, List.cons_append] at hs
  obtain rfl : c = d := (List.cons.inj hs).1
  exact ⟨u ++ cut.rest, by rw [← happ, hu, List.cons_append]⟩

theorem taken_apostrophe_ne_nil {t : Text} (h : (apostrophe t).closed = true) :
    (apostrophe t).taken ≠ [] := by
  fun_cases apostrophe t with
  | case1 => simp [apostrophe, openAt] at h
  | case2 t => simp [close]
  | case3 c t hq hc => simp [apostrophe, openAt, hq, hc] at h
  | case4 c t hq hc => simp [cons]

theorem char_local {t : Text} (h : (char t).closed = true) (y : Text) :
    char ((char t).taken ++ y) = ⟨(char t).taken, y, true⟩ := by
  fun_cases char t with
  | case1 c t hc => simp [char, hc, cons, openAt] at h
  | case2 c t hc =>
    have h' : (apostrophe t).closed = true := by simpa [char, hc, cons] using h
    simp [char, hc, cons, apostrophe_local h' y]
  | case3 t hne =>
    rw [char.eq_2 _ hne] at h
    have hne' : ∀ c s, (apostrophe t).taken ++ y = '\\' :: c :: s → False := by
      intro c s hs
      obtain ⟨s', rfl⟩ :=
        exists_cons_of_append_eq (apostrophe_append t) (taken_apostrophe_ne_nil h) hs
      cases s' with
      | nil => simp [apostrophe, cons, openAt, Text.isLineBreak] at h
      | cons d s' => exact hne d s' rfl
    rw [char.eq_2 _ hne', apostrophe_local h y]

theorem taken_interpolated_ne_nil {place : Place} {t : Text}
    (h : (interpolated place t).closed = true) : (interpolated place t).taken ≠ [] := by
  fun_induction interpolated place t <;> simp_all [cons, openAt, close]

/-- An interpolated string that is closed depends on its own text. -/
theorem interpolated_local {place : Place} {t : Text} (h : (interpolated place t).closed = true)
    (y : Text) :
    interpolated place ((interpolated place t).taken ++ y) =
      ⟨(interpolated place t).taken, y, true⟩ := by
  have hcons : ∀ {place t d s}, (interpolated place t).closed = true →
      (interpolated place t).taken ++ y = d :: s → ∃ s', t = d :: s' := fun h hs =>
    exists_cons_of_append_eq (interpolated_append _ _) (taken_interpolated_ne_nil h) hs
  fun_induction interpolated place t with
  | case1 => simp [openAt] at h
  | case2 depth c t ih => simp [cons, interpolated, ih h]
  | case3 depth t hne ih => simp [cons, interpolated, ih h]
  | case4 => simp [openAt] at h
  | case5 depth c t hne hq hc ih =>
    have hback : ∀ d s, c = '\\' → (interpolated (.nested depth) t).taken ++ y = d :: s → False := by
      rintro d s hd hs
      obtain ⟨s', hs'⟩ := hcons h hs
      exact hne d s' hd hs'
    simp only [cons, List.cons_append]
    rw [interpolated.eq_3 _ _ _ hback, if_neg hq, if_neg hc, ih h]
    rfl
  | case6 => simp [openAt] at h
  | case7 depth t hc ih => simp [cons, interpolated, hc, ih h]
  | case8 depth t hc hb ih => simp [cons, interpolated, hc, ih h]
  | case9 depth t hc hb hb' ih => simp [cons, interpolated, hc, ih h]
  | case10 depth c t hc hb hb' hq ih => simp [cons, interpolated, hc, hb, hb', hq, ih h]
  | case11 c t hc => simp [cons, openAt] at h
  | case12 c t hc ih => simp [cons, interpolated, hc, ih h]
  | case13 t ih => simp [cons, interpolated, ih h]
  | case14 t ih => simp [cons, interpolated, ih h]
  | case15 => simp [openAt] at h
  | case16 t hne hne' hne'' hc ih =>
    have hopen : ∀ s, '\x7b' = '\x7b' → (interpolated (.hole 0) t).taken ++ y = '\x7b' :: s → False := by
      rintro s hb hs
      obtain ⟨s', hs'⟩ := hcons h hs
      exact hne' s' hb hs'
    simp only [cons, List.cons_append]
    rw [interpolated.eq_8 _ _ (by simp) hopen (by simp), if_neg hc, if_pos rfl, ih h]
    rfl
  | case17 t => simp [close, interpolated, Text.isLineBreak]
  | case18 c t hne hne' hne'' hc hb hq ih =>
    have hback : ∀ d s, c = '\\' → (interpolated .text t).taken ++ y = d :: s → False := by
      rintro d s hd hs
      obtain ⟨s', hs'⟩ := hcons h hs
      exact hne d s' hd hs'
    have hclose : ∀ s, c = '\x7d' → (interpolated .text t).taken ++ y = '\x7d' :: s → False := by
      rintro s hd hs
      obtain ⟨s', hs'⟩ := hcons h hs
      exact hne'' s' hd hs'
    simp only [cons, List.cons_append]
    rw [interpolated.eq_8 _ _ hback (fun s hd _ => hb hd) hclose, if_neg hc, if_neg hb, if_neg hq, ih h]
    rfl
theorem getLast?_string {t : Text} (h : (string t).closed = true) : (string t).taken.getLast? = some '"' := by
  fun_induction string t <;> simp_all [cons, openAt, close, List.getLast?_cons]

theorem getLast?_verbatim {t : Text} (h : (verbatim t).closed = true) :
    (verbatim t).taken.getLast? = some '"' := by
  fun_induction verbatim t <;> simp_all [cons, openAt, close, List.getLast?_cons]

theorem getLast?_apostrophe {t : Text} (h : (apostrophe t).closed = true) :
    (apostrophe t).taken.getLast? = some '\'' := by
  fun_induction apostrophe t <;> simp_all [cons, openAt, close, List.getLast?_cons]

theorem getLast?_interpolated {place : Place} {t : Text} (h : (interpolated place t).closed = true) :
    (interpolated place t).taken.getLast? = some '"' := by
  fun_induction interpolated place t <;> simp_all [cons, openAt, close, List.getLast?_cons]

theorem getLast?_char {t : Text} (h : (char t).closed = true) : (char t).taken.getLast? = some '\'' := by
  fun_cases char t <;> simp_all [char, cons, openAt, List.getLast?_cons, getLast?_apostrophe]

end Cut

namespace RawToken

theorem closed_of_code_literal {kind : Literal} {opening : Text} {cut : Cut} {code : Code}
    (h : (literal kind opening cut code).code = none) : cut.closed = true := by
  by_contra hc
  simp [literal, hc] at h

/-- A literal whose cut depends on its own text depends on its own text. -/
theorem literal_local {kind : Literal} {o u y y' : Text} {cut : Text → Cut} {code : Code}
    (happ : (cut (u ++ y)).taken ++ (cut (u ++ y)).rest = u ++ y)
    (hcode : (literal kind o (cut (u ++ y)) code).code = none)
    (hrest : (literal kind o (cut (u ++ y)) code).rest = y)
    (hcut : (cut (u ++ y)).closed = true → (cut (u ++ y)).rest = y →
      cut ((cut (u ++ y)).taken ++ y') = ⟨(cut (u ++ y)).taken, y', true⟩) :
    literal kind o (cut (u ++ y')) code =
      { literal kind o (cut (u ++ y)) code with rest := y' } := by
  have hclosed := closed_of_code_literal hcode
  have hrest' : (cut (u ++ y)).rest = y := hrest
  have htaken : (cut (u ++ y)).taken = u := by
    rw [hrest'] at happ
    exact List.append_cancel_right happ
  have := hcut hclosed hrest'
  rw [htaken] at this
  simp [literal, this, hclosed, htaken]

theorem charLiteral_local {u y y' : Text} (hcode : (charLiteral (u ++ y)).code = none)
    (hrest : (charLiteral (u ++ y)).rest = y) :
    charLiteral (u ++ y') = { charLiteral (u ++ y) with rest := y' } := by
  unfold charLiteral at hcode hrest ⊢
  dsimp only at hcode hrest ⊢
  split at hcode
  · cases hcode
  · next hne =>
    rw [if_neg hne] at hrest
    have h := literal_local (Cut.char_append _) hcode hrest fun hc _ => Cut.char_local hc y'
    rw [h, if_neg hne, if_neg hne]

theorem word_local {c : Char} {u y y' : Text} (hrest : (word c (u ++ y)).rest = y)
    (hy : y.head? = y'.head?) : word c (u ++ y') = { word c (u ++ y) with rest := y' } := by
  have htake : (u ++ y).takeWhile isIdentifierPart = u := by
    have := List.takeWhile_append_dropWhile (p := isIdentifierPart) (l := u ++ y)
    rw [show (u ++ y).dropWhile isIdentifierPart = y from hrest] at this
    exact List.append_cancel_right this
  obtain ⟨htake', hdrop'⟩ := Text.takeWhile_local htake hy
  simp [word, htake, htake', hdrop']

/-- A number with a fraction: its digits, a point, a digit and further digits. -/
theorem number_of_fraction {c d : Char} {w r : Text} (hw : ∀ e ∈ w, e.isDigit = true)
    (hd : d.isDigit = true) :
    number c (w ++ '.' :: d :: r) = ⟨.literal .real, c :: w ++ '.' :: d :: r.takeWhile Char.isDigit,
      r.dropWhile Char.isDigit, none⟩ := by
  have hpoint : Char.isDigit '.' = false := by decide
  have htake : (w ++ '.' :: d :: r).takeWhile Char.isDigit = w := by
    rw [List.takeWhile_append_of_pos hw]
    simp [hpoint]
  have hdrop : (w ++ '.' :: d :: r).dropWhile Char.isDigit = '.' :: d :: r := by
    rw [List.dropWhile_append_of_pos hw]
    simp [hpoint]
  simp [number, htake, hdrop, hd]

/-- A number without a fraction: digits, and behind them neither a digit nor a point and a digit. -/
theorem number_of_whole {c : Char} {w r : Text} (hw : ∀ e ∈ w, e.isDigit = true)
    (hr : r.head?.all fun e => !e.isDigit)
    (hpoint : ∀ d r', r = '.' :: d :: r' → d.isDigit = false) :
    number c (w ++ r) = ⟨.literal .int, c :: w, r, none⟩ := by
  have htake : (w ++ r).takeWhile Char.isDigit = w := by
    rw [List.takeWhile_append_of_pos hw]
    cases r <;> simp_all
  have hdrop : (w ++ r).dropWhile Char.isDigit = r := by
    rw [List.dropWhile_append_of_pos hw]
    cases r <;> simp_all
  unfold number
  rw [htake, hdrop]
  split
  · next d r' => simp [hpoint d r' rfl]
  · rfl

/-- The digits at the front of a text, and behind them a fraction, or neither a digit nor a point and a digit. -/
theorem exists_digits (t : Text) : ∃ w r, t = w ++ r ∧ (∀ e ∈ w, Char.isDigit e = true) ∧
    ((∃ d r', r = '.' :: d :: r' ∧ d.isDigit = true) ∨
      (r.head?.all fun e => !e.isDigit) = true ∧ ∀ d r', r = '.' :: d :: r' → d.isDigit = false) := by
  refine ⟨_, _, (List.takeWhile_append_dropWhile (p := Char.isDigit) (l := t)).symm,
    fun e he => List.mem_takeWhile_imp he, ?_⟩
  by_cases hfrac : ∃ d r', t.dropWhile Char.isDigit = '.' :: d :: r' ∧ d.isDigit = true
  · exact .inl hfrac
  · refine .inr ⟨?_, fun d r' h => ?_⟩
    · have := List.head?_dropWhile_not Char.isDigit t
      cases h : (t.dropWhile Char.isDigit).head? with
      | none => rfl
      | some e => simpa [h] using this
    · by_contra hd
      exact hfrac ⟨d, r', h, by simpa using hd⟩

theorem number_local {c : Char} {u y y' : Text} (hrest : (number c (u ++ y)).rest = y)
    (hy : Text.Ahead y y') : number c (u ++ y') = { number c (u ++ y) with rest := y' } := by
  obtain ⟨w, r, ht, hw, ⟨d, r, rfl, hd⟩ | ⟨hr, hpoint⟩⟩ := exists_digits (u ++ y)
  · rw [ht, number_of_fraction hw hd] at hrest
    have hdw : r.dropWhile Char.isDigit = y := hrest
    obtain rfl : u = w ++ '.' :: d :: r.takeWhile Char.isDigit := by
      have hr' := List.takeWhile_append_dropWhile (p := Char.isDigit) (l := r)
      rw [hdw] at hr'
      rw [← hr', ← List.cons_append, ← List.cons_append, ← List.append_assoc] at ht
      exact List.append_cancel_right ht
    obtain ⟨htake', hdrop'⟩ := Text.takeWhile_local (p := Char.isDigit)
      (u := r.takeWhile Char.isDigit) (y := r.dropWhile Char.isDigit) (z := y')
      (by rw [List.takeWhile_append_dropWhile]) (by rw [hdw, hy.head?])
    rw [ht, number_of_fraction hw hd]
    simp only [List.append_assoc, List.cons_append]
    rw [number_of_fraction hw hd, htake', hdrop']
    simp
  · rw [ht, number_of_whole hw hr hpoint] at hrest
    obtain rfl : r = y := hrest
    obtain rfl : u = w := List.append_cancel_right ht
    rw [number_of_whole hw hr hpoint, number_of_whole hw (hy.head? ▸ hr) ?_]
    rintro d r' rfl
    rcases hy with hy | ⟨-, hy⟩
    · obtain ⟨r'', rfl⟩ : ∃ r'', r = '.' :: d :: r'' := by
        match r, hy with
        | [_], hy => simp at hy
        | e :: f :: r'', hy =>
          obtain ⟨rfl, rfl⟩ : e = '.' ∧ f = d := by simpa using hy
          exact ⟨r'', rfl⟩
      exact hpoint d r'' rfl
    · simp at hy

/-- Punctuation is found by the first two characters. -/
theorem punct?_congr {t t' : Text} (h : t.take 2 = t'.take 2) : punct? t = punct? t' := by
  have hfits : ∀ n ≤ 2, ∀ p : Punct,
      (decide (p.spelling.toList.length = n) && p.spelling.toList.isPrefixOf t) =
        (decide (p.spelling.toList.length = n) && p.spelling.toList.isPrefixOf t') := by
    intro n hn p
    by_cases hp : p.spelling.toList.length = n
    · have hiff : ∀ s : Text, p.spelling.toList <+: s ↔ p.spelling.toList <+: s.take 2 := fun s => by
        rw [List.prefix_take_iff]
        exact ⟨fun hs => ⟨hs, by omega⟩, And.left⟩
      rw [Bool.eq_iff_iff]
      simp only [Bool.and_eq_true, List.isPrefixOf_iff_prefix, hiff t, hiff t', h]
    · simp [hp]
  unfold punct?
  simp only [hfits 2 le_rfl, hfits 1 (by omega)]

theorem afterAt_local {u y y' : Text} (hcode : (afterAt (u ++ y)).code = none)
    (hrest : (afterAt (u ++ y)).rest = y) (hu : u ≠ []) (hy : y.head? = y'.head?) :
    afterAt (u ++ y') = { afterAt (u ++ y) with rest := y' } := by
  obtain ⟨c, u, rfl⟩ := List.exists_cons_of_ne_nil hu
  by_cases hq : c = '"'
  · subst hq
    exact literal_local (o := ['@', '"']) (Cut.verbatim_append _) hcode hrest
      fun hc hr => Cut.verbatim_local hc (by rw [hr, hy])
  · have hafter : ∀ t, afterAt (c :: t) = if isPlainWordStart c then
        ⟨.ident, '@' :: c :: t.takeWhile isIdentifierPart, t.dropWhile isIdentifierPart, none⟩
        else bad '@' (c :: t) := fun t => afterAt.eq_2 c t hq
    simp only [List.cons_append, hafter] at hcode hrest ⊢
    split at hcode
    · next hc =>
      rw [if_pos hc] at hrest
      have hw : word c (u ++ y') = { word c (u ++ y) with rest := y' } := word_local hrest hy
      simp only [word, mk.injEq, List.cons.injEq] at hw
      simp [hc, hw]
    · cases hcode

theorem afterDollar_local {u y y' : Text} (hcode : (afterDollar (u ++ y)).code = none)
    (hrest : (afterDollar (u ++ y)).rest = y) (hu : u ≠ []) :
    afterDollar (u ++ y') = { afterDollar (u ++ y) with rest := y' } := by
  obtain ⟨c, u, rfl⟩ := List.exists_cons_of_ne_nil hu
  by_cases hq : c = '"'
  · subst hq
    exact literal_local (o := ['$', '"']) (Cut.interpolated_append _ _) hcode hrest
      fun hc _ => Cut.interpolated_local hc y'
  · rw [List.cons_append, afterDollar.eq_2 _ (fun t ht => hq (List.cons.inj ht).1)] at hcode
    cases hcode

theorem punct_local {c : Char} {u y y' : Text} {p : Punct} (hp : punct? (c :: (u ++ y)) = some p)
    (hspell : p.spelling.toList = c :: u) (hy : y.head? = y'.head?) :
    punct? (c :: (u ++ y')) = some p := by
  refine (punct?_congr ?_).trans hp
  cases u with
  | nil => cases y <;> cases y' <;> simp_all
  | cons d u => simp

/-- After an `@` or a `$` no token is read that is that character alone. -/
theorem text_ne_singleton {c : Char} {t : Text} :
    ((afterAt t).code = none → (afterAt t).text ≠ [c]) ∧
      ((afterDollar t).code = none → (afterDollar t).text ≠ [c]) := by
  constructor
  · unfold afterAt
    split
    · simp [literal]
    · split <;> simp [bad]
    · simp [bad]
  · unfold afterDollar
    split <;> simp [literal, bad]

/-- A raw token that nothing is wrong with is read again in front of every rest that begins alike. -/
theorem read_local {c : Char} {u y y' : Text} (hcode : (read c (u ++ y)).code = none)
    (hrest : (read c (u ++ y)).rest = y) (hy : Text.Ahead y y') :
    read c (u ++ y') = { read c (u ++ y) with rest := y' } := by
  have htext : (read c (u ++ y)).text = c :: u := by
    have := read_append c (u ++ y)
    rw [hrest, ← List.cons_append] at this
    exact List.append_cancel_right this
  unfold read at hcode hrest htext ⊢
  split
  · next hc =>
    rw [if_pos hc] at hrest
    exact word_local hrest hy.head?
  next hword =>
  rw [if_neg hword] at hcode hrest htext
  split
  · next hc =>
    rw [if_pos hc] at hrest
    exact number_local hrest hy
  next hdigit =>
  rw [if_neg hdigit] at hcode hrest htext
  split
  · next hc =>
    rw [if_pos hc] at hrest hcode
    exact literal_local (Cut.string_append _) hcode hrest fun h _ => Cut.string_local h y'
  next hquote =>
  rw [if_neg hquote] at hcode hrest htext
  split
  · next hc =>
    rw [if_pos hc] at hrest hcode
    refine afterAt_local hcode hrest ?_ hy.head?
    rintro rfl
    rw [if_pos hc] at htext
    exact text_ne_singleton.1 hcode htext
  next hat =>
  rw [if_neg hat] at hcode hrest htext
  split
  · next hc =>
    rw [if_pos hc] at hrest hcode
    refine afterDollar_local hcode hrest ?_
    rintro rfl
    rw [if_pos hc] at htext
    exact text_ne_singleton.2 hcode htext
  next hdollar =>
  rw [if_neg hdollar] at hcode hrest htext
  split
  · next hc =>
    rw [if_pos hc] at hrest hcode
    exact charLiteral_local hcode hrest
  next hchar =>
  rw [if_neg hchar] at hcode hrest htext
  cases hp : punct? (c :: (u ++ y)) with
  | none => simp [hp, bad] at hcode
  | some p =>
    rw [hp] at htext
    have hspell : p.spelling.toList = c :: u := htext
    rw [punct_local hp hspell hy.head?]
    simp [hspell]

theorem getLast?_cons_takeWhile_ne {p : Char → Bool} {c : Char} {t : Text} (hc : c ≠ '\n')
    (hp : p '\n' = false) : (c :: t.takeWhile p).getLast? ≠ some '\n' := by
  intro h
  rcases List.mem_cons.1 (List.mem_of_getLast? h) with heq | hmem
  · exact hc heq.symm
  · exact absurd (List.mem_takeWhile_imp hmem) (by simp [hp])

theorem getLast?_literal_ne {kind : Literal} {opening : Text} {cut : Cut} {code : Code} {d : Char}
    (hcode : (literal kind opening cut code).code = none) (hd : d ≠ '\n')
    (hcut : cut.closed = true → cut.taken.getLast? = some d) :
    (literal kind opening cut code).text.getLast? ≠ some '\n' := by
  have hlast := hcut (closed_of_code_literal hcode)
  have hne : cut.taken ≠ [] := by
    rintro h
    simp [h] at hlast
  simp [literal, List.getLast?_append_of_ne_nil _ hne, hlast, hd]

theorem getLast?_number_ne {c : Char} {t : Text} (hc : c ≠ '\n') :
    (number c t).text.getLast? ≠ some '\n' := by
  have hdigit : Char.isDigit '\n' = false := by decide
  unfold number
  dsimp only
  split
  · next d r _ =>
    split
    · next hd =>
      have hne : d ≠ '\n' := by
        rintro rfl
        simp [hdigit] at hd
      have := getLast?_cons_takeWhile_ne (t := r) hne hdigit
      rw [List.getLast?_append_of_ne_nil _ (by simp)]
      simpa [List.getLast?_cons] using this
    · exact getLast?_cons_takeWhile_ne hc hdigit
  · exact getLast?_cons_takeWhile_ne hc hdigit

theorem getLast?_spelling_ne (p : Punct) : p.spelling.toList.getLast? ≠ some '\n' := by
  cases p <;> decide

/-- A token that nothing is wrong with does not end with a line feed. -/
theorem getLast?_read_ne {c : Char} {t : Text} (hcode : (read c t).code = none) :
    (read c t).text.getLast? ≠ some '\n' := by
  have hpart : isIdentifierPart '\n' = false := identifierClasses.part_of_isLineBreak rfl
  unfold read at hcode ⊢
  split
  · next hc =>
    exact getLast?_cons_takeWhile_ne (ne_of_isWordStart hc (by decide) (by decide)) hpart
  next hword =>
  rw [if_neg hword] at hcode
  split
  · next hc =>
    refine getLast?_number_ne ?_
    rintro rfl
    exact absurd hc (by decide)
  next hdigit =>
  rw [if_neg hdigit] at hcode
  split
  · next hc =>
    rw [if_pos hc] at hcode
    exact getLast?_literal_ne hcode (by decide) Cut.getLast?_string
  next hquote =>
  rw [if_neg hquote] at hcode
  split
  · next hc =>
    rw [if_pos hc] at hcode
    unfold afterAt at hcode ⊢
    split
    · exact getLast?_literal_ne hcode (by decide) Cut.getLast?_verbatim
    · next d u _ =>
      split
      · next hd =>
        have hne : d ≠ '\n' := by
          rintro rfl
          exact absurd hd (by decide)
        have := getLast?_cons_takeWhile_ne (t := u) hne hpart
        simpa [List.getLast?_cons] using this
      · simp [bad]
    · simp [bad]
  next hat =>
  rw [if_neg hat] at hcode
  split
  · next hc =>
    rw [if_pos hc] at hcode
    unfold afterDollar at hcode ⊢
    split
    · exact getLast?_literal_ne hcode (by decide) Cut.getLast?_interpolated
    · simp [bad]
  next hdollar =>
  rw [if_neg hdollar] at hcode
  split
  · next hc =>
    rw [if_pos hc] at hcode
    unfold charLiteral at hcode ⊢
    dsimp only at hcode ⊢
    split at hcode
    · cases hcode
    · next hne =>
      rw [if_neg hne]
      exact getLast?_literal_ne hcode (by decide) Cut.getLast?_char
  next hchar =>
  rw [if_neg hchar] at hcode
  split
  · exact getLast?_spelling_ne _
  · next h => simp [h, bad] at hcode

end RawToken

end IncrementalSyntax

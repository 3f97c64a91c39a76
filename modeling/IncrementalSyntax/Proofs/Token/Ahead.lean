import IncrementalSyntax.Proofs.Token.Lossless

/-!
# Texts that begin alike

The scanner reads on from a place and never looks back, and it stops at most two characters behind what
it takes. So two texts that share what is taken and begin alike behind it are the same to it. Behind a
line feed nothing is looked at.

## Main definitions

* `Text.Ahead`: two rests that a scanner in front of them cannot tell apart
* `Text.Behind`: two rests that a scanner which has read some text cannot tell apart

## Main results

* `fullLine_local`, `terminator_local`, `takeWhile_local`: lines and stretches of characters
* `throughCommentEnd?_local`: a comment that ends depends on nothing behind it
-/

namespace IncrementalSyntax

namespace Text

/-! ## Rests -/

/-- **Ahead.** Two rests with the same first two characters. Behind a line feed nothing is looked at. -/
def Ahead (r r' : Text) : Prop :=
  r.take 2 = r'.take 2 ∨ r.head? = some '\n' ∧ r'.head? = some '\n'

/-- **Behind.** Two rests that are told apart by nothing that a scanner looks at after it has read `x`. -/
def Behind (x r r' : Text) : Prop :=
  x.getLast? = some '\n' ∨ r.take 2 = r'.take 2

theorem Ahead.head? {r r' : Text} (h : Ahead r r') : r.head? = r'.head? := by
  rcases h with h | ⟨h, h'⟩
  · cases r <;> cases r' <;> simp_all
  · rw [h, h']

/-- A common text in front leaves the rests alike. -/
theorem Ahead.append {r r' : Text} (h : Ahead r r') (w : Text) : Ahead (w ++ r) (w ++ r') := by
  match w with
  | [] => exact h
  | [c] =>
    have := h.head?
    left
    cases r <;> cases r' <;> simp_all
  | c :: d :: w => left; simp

theorem Ahead.second {c c' : Char} {t t' : Text} (h : Ahead (c :: t) (c' :: t')) (hc : c ≠ '\n') :
    t.head? = t'.head? := by
  rcases h with h | ⟨h, -⟩
  · cases t <;> cases t' <;> simp_all
  · simp_all

theorem Behind.ahead {r r' a b : Text} (h : Behind (a ++ b) r r') (hb : b ≠ []) :
    Ahead (b ++ r) (b ++ r') := by
  rcases h with h | h
  · rw [List.getLast?_append_of_ne_nil _ hb] at h
    obtain ⟨b', rfl⟩ : ∃ b', b = b' ++ ['\n'] := List.getLast?_eq_some_iff.1 h
    rw [List.append_assoc, List.append_assoc]
    exact Ahead.append (.inr ⟨rfl, rfl⟩) b'
  · exact Ahead.append (.inl h) b

theorem Behind.of_append {r r' a b : Text} (h : Behind (a ++ b) r r') (hb : b ≠ []) :
    Behind b r r' := by
  rcases h with h | h
  · left
    rwa [List.getLast?_append_of_ne_nil _ hb] at h
  · exact .inr h

/-- A stretch of characters with a property ends where it ended if the character behind it is the
same. -/
theorem takeWhile_local {p : Char → Bool} {u y z : Text} (h : (u ++ y).takeWhile p = u)
    (hy : y.head? = z.head?) : (u ++ z).takeWhile p = u ∧ (u ++ z).dropWhile p = z := by
  have hu : ∀ c ∈ u, p c = true := by
    intro c hc
    rw [← h] at hc
    exact List.mem_takeWhile_imp hc
  have hstop : ∀ c, z.head? = some c → p c = false := by
    intro c hc
    rw [List.takeWhile_append_of_pos hu] at h
    obtain ⟨t, rfl⟩ : ∃ t, y = c :: t := by
      cases y <;> simp_all
    by_contra hne
    simp_all
  rw [List.takeWhile_append_of_pos hu, List.dropWhile_append_of_pos hu]
  cases z with
  | nil => simp
  | cons c t =>
    have := hstop c rfl
    simp [this]

theorem Behind.ahead_append {u r r' : Text} (h : Behind u r r') : Ahead (u ++ r) (u ++ r') := by
  cases u with
  | nil =>
    rcases h with h | h
    · cases h
    · exact .inl h
  | cons c u => exact Behind.ahead (a := []) h (by simp)

/-! ## Lines -/

theorem fullLine_cons_of_not_break {c : Char} {t : Text} (h : isLineBreak c = false) :
    fullLine (c :: t) = c :: fullLine t := by
  simp [fullLine, line, h]

theorem fullLine_cons_of_break {c : Char} {t : Text} (h : isLineBreak c = true) :
    fullLine (c :: t) = terminator (c :: t) := by
  simp [fullLine, line, h]

theorem fullLine_append_of_forall {w : Text} (hw : ∀ c ∈ w, isLineBreak c = false) (t : Text) :
    fullLine (w ++ t) = w ++ fullLine t := by
  induction w with
  | nil => rfl
  | cons c w ih =>
    rw [List.cons_append, fullLine_cons_of_not_break (hw c (by simp)),
      ih fun d hd => hw d (by simp [hd]), List.cons_append]

theorem terminator_local {w y y' : Text} (h : terminator (w ++ y) = w) (hw : w ≠ [])
    (hy : y.head? = y'.head?) : terminator (w ++ y') = w := by
  unfold terminator at h
  split at h
  · next t ht =>
    subst h
    rfl
  · next c t hne ht =>
    split at h
    · next hc =>
      subst h
      obtain ⟨-, rfl⟩ : c = c ∧ y = t := by simpa using ht
      have hlone : ∀ t', ['\r', '\n'] ++ t' ≠ c :: y' := by
        rintro t' e
        obtain ⟨rfl, rfl⟩ : '\r' = c ∧ '\n' :: t' = y' := by simpa using e
        cases y with
        | nil => simp at hy
        | cons d y =>
          obtain rfl : d = '\n' := by simpa using hy
          exact hne y rfl rfl
      unfold terminator
      split
      · next t' e => exact absurd e.symm (hlone t')
      · next e =>
        obtain ⟨rfl, rfl⟩ : c = _ ∧ y' = _ := by simpa using e
        simp [hc]
      · next e => simp at e
    · exact absurd h.symm hw
  · exact absurd h.symm hw

theorem fullLine_local {w y y' : Text} (h : fullLine (w ++ y) = w) (hy : y.head? = y'.head?) :
    fullLine (w ++ y') = w := by
  induction w with
  | nil =>
    have hy0 : y = [] := by
      by_contra hne
      exact fullLine_ne_nil hne h
    subst hy0
    have : y' = [] := by simpa using hy.symm
    subst this
    rfl
  | cons c w ih =>
    by_cases hc : isLineBreak c = true
    · rw [List.cons_append, fullLine_cons_of_break hc] at h ⊢
      exact terminator_local (w := c :: w) h (by simp) hy
    · have hc' : isLineBreak c = false := by simpa using hc
      rw [List.cons_append, fullLine_cons_of_not_break hc'] at h ⊢
      rw [ih (by simpa using h)]

/-- The first line of a text is that of its first full line. -/
theorem line_fullLine (t : Text) : line (fullLine t) = line t := by
  induction t with
  | nil => rfl
  | cons c t ih =>
    by_cases hc : isLineBreak c = true
    · rw [fullLine_cons_of_break hc]
      obtain ⟨r, hr⟩ := terminator_isPrefixOf (c :: t)
      cases hterm : terminator (c :: t) with
      | nil => exact absurd hterm (terminator_ne_nil hc)
      | cons d s =>
        obtain ⟨rfl, -⟩ : d = c ∧ s ++ r = t := by simpa [hterm] using hr
        simp [line, hc]
    · have hc' : isLineBreak c = false := by simpa using hc
      rw [fullLine_cons_of_not_break hc']
      simpa [line, hc'] using ih

theorem line_local {w y y' : Text} (h : fullLine (w ++ y) = w) (hy : y.head? = y'.head?) :
    line (w ++ y') = line (w ++ y) := by
  rw [← line_fullLine (w ++ y'), fullLine_local h hy, ← line_fullLine (w ++ y), h]

theorem throughCommentEnd?_ne_nil {t body rest : Text} (h : throughCommentEnd? t = some (body, rest)) :
    body ≠ [] := by
  fun_induction throughCommentEnd? t with
  | case1 => simp at h
  | case2 t =>
    obtain ⟨rfl, -⟩ : ['*', '/'] = body ∧ t = rest := by simpa using h
    simp
  | case3 c t hne ih =>
    obtain ⟨p, -, hq⟩ := Option.map_eq_some_iff.1 h
    cases hq
    simp

theorem throughCommentEnd?_local {t body rest : Text} (h : throughCommentEnd? t = some (body, rest))
    (rest' : Text) : throughCommentEnd? (body ++ rest') = some (body, rest') := by
  fun_induction throughCommentEnd? t generalizing body with
  | case1 => simp at h
  | case2 t =>
    obtain ⟨rfl, rfl⟩ : ['*', '/'] = body ∧ t = rest := by simpa using h
    rfl
  | case3 c t hne ih =>
    obtain ⟨⟨body', r⟩, hp, hq⟩ := Option.map_eq_some_iff.1 h
    cases hq
    have hside : ∀ t', c = '*' → body' ++ rest' = '/' :: t' → False := by
      intro t' hc ht'
      cases body' with
      | nil => exact throughCommentEnd?_ne_nil hp rfl
      | cons d b =>
        obtain ⟨rfl, -⟩ : d = '/' ∧ b ++ rest' = t' := by simpa using ht'
        exact hne (b ++ r) hc (throughCommentEnd?_append hp)
    rw [List.cons_append, throughCommentEnd?.eq_3 _ _ hside, ih hp, Option.map_some]

/-- A line terminator that ends with a line feed is one in front of every text. -/
theorem terminator_behind {w y y' : Text} (h : terminator (w ++ y) = w) (hw : w ≠ [])
    (hy : Behind w y y') : terminator (w ++ y') = w := by
  rcases hy with hlast | hy
  · unfold terminator at h
    split at h
    · subst h
      rfl
    · next c t hne ht =>
      split at h
      · next hc =>
        subst h
        obtain rfl : c = '\n' := by simpa using hlast
        rfl
      · exact absurd h.symm hw
    · exact absurd h.symm hw
  · exact terminator_local h hw (Ahead.head? (.inl hy))
theorem Behind.head? {u r r' : Text} (h : Behind u r r') : (u ++ r).head? = (u ++ r').head? := by
  cases u with
  | nil =>
    rcases h with h | h
    · cases h
    · exact Ahead.head? (.inl h)
  | cons c u => rfl

theorem Behind.tail {v u r r' : Text} (h : Behind (v ++ u) r r') (hv : v.getLast? ≠ some '\n') :
    Behind u r r' := by
  rcases h with h | h
  · by_cases hu : u = []
    · rw [hu, List.append_nil] at h
      exact absurd h hv
    · rw [List.getLast?_append_of_ne_nil _ hu] at h
      exact .inl h
  · exact .inr h

theorem getLast?_line_ne (t : Text) : (line t).getLast? ≠ some '\n' := by
  intro h
  have := List.mem_takeWhile_imp (List.mem_of_getLast? h)
  simp [isLineBreak] at this

theorem getLast?_throughCommentEnd? {t body rest : Text} (h : throughCommentEnd? t = some (body, rest)) :
    body.getLast? = some '/' := by
  fun_induction throughCommentEnd? t generalizing body with
  | case1 => simp at h
  | case2 t =>
    obtain ⟨rfl, -⟩ : ['*', '/'] = body ∧ t = rest := by simpa using h
    rfl
  | case3 c t hne ih =>
    obtain ⟨⟨body', r⟩, hp, hq⟩ := Option.map_eq_some_iff.1 h
    cases hq
    rw [List.getLast?_cons_of_ne_nil (throughCommentEnd?_ne_nil hp), ih hp]

end Text

end IncrementalSyntax

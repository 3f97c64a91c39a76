import Mathlib
import IncrementalSyntax.Text.Basic

/-!
# Prefixes of texts

An offset names a place in a text if it is the width of a prefix. A prefix is determined by its width,
and the UTF-8 encoding of a text determines the text, so agreement on bytes is agreement on characters.

## Main results

* `splitAt?_eq_some_iff`: the places of a text are the widths of its prefixes
* `append_inj_of_width`: a prefix is determined by its width
* `exists_append_of_extract_eq`: texts that agree on some first bytes have a common prefix of that width
-/

namespace IncrementalSyntax

namespace Text

/-! ## Widths -/

theorem width_pos_of_ne_nil {t : Text} (h : t ≠ []) : 0 < width t := by
  cases t with
  | nil => exact absurd rfl h
  | cons c t => simp [Char.utf8Size_pos c]

theorem width_eq_zero_iff {t : Text} : width t = 0 ↔ t = [] := by
  constructor
  · intro h
    by_contra hne
    have := width_pos_of_ne_nil hne
    omega
  · rintro rfl
    rfl

/-- A prefix is determined by its width. -/
theorem append_inj_of_width {a b a' b' : Text} (h : a ++ b = a' ++ b') (hw : width a = width a') :
    a = a' ∧ b = b' := by
  induction a generalizing a' with
  | nil =>
    have ha' : a' = [] := width_eq_zero_iff.1 (by simpa using hw.symm)
    subst ha'
    exact ⟨rfl, by simpa using h⟩
  | cons c a ih =>
    cases a' with
    | nil =>
      have := Char.utf8Size_pos c
      simp at hw
      omega
    | cons c' a' =>
      obtain ⟨rfl, h'⟩ : c = c' ∧ a ++ b = a' ++ b' := by simpa using h
      obtain ⟨rfl, rfl⟩ := ih h' (by simpa using hw)
      exact ⟨rfl, rfl⟩

/-! ## Splitting -/

/-- Of two prefixes of a text the narrower one is a prefix of the other one. -/
theorem prefix_of_width_le {a b t : Text} (ha : a <+: t) (hb : b <+: t) (h : width a ≤ width b) :
    a <+: b := by
  rcases List.prefix_or_prefix_of_prefix ha hb with hab | ⟨x, rfl⟩
  · exact hab
  · have hx : width x = 0 := by
      rw [width_append] at h
      omega
    simp [width_eq_zero_iff.1 hx]

theorem splitAt?_append (a b : Text) : splitAt? (a ++ b) (width a) = some (a, b) := by
  induction a with
  | nil => cases b <;> simp [splitAt?]
  | cons c a ih =>
    have hc := Char.utf8Size_pos c
    obtain ⟨n, hn⟩ : ∃ n, width (c :: a) = n + 1 := ⟨width (c :: a) - 1, by simp; omega⟩
    have hle : c.utf8Size ≤ n + 1 := by simp at hn; omega
    have hsub : n + 1 - c.utf8Size = width a := by simp at hn; omega
    rw [hn, List.cons_append]
    simp only [splitAt?, if_pos hle, hsub, ih, Option.map_some]

/-- The places of a text are the widths of its prefixes. -/
theorem splitAt?_eq_some_iff {t a b : Text} {n : Nat} :
    splitAt? t n = some (a, b) ↔ t = a ++ b ∧ width a = n := by
  constructor
  · exact splitAt?_eq_some
  · rintro ⟨rfl, rfl⟩
    exact splitAt?_append a b

@[simp] theorem before_append (a b : Text) : before (a ++ b) (width a) = a := by
  simp [before, splitAt?_append]

@[simp] theorem after_append (a b : Text) : after (a ++ b) (width a) = b := by
  simp [after, splitAt?_append]

@[simp] theorem after_zero (t : Text) : after t 0 = t := after_append [] t

theorem isBoundary_iff {t : Text} {n : Nat} :
    t.isBoundary n = true ↔ ∃ a b, t = a ++ b ∧ width a = n := by
  rw [isBoundary, Option.isSome_iff_exists]
  simp only [Prod.exists, splitAt?_eq_some_iff]

theorem endsLine_append {a b : Text} (h : b ≠ []) : endsLine (a ++ b) = endsLine b := by
  simp [endsLine, List.getLast?_append_of_ne_nil _ h]

/-! ## Bytes -/

theorem size_utf8Encode (t : Text) : (List.utf8Encode t).size = width t := by
  induction t with
  | nil => simp
  | cons c t ih =>
    rw [List.utf8Encode_cons, ByteArray.size_append, ih, List.utf8Encode_singleton]
    simp

/-- A text whose first bytes are those of a text begins with that text. -/
theorem prefix_of_extract_eq {x b : Text}
    (h : (List.utf8Encode b).extract 0 (width x) = List.utf8Encode x) : ∃ r, b = x ++ r := by
  have hb : List.utf8Encode x ++ (List.utf8Encode b).extract (width x) (List.utf8Encode b).size
      = List.utf8Encode b := by
    have hle : width x ≤ (List.utf8Encode b).size := by
      have := congrArg ByteArray.size h
      rw [ByteArray.size_extract, size_utf8Encode x] at this
      omega
    rw [← h, ByteArray.extract_append_extract, Nat.zero_min, Nat.max_eq_right hle,
      ByteArray.extract_zero_size]
  obtain ⟨r, hr⟩ := List.isPrefix_of_utf8Encode_append_eq_utf8Encode _ hb
  exact ⟨r, hr.symm⟩

/-- Texts that agree on some first bytes share the prefix of that width. -/
theorem exists_append_of_extract_eq {x r b : Text}
    (h : (List.utf8Encode (x ++ r)).extract 0 (width x) = (List.utf8Encode b).extract 0 (width x)) :
    ∃ r', b = x ++ r' := by
  refine prefix_of_extract_eq (h.symm.trans ?_)
  rw [List.utf8Encode_append, ByteArray.extract_append_eq_left (size_utf8Encode x).symm]

/-- Texts that agree on more bytes than one of them has are equal. -/
theorem eq_of_extract_eq {a b : Text} {n : Nat} (hn : width a < n)
    (h : (List.utf8Encode a).extract 0 n = (List.utf8Encode b).extract 0 n) : b = a := by
  have hsize : ∀ t : Text, ((List.utf8Encode t).extract 0 n).size = min n (width t) := by
    intro t
    rw [ByteArray.size_extract, size_utf8Encode, Nat.sub_zero]
  have hw : width b = width a := by
    have := (hsize a).symm.trans ((congrArg ByteArray.size h).trans (hsize b))
    omega
  have hall : ∀ t : Text, width t = width a →
      (List.utf8Encode t).extract 0 n = List.utf8Encode t := by
    intro t ht
    have hmax : n = max n (List.utf8Encode t).size := by rw [size_utf8Encode]; omega
    rw [hmax, ByteArray.extract_zero_max_size]
  rw [hall a rfl, hall b hw] at h
  obtain ⟨r, hr⟩ := prefix_of_extract_eq (x := a) (b := b)
    (by rw [h, ← hw, ← size_utf8Encode b, ByteArray.extract_zero_size])
  have hr' : r = [] := width_eq_zero_iff.1 (by rw [hr] at hw; simpa using hw)
  simpa [hr'] using hr

end Text

end IncrementalSyntax

import IncrementalSyntax.Proofs.Text.Identifier
import IncrementalSyntax.Proofs.Token.Lossless

/-!
# The longest match

A raw token begins with the longest prefix of the text that one of a few patterns matches, and no two patterns match
the same prefix. The pattern then tells what else belongs to the token: the rest of an identifier past ASCII, or the
text up to a closing delimiter. If no pattern matches, the text begins with a word past ASCII or with a character that
begins no token.

For each character that a text can begin with, two things are shown: that the prefix matches, and that no other match
runs as long. The patterns that can match are those with the same front.

## Main definitions

* `RawToken.Pattern`, `RawToken.Pattern.Matches`: the patterns and the texts they match
* `RawToken.Pattern.token`: the token behind a match
* `RawToken.Longest`: the longest match at the front of a text

## Main results

* `RawToken.read_longest`: what is read is the token of the longest match
-/

namespace IncrementalSyntax

/-! ## Runs of characters -/

section Runs

variable {p q : Char → Bool} {t u v w : Text}

theorem prefix_takeWhile (hw : ∀ d ∈ w, p d = true) (h : w <+: t) : w <+: t.takeWhile p := by
  obtain ⟨r, rfl⟩ := h
  rw [List.takeWhile_append_of_pos hw]
  exact List.prefix_append _ _

/-- A run goes on with the characters of a wider class. -/
theorem takeWhile_append_takeWhile (hpq : ∀ d, p d = true → q d = true) (t : Text) :
    t.takeWhile p ++ (t.dropWhile p).takeWhile q = t.takeWhile q ∧ (t.dropWhile p).dropWhile q = t.dropWhile q := by
  have hrun : ∀ d ∈ t.takeWhile p, q d = true := fun d hd => hpq d (List.mem_takeWhile_imp hd)
  rw [← List.takeWhile_append_of_pos hrun, ← List.dropWhile_append_of_pos hrun, List.takeWhile_append_dropWhile]
  exact ⟨rfl, rfl⟩

/-- A run in front of a character that is not in the class is all of the run there is. -/
theorem takeWhile_eq_of_prefix {d : Char} (hu : ∀ e ∈ u, p e = true) (hd : p d = false) (h : u ++ d :: v <+: t) :
    t.takeWhile p = u ∧ d :: v <+: t.dropWhile p := by
  obtain ⟨r, rfl⟩ := h
  rw [List.append_assoc, List.takeWhile_append_of_pos hu, List.dropWhile_append_of_pos hu, List.cons_append,
    List.takeWhile_cons_of_neg (by simp [hd]), List.dropWhile_cons_of_neg (by simp [hd]), List.append_nil]
  exact ⟨rfl, List.prefix_append (d :: v) r⟩

/-- A run behind some text is all of the run there is, or shorter. -/
theorem eq_or_length_lt_of_run (u : Text) (hw : ∀ d ∈ w, p d = true) (h : u ++ w <+: u ++ t) :
    u ++ w = u ++ t.takeWhile p ∨ (u ++ w).length < (u ++ t.takeWhile p).length := by
  have hle := (List.prefix_append_right_inj u).2 (prefix_takeWhile hw ((List.prefix_append_right_inj u).1 h))
  rcases Nat.lt_or_ge (u ++ w).length (u ++ t.takeWhile p).length with hlt | hge
  · exact .inr hlt
  · exact .inl (hle.eq_of_length_le hge)

end Runs

namespace RawToken

/-! ## Patterns -/

/-- A letter or a digit of ASCII, or a low line. -/
def isPlainWordPart (c : Char) : Bool := c.isAlphanum || c == '_'

/-- **Pattern.** What the prefixes are told apart by: a word of ASCII, such a word behind an at sign, a literal or its
opening delimiter, or punctuation. -/
inductive Pattern where
  | word
  | verbatimWord
  | literal (kind : Literal)
  | punct (p : Punct)

namespace Pattern

/-- The texts that match a pattern. -/
inductive Matches : Pattern → Text → Prop
  | word {c : Char} {u : Text} (hc : isPlainWordStart c = true) (hu : ∀ d ∈ u, isPlainWordPart d = true) :
      Matches .word (c :: u)
  | verbatimWord {c : Char} {u : Text} (hc : isPlainWordStart c = true) (hu : ∀ d ∈ u, isPlainWordPart d = true) :
      Matches .verbatimWord ('@' :: c :: u)
  | int {c : Char} {u : Text} (hu : ∀ d ∈ c :: u, d.isDigit = true) : Matches (.literal .int) (c :: u)
  | real {c d : Char} {u v : Text} (hu : ∀ e ∈ c :: u, e.isDigit = true) (hv : ∀ e ∈ d :: v, e.isDigit = true) :
      Matches (.literal .real) (c :: u ++ '.' :: d :: v)
  | string : Matches (.literal .string) ['"']
  | verbatim : Matches (.literal .verbatim) ['@', '"']
  | interpolated : Matches (.literal .interpolated) ['$', '"']
  | char : Matches (.literal .char) ['\'']
  | punct (p : Punct) : Matches (.punct p) p.spelling.toList

/-- The token that begins with a match of the pattern, with the text behind the match. -/
def token : Pattern → Text → Text → RawToken
  | .word, u, r =>
    let text := u ++ r.takeWhile isIdentifierPart
    ⟨(TokenKind.ofWord? text).getD .ident, text, r.dropWhile isIdentifierPart, none⟩
  | .verbatimWord, u, r => ⟨.ident, u ++ r.takeWhile isIdentifierPart, r.dropWhile isIdentifierPart, none⟩
  | .literal .string, u, r => RawToken.literal .string u (Cut.string r) .openString
  | .literal .verbatim, u, r => RawToken.literal .verbatim u (Cut.verbatim r) .openString
  | .literal .interpolated, u, r => RawToken.literal .interpolated u (Cut.interpolated .text r) .openString
  | .literal .char, _, r => charLiteral r
  | .literal k, u, r => ⟨.literal k, u, r, none⟩
  | .punct p, u, r => ⟨.punct p, u, r, none⟩

end Pattern

/-- **Longest match.** The pattern matches the text in front of the rest, and every other match of a pattern at the
front of the text is shorter. -/
structure Longest (t : Text) (p : Pattern) (u r : Text) : Prop where
  split : t = u ++ r
  holds : p.Matches u
  longest : ∀ q v, q.Matches v → v <+: t → q = p ∧ v = u ∨ v.length < u.length

/-! ## Fronts -/

/-- **Front.** What a text can begin with, as far as it tells the patterns apart. -/
inductive Front where
  | word | number | quote | at | dollar | apostrophe | other
  deriving DecidableEq

def Front.of (c : Char) : Front :=
  if isPlainWordStart c then .word
  else if c.isDigit then .number
  else if c = '"' then .quote
  else if c = '@' then .at
  else if c = '$' then .dollar
  else if c = '\'' then .apostrophe
  else .other

def Pattern.front : Pattern → Front
  | .word => .word
  | .verbatimWord => .at
  | .literal .int | .literal .real => .number
  | .literal .string => .quote
  | .literal .verbatim => .at
  | .literal .interpolated => .dollar
  | .literal .char => .apostrophe
  | .punct _ => .other

theorem not_isPlainWordStart_of_isDigit {c : Char} (h : c.isDigit = true) : isPlainWordStart c = false := by
  have hlow : (c == '_') = false := by
    rw [beq_eq_false_iff_ne]
    rintro rfl
    cases h
  have halpha : c.isAlpha = false := by
    simp only [Char.isDigit, Bool.and_eq_true, decide_eq_true_eq, UInt32.le_iff_toNat_le] at h
    simp only [Char.isAlpha, Char.isUpper, Char.isLower, Bool.or_eq_false_iff, Bool.and_eq_false_iff,
      decide_eq_false_iff_not, UInt32.le_iff_toNat_le]
    have hnine : ('9'.val.toNat : Nat) < 'A'.val.toNat ∧ '9'.val.toNat < 'a'.val.toNat := by decide
    omega
  rw [isPlainWordStart, halpha, hlow, Bool.or_false]

theorem Front.of_spelling {p : Punct} {c : Char} (h : c ∈ p.spelling.toList.head?) : of c = .other := by
  cases p <;> (obtain rfl := Option.some.inj h; rfl)

/-- The first character of a match tells the front of the pattern. -/
theorem Pattern.Matches.front_eq {p : Pattern} {c : Char} {t v : Text} (h : p.Matches v) (hv : v <+: c :: t) :
    p.front = Front.of c := by
  have hhead : ∀ {d : Char} {w : Text}, d :: w <+: c :: t → d = c := fun h => (List.cons_prefix_cons.1 h).1
  cases h with
  | word hc hu =>
    obtain rfl := hhead hv
    exact (if_pos hc).symm
  | verbatimWord hc hu =>
    obtain rfl := hhead hv
    rfl
  | int hu =>
    obtain rfl := hhead hv
    have hdigit := hu _ List.mem_cons_self
    rw [Front.of, if_neg (by simp [not_isPlainWordStart_of_isDigit hdigit]), if_pos hdigit]
    rfl
  | real hu _ =>
    obtain rfl := hhead hv
    have hdigit := hu _ List.mem_cons_self
    rw [Front.of, if_neg (by simp [not_isPlainWordStart_of_isDigit hdigit]), if_pos hdigit]
    rfl
  | string | verbatim | interpolated | char =>
    obtain rfl := hhead hv
    rfl
  | punct p =>
    refine (Front.of_spelling (p := p) ?_).symm
    obtain ⟨d, w, hw⟩ := List.exists_cons_of_ne_nil (spelling_ne_nil p)
    rw [hw] at hv ⊢
    obtain rfl := hhead hv
    rfl

/-- Only matches with the same front have to be compared. -/
theorem Longest.of_front {c : Char} {t u r : Text} {p : Pattern} (hsplit : c :: t = u ++ r) (hp : p.Matches u)
    (h : ∀ q v, q.front = p.front → q.Matches v → v <+: c :: t → q = p ∧ v = u ∨ v.length < u.length) :
    Longest (c :: t) p u r where
  split := hsplit
  holds := hp
  longest q v hq hv := by
    have hfront := hp.front_eq (hsplit ▸ List.prefix_append u r)
    exact h q v ((hq.front_eq hv).trans hfront.symm) hq hv

/-! ## Words -/

theorem isWordStart_of_isPlainWordStart {c : Char} (h : isPlainWordStart c = true) : isWordStart c = true := by
  rcases (Bool.or_eq_true _ _).mp h with hc | hc
  · rw [isWordStart, identifierClasses.start_of_isAlpha hc, Bool.or_true]
  · rw [isWordStart, hc, Bool.true_or]

theorem isIdentifierPart_of_isPlainWordPart (c : Char) (h : isPlainWordPart c = true) : isIdentifierPart c = true := by
  rcases (Bool.or_eq_true _ _).mp h with hc | hc
  · exact identifierClasses.part_of_isAlphanum hc
  · rw [beq_iff_eq] at hc
    exact hc ▸ identifierClasses.part_lowLine

theorem isWordStart_of_spelling {p : Punct} {c : Char} (h : c ∈ p.spelling.toList.head?) : isWordStart c = false := by
  cases p <;>
    · obtain rfl := Option.some.inj h
      exact (isWordStart_of_ascii (by decide)).trans (by decide)

section Branches

variable {c : Char} {t r : Text}

theorem longest_word (hc : isPlainWordStart c = true) :
    Longest (c :: t) .word (c :: t.takeWhile isPlainWordPart) (t.dropWhile isPlainWordPart) := by
  refine .of_front (by simp) (.word hc fun d hd => List.mem_takeWhile_imp hd) fun q v hfront hq hv => ?_
  cases hq with
  | @word d u hd hu =>
    obtain ⟨rfl, -⟩ := List.cons_prefix_cons.1 hv
    exact (eq_or_length_lt_of_run [d] hu hv).imp (fun h => ⟨rfl, h⟩) id
  | _ => cases hfront

/-- The rest of an identifier goes on with the word. -/
theorem word_eq_token (c : Char) (t : Text) :
    word c t = Pattern.token .word (c :: t.takeWhile isPlainWordPart) (t.dropWhile isPlainWordPart) := by
  obtain ⟨htake, hdrop⟩ := takeWhile_append_takeWhile isIdentifierPart_of_isPlainWordPart t
  simp only [Pattern.token, List.cons_append, htake, hdrop]
  rfl

theorem verbatimWord_eq_token (c : Char) (t : Text) :
    (⟨.ident, '@' :: c :: t.takeWhile isIdentifierPart, t.dropWhile isIdentifierPart, none⟩ : RawToken) =
      Pattern.token .verbatimWord ('@' :: c :: t.takeWhile isPlainWordPart) (t.dropWhile isPlainWordPart) := by
  obtain ⟨htake, hdrop⟩ := takeWhile_append_takeWhile isIdentifierPart_of_isPlainWordPart t
  simp only [Pattern.token, List.cons_append, htake, hdrop]

theorem longest_verbatimWord (hc : isPlainWordStart c = true) :
    Longest ('@' :: c :: t) .verbatimWord ('@' :: c :: t.takeWhile isPlainWordPart) (t.dropWhile isPlainWordPart) := by
  refine .of_front (by simp) (.verbatimWord hc fun d hd => List.mem_takeWhile_imp hd) fun q v hfront hq hv => ?_
  cases hq with
  | @verbatimWord d u hd hu =>
    obtain ⟨rfl, -⟩ := List.cons_prefix_cons.1 (List.cons_prefix_cons.1 hv).2
    exact (eq_or_length_lt_of_run ['@', d] hu hv).imp (fun h => ⟨rfl, h⟩) id
  | verbatim =>
    obtain ⟨rfl, -⟩ := List.cons_prefix_cons.1 (List.cons_prefix_cons.1 hv).2
    cases hc
  | _ => cases hfront

/-! ## Delimiters -/

/-- Behind these fronts stands one pattern, and one text matches it. -/
theorem longest_of_delimiter {p : Pattern} {u : Text} (hp : p.Matches u)
    (h : p.front = .quote ∨ p.front = .dollar ∨ p.front = .apostrophe) (hu : u ++ r = c :: t) :
    Longest (c :: t) p u r := by
  refine .of_front hu.symm hp fun q v hfront hq _ => .inl ?_
  rw [← hfront] at h
  cases hq with
  | string =>
    cases hp with
    | string => exact ⟨rfl, rfl⟩
    | _ => cases hfront
  | interpolated =>
    cases hp with
    | interpolated => exact ⟨rfl, rfl⟩
    | _ => cases hfront
  | char =>
    cases hp with
    | char => exact ⟨rfl, rfl⟩
    | _ => cases hfront
  | word | verbatimWord | int | real | verbatim | punct => rcases h with h | h | h <;> cases h

theorem longest_verbatim (t : Text) : Longest ('@' :: '"' :: t) (.literal .verbatim) ['@', '"'] t := by
  refine .of_front rfl .verbatim fun q v hfront hq hv => ?_
  cases hq with
  | verbatim => exact .inl ⟨rfl, rfl⟩
  | verbatimWord hc hu =>
    obtain ⟨rfl, -⟩ := List.cons_prefix_cons.1 (List.cons_prefix_cons.1 hv).2
    cases hc
  | _ => cases hfront

/-! ## Numbers -/

theorem longest_int (hc : c.isDigit = true)
    (h : ∀ d r, t.dropWhile Char.isDigit = '.' :: d :: r → d.isDigit = false) :
    Longest (c :: t) (.literal .int) (c :: t.takeWhile Char.isDigit) (t.dropWhile Char.isDigit) := by
  have hdigits : ∀ d ∈ c :: t.takeWhile Char.isDigit, d.isDigit = true :=
    List.forall_mem_cons.2 ⟨hc, fun d hd => List.mem_takeWhile_imp hd⟩
  refine .of_front (by simp) (.int hdigits) fun q v hfront hq hv => ?_
  cases hq with
  | @int d u hu =>
    obtain ⟨rfl, -⟩ := List.cons_prefix_cons.1 hv
    exact (eq_or_length_lt_of_run [d] (List.forall_mem_cons.1 hu).2 hv).imp (fun h => ⟨rfl, h⟩) id
  | real hu hv' =>
    -- a point and a digit would follow
    obtain ⟨rfl, hrest⟩ := List.cons_prefix_cons.1 hv
    obtain ⟨-, r, hr⟩ := takeWhile_eq_of_prefix (List.forall_mem_cons.1 hu).2 (by decide) hrest
    have hd := h _ _ hr.symm
    rw [hv' _ List.mem_cons_self] at hd
    cases hd
  | _ => cases hfront

theorem longest_real {d : Char} {r : Text} (hc : c.isDigit = true) (hr : t.dropWhile Char.isDigit = '.' :: d :: r)
    (hd : d.isDigit = true) :
    Longest (c :: t) (.literal .real) (c :: t.takeWhile Char.isDigit ++ '.' :: d :: r.takeWhile Char.isDigit)
      (r.dropWhile Char.isDigit) := by
  have hdigits : ∀ e ∈ c :: t.takeWhile Char.isDigit, e.isDigit = true :=
    List.forall_mem_cons.2 ⟨hc, fun e he => List.mem_takeWhile_imp he⟩
  have hfraction : ∀ e ∈ d :: r.takeWhile Char.isDigit, e.isDigit = true :=
    List.forall_mem_cons.2 ⟨hd, fun e he => List.mem_takeWhile_imp he⟩
  have hsplit : t = t.takeWhile Char.isDigit ++ '.' :: d :: r := by
    rw [← hr, List.takeWhile_append_dropWhile]
  refine .of_front (by simpa using hsplit) (.real hdigits hfraction) fun q v hfront hq hv => ?_
  cases hq with
  | int hu =>
    obtain ⟨rfl, hrest⟩ := List.cons_prefix_cons.1 hv
    have hle := (prefix_takeWhile (List.forall_mem_cons.1 hu).2 hrest).length_le
    refine .inr ?_
    simp only [List.length_cons, List.length_append]
    omega
  | @real e e' u w hu hw =>
    -- both have the same digits in front of the point
    obtain ⟨rfl, hrest⟩ := List.cons_prefix_cons.1 hv
    obtain ⟨htake, hdrop⟩ := takeWhile_eq_of_prefix (List.forall_mem_cons.1 hu).2 (by decide) hrest
    rw [hr] at hdrop
    obtain ⟨rfl, hrest⟩ := List.cons_prefix_cons.1 (List.cons_prefix_cons.1 hdrop).2
    have hfraction := eq_or_length_lt_of_run (e :: u ++ ['.', e']) (List.forall_mem_cons.1 hw).2
      ((List.prefix_append_right_inj _).2 hrest)
    rw [List.append_assoc, List.append_assoc] at hfraction
    rw [htake]
    exact hfraction.imp (fun h => ⟨rfl, h⟩) id
  | _ => cases hfront

/-! ## Punctuation -/

theorem length_spelling (p : Punct) : p.spelling.toList.length = 1 ∨ p.spelling.toList.length = 2 := by
  cases p <;> decide

theorem eq_of_spelling_eq {p q : Punct} (h : p.spelling.toList = q.spelling.toList) : p = q := by
  have hall : ∀ p ∈ Punct.all, ∀ q ∈ Punct.all, p.spelling.toList = q.spelling.toList → p = q := by decide +kernel
  exact hall p (by cases p <;> decide) q (by cases q <;> decide) h

/-- What is not found by its length is not there. -/
theorem not_prefix_of_find? {n : Nat} {p : Punct}
    (h : Punct.all.find? (fun q => q.spelling.toList.length = n && q.spelling.toList.isPrefixOf t) = none)
    (hp : p.spelling.toList.length = n) : ¬ p.spelling.toList <+: t := by
  intro hprefix
  have hnone := List.find?_eq_none.1 h p (by cases p <;> decide)
  rw [decide_eq_true hp, List.isPrefixOf_iff_prefix.2 hprefix] at hnone
  exact hnone rfl

/-- Two characters are looked for first. -/
theorem length_le_of_punct? {p q : Punct} (h : punct? t = some p) (hq : q.spelling.toList <+: t) :
    q.spelling.toList.length ≤ p.spelling.toList.length := by
  have htwo := length_spelling q
  unfold punct? at h
  dsimp only at h
  split at h
  · next p' hp' =>
    cases h
    have hfits := List.find?_some hp'
    have hlength := of_decide_eq_true (Bool.and_eq_true_iff.1 hfits).1
    omega
  · next hnone =>
    have hne : q.spelling.toList.length ≠ 2 := fun hlength => not_prefix_of_find? hnone hlength hq
    have hfits := List.find?_some h
    have hlength := of_decide_eq_true (Bool.and_eq_true_iff.1 hfits).1
    omega

theorem longest_punct {p : Punct} (h : punct? (c :: t) = some p) :
    Longest (c :: t) (.punct p) p.spelling.toList ((c :: t).drop p.spelling.toList.length) := by
  have hp := prefix_of_punct? h
  refine .of_front (List.prefix_iff_eq_append.1 hp).symm (.punct p) fun q v hfront hq hv => ?_
  cases hq with
  | punct q =>
    have hle := length_le_of_punct? h hv
    rcases Nat.lt_or_ge q.spelling.toList.length p.spelling.toList.length with hlt | hge
    · exact .inr hlt
    · have hspelling := (List.prefix_of_prefix_length_le hv hp hle).eq_of_length_le hge
      exact .inl ⟨congrArg _ (eq_of_spelling_eq hspelling), hspelling⟩
  | _ => cases hfront

theorem not_prefix_of_punct? (h : punct? t = none) (p : Punct) : ¬ p.spelling.toList <+: t := by
  unfold punct? at h
  dsimp only at h
  split at h
  · cases h
  · next hnone =>
    rcases length_spelling p with hlength | hlength
    · exact not_prefix_of_find? h hlength
    · exact not_prefix_of_find? hnone hlength

/-! ## What is read -/

theorem read_number (hc : c.isDigit = true) : read c t = number c t := by
  have hword : isWordStart c = false := by
    have hascii := toNat_lt_of_isAlphanum (c := c) (by rw [Char.isAlphanum, hc, Bool.or_true])
    rw [isWordStart_of_ascii hascii, Bool.or_comm]
    exact not_isPlainWordStart_of_isDigit hc
  rw [read, if_neg (Bool.eq_false_iff.1 hword), if_pos hc]

theorem not_isWordStart_of_delimiter (hc : c ∈ ['"', '@', '$', '\'']) : isWordStart c = false := by
  simp only [List.mem_cons, List.not_mem_nil, or_false] at hc
  rcases hc with rfl | rfl | rfl | rfl <;> exact (isWordStart_of_ascii (by decide)).trans (by decide)

theorem read_delimiter (hc : c ∈ ['"', '@', '$', '\'']) :
    read c t = if c = '"' then literal .string ['"'] (Cut.string t) .openString
      else if c = '@' then afterAt t
      else if c = '$' then afterDollar t
      else charLiteral t := by
  rw [read, if_neg (Bool.eq_false_iff.1 (not_isWordStart_of_delimiter hc))]
  simp only [List.mem_cons, List.not_mem_nil, or_false] at hc
  rcases hc with rfl | rfl | rfl | rfl <;> rfl

theorem exists_longest_number (hc : c.isDigit = true) :
    ∃ p u r, Longest (c :: t) p u r ∧ read c t = p.token u r := by
  rw [read_number hc, number]
  split
  · next d r hr =>
    split
    · next hd => exact ⟨_, _, _, longest_real hc hr hd, rfl⟩
    · next hd =>
      refine ⟨_, _, _, longest_int hc fun d' r' hr' => ?_, by rw [hr]; rfl⟩
      rw [hr] at hr'
      obtain ⟨rfl, rfl⟩ := List.cons.inj (List.cons.inj hr').2
      exact Bool.eq_false_iff.2 hd
  · next hne => exact ⟨_, _, _, longest_int hc fun d r hr => absurd hr (hne d r), rfl⟩

/-- A text that no pattern matches. -/
def Unmatched (t : Text) : Prop := ∀ (p : Pattern) (u : Text), p.Matches u → ¬ u <+: t

theorem Unmatched.of_front
    (h : ∀ (p : Pattern) (u : Text), p.front = Front.of c → p.Matches u → ¬ u <+: c :: t) : Unmatched (c :: t) :=
  fun p u hp hu => h p u (hp.front_eq hu) hp hu

theorem unmatched_at (h : ∀ d ∈ t.head?, d ≠ '"' ∧ isPlainWordStart d = false) : Unmatched ('@' :: t) := by
  refine .of_front fun p u hfront hp hu => ?_
  cases hp with
  | verbatimWord hd _ =>
    obtain ⟨r, rfl⟩ := (List.cons_prefix_cons.1 hu).2
    rw [(h _ rfl).2] at hd
    cases hd
  | verbatim =>
    obtain ⟨r, rfl⟩ := (List.cons_prefix_cons.1 hu).2
    exact (h _ rfl).1 rfl
  | _ => cases hfront

theorem longest_afterAt (t : Text) :
    (∃ p u r, Longest ('@' :: t) p u r ∧ afterAt t = p.token u r) ∨ Unmatched ('@' :: t) ∧ afterAt t = bad '@' t := by
  unfold afterAt
  split
  · next t => exact .inl ⟨_, _, _, longest_verbatim t, rfl⟩
  · next d t hne =>
    split
    · next hd => exact .inl ⟨_, _, _, longest_verbatimWord hd, verbatimWord_eq_token d t⟩
    · next hd =>
      refine .inr ⟨unmatched_at ?_, rfl⟩
      rintro e ⟨⟩
      exact ⟨hne, Bool.eq_false_iff.2 hd⟩
  · exact .inr ⟨unmatched_at nofun, rfl⟩

theorem longest_afterDollar (t : Text) :
    (∃ p u r, Longest ('$' :: t) p u r ∧ afterDollar t = p.token u r) ∨
      Unmatched ('$' :: t) ∧ afterDollar t = bad '$' t := by
  unfold afterDollar
  split
  · next t => exact .inl ⟨_, _, _, longest_of_delimiter .interpolated (.inr (.inl rfl)) rfl, rfl⟩
  · next hne =>
    refine .inr ⟨.of_front fun p u hfront hp hu => ?_, rfl⟩
    cases hp with
    | interpolated =>
      obtain ⟨r, rfl⟩ := (List.cons_prefix_cons.1 hu).2
      exact hne r rfl
    | _ => cases hfront

/-- Without another front only punctuation can match. -/
theorem Unmatched.of_other (hfront : Front.of c = .other) (h : ∀ p : Punct, ¬ p.spelling.toList <+: c :: t) :
    Unmatched (c :: t) := by
  refine .of_front fun p u hp hmatch hu => ?_
  rw [hfront] at hp
  cases hmatch with
  | punct q => exact h q hu
  | _ => cases hp

/-- **The longest match is read.** Where no pattern matches, the text begins with a word past ASCII, or with a
character that begins no token. -/
theorem read_longest (c : Char) (t : Text) :
    (∃ p u r, Longest (c :: t) p u r ∧ read c t = p.token u r) ∨
      Unmatched (c :: t) ∧ read c t = if isWordStart c then word c t else bad c t := by
  by_cases hplain : isPlainWordStart c = true
  · refine .inl ⟨_, _, _, longest_word hplain, ?_⟩
    rw [read, if_pos (isWordStart_of_isPlainWordStart hplain), word_eq_token]
  by_cases hdigit : c.isDigit = true
  · exact .inl (exists_longest_number hdigit)
  by_cases hdelimiter : c ∈ ['"', '@', '$', '\'']
  · have hread := read_delimiter (t := t) hdelimiter
    rw [not_isWordStart_of_delimiter hdelimiter, if_neg Bool.false_ne_true, hread]
    simp only [List.mem_cons, List.not_mem_nil, or_false] at hdelimiter
    rcases hdelimiter with rfl | rfl | rfl | rfl
    · exact .inl ⟨_, _, _, longest_of_delimiter .string (.inl rfl) rfl, rfl⟩
    · exact longest_afterAt t
    · exact longest_afterDollar t
    · exact .inl ⟨_, _, _, longest_of_delimiter .char (.inr (.inr rfl)) rfl, rfl⟩
  simp only [List.mem_cons, List.not_mem_nil, or_false, not_or] at hdelimiter
  obtain ⟨hquote, hat, hdollar, hapostrophe⟩ := hdelimiter
  have hfront : Front.of c = .other := by
    rw [Front.of, if_neg hplain, if_neg hdigit, if_neg hquote, if_neg hat, if_neg hdollar, if_neg hapostrophe]
  by_cases hword : isWordStart c = true
  · refine .inr ⟨.of_other hfront fun p hp => ?_, by rw [read, if_pos hword, if_pos hword]⟩
    obtain ⟨d, w, hw⟩ := List.exists_cons_of_ne_nil (spelling_ne_nil p)
    have hhead : d ∈ p.spelling.toList.head? := by rw [hw]; rfl
    rw [hw] at hp
    rw [(List.cons_prefix_cons.1 hp).1.symm, isWordStart_of_spelling hhead] at hword
    cases hword
  · rw [read, if_neg hword, if_neg hdigit, if_neg hquote, if_neg hat, if_neg hdollar, if_neg hapostrophe, if_neg hword]
    cases hpunct : punct? (c :: t) with
    | some p => exact .inl ⟨_, _, _, longest_punct hpunct, rfl⟩
    | none => exact .inr ⟨.of_other hfront (not_prefix_of_punct? hpunct), rfl⟩

end Branches

end RawToken

end IncrementalSyntax

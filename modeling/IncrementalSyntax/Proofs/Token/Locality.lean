import IncrementalSyntax.Proofs.Token.RawLocality
import IncrementalSyntax.Proofs.Token.TriviaLocality

/-!
# How far the scanner looks

The scanner reads on from a place and knows nothing of the text before it. Of the text behind a token it
looks at two characters at most, and at none if the token ends with a line feed. So a token that is
scanned without a complaint is scanned again wherever its text stands in the same context, if the text
behind it begins alike.

## Main definitions

* `Text.SameBytes`: two texts with the same first bytes

## Main results

* `scan_local`: a token without diagnostics depends on its own text and two more characters
* `scan_eq_of_sameBytes`: the same for two places in two texts, up to the end of the lookahead
-/

namespace IncrementalSyntax

/-! ## Tokens -/

theorem code_eq_none_of_complain {raw : RawToken} {offset : Nat} (h : raw.complain offset = []) :
    raw.code = none := by
  unfold RawToken.complain at h
  split at h
  · next hc => exact hc
  · cases h
  · cases h

/-- The part of a token behind its leading trivia is the same in front of every rest that cannot be told
apart. -/
theorem Scan.ofRaw_local {l : Leading} {c : Char} {z r' : Text}
    (hdiag : (Scan.ofRaw l (.read c z)).leaf.diagnostics = [])
    (hb : Text.Behind (Scan.ofRaw l (.read c z)).leaf.fullText (Scan.ofRaw l (.read c z)).rest r') :
    ∃ z', Text.Ahead (c :: z) (c :: z') ∧
      (Scan.ofRaw l (.read c z)).leaf.fullText ++ r' = Trivia.textAll l.pieces ++ c :: z' ∧
      Scan.ofRaw (l.withRest (c :: z')) (.read c z') =
        { Scan.ofRaw l (.read c z) with rest := r' } := by
  set raw := RawToken.read c z with hraw
  set offset := l.offset + Text.width raw.text with hoffset
  obtain ⟨-, hcode, htrailing⟩ : l.diagnostics = [] ∧ raw.complain l.offset = [] ∧
      (Trailing.read offset raw.rest).diagnostics = [] := by
    simpa [Scan.ofRaw] using hdiag
  replace hcode := code_eq_none_of_complain hcode
  -- the text is cut into the token, its trailing trivia `v` and the rest `r`
  obtain ⟨v, r, hr, hv, hsplit⟩ : ∃ v r, (Trailing.read offset raw.rest).rest = r ∧
      Trivia.textAll (Trailing.read offset raw.rest).pieces = v ∧ raw.rest = v ++ r :=
    ⟨_, _, rfl, rfl, (Trailing.read_append _ _).symm⟩
  have happ := RawToken.read_append c z
  rw [← hraw, hsplit] at happ
  obtain ⟨u, hu⟩ : ∃ u, raw.text = c :: u := by
    obtain ⟨d, u, hu⟩ := List.exists_cons_of_ne_nil (RawToken.text_read_ne_nil c z)
    rw [hraw] at happ ⊢
    rw [hu] at happ ⊢
    exact ⟨u, by rw [(List.cons.inj happ).1]⟩
  obtain rfl : z = u ++ (v ++ r) := by
    rw [hu] at happ
    exact (List.cons.inj happ).2.symm
  have hbv : Text.Behind v r r' := by
    have hfull : (Scan.ofRaw l raw).leaf.fullText = (Trivia.textAll l.pieces ++ raw.text) ++ v := by
      rw [← hv]
      rfl
    rw [hfull, show (Scan.ofRaw l raw).rest = r from hr] at hb
    refine hb.tail ?_
    rw [List.getLast?_append_of_ne_nil _ (by simp [hu])]
    exact RawToken.getLast?_read_ne hcode
  have hahead : Text.Ahead (v ++ r) (v ++ r') := hbv.ahead_append
  have hread := RawToken.read_local hcode hsplit hahead
  rw [← hraw] at hread
  have htr : Trailing.read offset (v ++ r') = (Trailing.read offset raw.rest).withRest r' := by
    rw [hsplit] at htrailing hr ⊢
    exact Trailing.run_local htrailing hr hbv le_rfl le_rfl
  refine ⟨u ++ (v ++ r'), hahead.append (c :: u), ?_, ?_⟩
  · have hfull : (Scan.ofRaw l raw).leaf.fullText = Trivia.textAll l.pieces ++ (c :: u) ++ v := by
      rw [← hu, ← hv]
      rfl
    rw [hfull]
    simp
  · rw [hread]
    have hoffset' : (l.withRest (c :: (u ++ (v ++ r')))).offset + Text.width raw.text = offset := rfl
    simp only [Scan.ofRaw, hoffset', htr]
    rfl

/-- **Locality of scanning.** A token that is scanned without a complaint, and does not end the text, is
scanned again from its own text, whatever stood before it, if the text behind it begins with the same two
characters or the token ends with a line feed. -/
theorem scan_local {context : Context} {t r' : Text} (hkind : (scan context t).leaf.tokenKind ≠ .eof)
    (hdiag : (scan context t).leaf.diagnostics = [])
    (hb : Text.Behind (scan context t).leaf.fullText (scan context t).rest r') :
    scan context ((scan context t).leaf.fullText ++ r') = { scan context t with rest := r' } := by
  obtain ⟨c, z, hz⟩ := List.exists_cons_of_ne_nil fun h => hkind ((tokenKind_scan_eq_eof_iff _ _).2 h)
  have hscan : ∀ {s c z}, (Leading.read context.directives context.lineStart s).rest = c :: z →
      scan context s = .ofRaw (Leading.read context.directives context.lineStart s) (.read c z) := by
    intro s c z hs
    simp only [scan, hs]
  have happ := Leading.read_append context.directives context.lineStart t
  rw [hscan hz] at hdiag hb ⊢
  obtain ⟨z', hahead, hfull, hofRaw⟩ := Scan.ofRaw_local hdiag hb
  rw [hz] at happ
  have hread := @Leading.read_local context.directives context.lineStart
    (Trivia.textAll (Leading.read context.directives context.lineStart t).pieces) (c :: z) (c :: z')
    (by rw [happ, hz]) (by simp) hahead
  rw [happ] at hread
  rw [hfull, ← hofRaw, ← hread]
  exact hscan (by rw [hread]; rfl)

/-! ## The lookahead -/

/-- **Same bytes.** The first bytes of two texts are the same, `n` of them. Where one of the texts has
fewer, the other one ends at the same place. -/
def Text.SameBytes (n : Nat) (a b : Text) : Prop :=
  (List.utf8Encode a).extract 0 n = (List.utf8Encode b).extract 0 n

/-- A token ends in sight of the two characters behind it, or of none. -/
theorem lookaheadEnd_eq {a₀ x r : Text} (hx : x ≠ []) :
    lookaheadEnd (a₀ ++ x ++ r) (Text.width (a₀ ++ x)) =
      Text.width a₀ + (Text.width x + if x.getLast? = some '\n' then 0 else lookaheadWidth r) := by
  rw [lookaheadEnd, Text.splitAt?_append]
  dsimp only
  rw [List.getLast?_append_of_ne_nil _ hx]
  split <;> simp [Nat.add_assoc]

/-- Texts that agree as far as the scanner looks cannot be told apart by it. -/
theorem Text.SameBytes.behind {x r b : Text}
    (h : SameBytes (width x + if x.getLast? = some '\n' then 0 else lookaheadWidth r) (x ++ r) b) :
    ∃ r', b = x ++ r' ∧ Behind x r r' := by
  by_cases hlast : x.getLast? = some '\n'
  · rw [if_pos hlast, Nat.add_zero] at h
    obtain ⟨r', rfl⟩ := exists_append_of_extract_eq h
    exact ⟨r', rfl, .inl hlast⟩
  · rw [if_neg hlast] at h
    match r, h with
    | [], h => exact ⟨[], eq_of_extract_eq (by simp [lookaheadWidth]) h, .inr rfl⟩
    | [c], h => exact ⟨[c], eq_of_extract_eq (by simp [lookaheadWidth]) h, .inr rfl⟩
    | c :: d :: r, h =>
      obtain ⟨r', rfl⟩ := exists_append_of_extract_eq (x := x ++ [c, d]) (r := r)
        (by simpa [SameBytes, lookaheadWidth] using h)
      exact ⟨c :: d :: r', by simp, .inr (by simp)⟩

/-- **Locality.** A token that is scanned at `p` in `A` without a complaint, and does not end the text,
is scanned at `q` in `B` in the same context if both texts agree from there on as far as the lookahead
reaches. It has the same width, leaves the same context, and its directives are the same ones moved from
`p` to `q`. -/
theorem scan_eq_of_sameBytes {A B a₀ a b₀ b : Text} {p q : Nat} {context : Context}
    (hA : A.splitAt? p = some (a₀, a)) (hB : B.splitAt? q = some (b₀, b))
    (hkind : (scan context a).leaf.tokenKind ≠ .eof) (hdiag : (scan context a).leaf.diagnostics = [])
    (hsame : Text.SameBytes (lookaheadEnd A (p + (scan context a).leaf.width) - p) a b) :
    (scan context b).leaf = (scan context a).leaf ∧
      (scan context b).leaf.width = (scan context a).leaf.width ∧
      (scan context b).context = (scan context a).context ∧
      (scan context b).entries.map (·.shift q) =
        ((scan context a).entries.map (·.shift p)).map fun e =>
          { e with range := ⟨e.range.start - p + q, e.range.length⟩ } := by
  obtain ⟨rfl, rfl⟩ := Text.splitAt?_eq_some hA
  have happ := scan_append context a
  have hne : (scan context a).leaf.fullText ≠ [] := by
    simp [Leaf.fullText, text_scan_ne_nil hkind]
  have hend : lookaheadEnd (a₀ ++ a) (Text.width a₀ + (scan context a).leaf.width) - Text.width a₀ =
      Text.width (scan context a).leaf.fullText +
        if (scan context a).leaf.fullText.getLast? = some '\n' then 0
        else lookaheadWidth (scan context a).rest := by
    have := @lookaheadEnd_eq a₀ _ (scan context a).rest hne
    rw [List.append_assoc, happ, Text.width_append, ← Leaf.width_eq] at this
    rw [this, Nat.add_sub_cancel_left, Leaf.width_eq]
  rw [hend] at hsame
  conv at hsame =>
    arg 2
    rw [← happ]
  obtain ⟨r', rfl, hb⟩ := hsame.behind
  rw [scan_local hkind hdiag hb]
  refine ⟨rfl, rfl, rfl, ?_⟩
  rw [List.map_map]
  refine List.map_congr_left fun e _ => ?_
  simp [DirectiveEntry.shift, Range.shift]

theorem scan_eq_of_sameBytes_region :
    (scan (.initial []) (['#', 'r', 'e', 'g', 'i', 'o', 'n', '\n', 'b', ' ', 'c', ';', '\x7d'])).leaf =
      (scan (.initial []) ['#', 'r', 'e', 'g', 'i', 'o', 'n', '\n', 'b', ' ', 'c', ';']).leaf :=
  (@scan_eq_of_sameBytes ['a', '\n', '#', 'r', 'e', 'g', 'i', 'o', 'n', '\n', 'b', ' ', 'c', ';']
    ['#', 'r', 'e', 'g', 'i', 'o', 'n', '\n', 'b', ' ', 'c', ';', '\x7d'] ['a', '\n'] _ [] _ 2 0 _
    (by decide) (by decide) (by decide) (by decide) (by unfold Text.SameBytes; decide +kernel)).1

end IncrementalSyntax

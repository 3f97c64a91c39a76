import IncrementalSyntax.Proofs.Text.Split
import IncrementalSyntax.Token.Scan

/-!
# Nothing is lost in scanning

A scanned token with its trivia is exactly the text that was read, and only the token that ends the text
can be empty. Each step of the scanner splits the text that is left in two, so the equations below are
put together from those of the literals, the raw tokens and the two kinds of trivia.

## Main results

* `Leading.read_append`, `Trailing.read_append`, `RawToken.read_append`: the parts of a token
* `scan_append`: the token and the rest are the text
* `tokenKind_scan_eq_eof_iff`: the token ends the text if nothing but trivia is left
* `length_rest_scan_lt`: every other token takes a character
-/

namespace IncrementalSyntax

/-! ## Lines and comments -/

namespace Text

theorem terminator_isPrefixOf (t : Text) : terminator t <+: t := by
  unfold terminator
  split
  · simp
  · split <;> simp
  · simp

theorem fullLine_isPrefixOf (t : Text) : fullLine t <+: t := by
  obtain ⟨r, hr⟩ := List.takeWhile_prefix (fun c => !isLineBreak c) (l := t)
  obtain ⟨r', hr'⟩ := terminator_isPrefixOf r
  refine ⟨r', ?_⟩
  have hdrop : t.drop (line t).length = r := by
    have h : (line t ++ r).drop (line t).length = r := List.drop_left
    rwa [show line t ++ r = t from hr] at h
  rw [fullLine, hdrop, List.append_assoc, hr', line, hr]

theorem fullLine_append_drop (t : Text) : fullLine t ++ t.drop (fullLine t).length = t :=
  List.prefix_iff_eq_append.1 (fullLine_isPrefixOf t)

theorem terminator_append_drop (t : Text) : terminator t ++ t.drop (terminator t).length = t :=
  List.prefix_iff_eq_append.1 (terminator_isPrefixOf t)

theorem line_append_drop (t : Text) : line t ++ t.drop (line t).length = t :=
  List.prefix_iff_eq_append.1 (List.takeWhile_prefix _)

theorem terminator_ne_nil {c : Char} {t : Text} (h : isLineBreak c = true) :
    terminator (c :: t) ≠ [] := by
  unfold terminator
  split <;> simp_all

theorem fullLine_ne_nil {t : Text} (h : t ≠ []) : fullLine t ≠ [] := by
  cases t with
  | nil => exact absurd rfl h
  | cons c t =>
    by_cases hc : isLineBreak c = true
    · have hline : line (c :: t) = [] := by simp [line, hc]
      simpa [fullLine, hline] using terminator_ne_nil hc
    · simp [fullLine, line, hc]

theorem throughCommentEnd?_append {t body rest : Text}
    (h : throughCommentEnd? t = some (body, rest)) : t = body ++ rest := by
  fun_induction throughCommentEnd? t generalizing body with
  | case1 => simp at h
  | case2 t =>
    obtain ⟨rfl, rfl⟩ : ['*', '/'] = body ∧ t = rest := by simpa using h
    rfl
  | case3 c t hne ih =>
    obtain ⟨p, hp, hq⟩ := Option.map_eq_some_iff.1 h
    cases hq
    simpa using ih hp

end Text

theorem Comment.ofBody_append (t : Text) :
    (Comment.ofBody t).text ++ (Comment.ofBody t).rest = '/' :: '*' :: t := by
  unfold Comment.ofBody
  split
  · next h => simp [Text.throughCommentEnd?_append h]
  · simp

theorem Comment.text_ofBody_ne_nil (t : Text) : (Comment.ofBody t).text ≠ [] := by
  unfold Comment.ofBody
  split <;> simp

/-! ## Literals and raw tokens -/

namespace Cut

theorem string_append (t : Text) : (string t).taken ++ (string t).rest = t := by
  fun_induction string t <;> simp_all [cons, openAt, close]

theorem verbatim_append (t : Text) : (verbatim t).taken ++ (verbatim t).rest = t := by
  fun_induction verbatim t <;> simp_all [cons, openAt, close]

theorem interpolated_append (place : Place) (t : Text) :
    (interpolated place t).taken ++ (interpolated place t).rest = t := by
  fun_induction interpolated place t <;> simp_all [cons, openAt, close]

theorem apostrophe_append (t : Text) : (apostrophe t).taken ++ (apostrophe t).rest = t := by
  fun_induction apostrophe t <;> simp_all [cons, openAt, close]

theorem char_append (t : Text) : (char t).taken ++ (char t).rest = t := by
  unfold char
  split
  · split <;> simp [cons, openAt, apostrophe_append]
  · exact apostrophe_append t

end Cut

namespace RawToken

theorem literal_append (kind : Literal) (opening : Text) (cut : Cut) (code : Code) :
    (literal kind opening cut code).text ++ (literal kind opening cut code).rest =
      opening ++ (cut.taken ++ cut.rest) := by
  simp [literal]

theorem charLiteral_append (t : Text) : (charLiteral t).text ++ (charLiteral t).rest = '\'' :: t := by
  have h := literal_append .char ['\''] (Cut.char t) .badCharLiteral
  rw [Cut.char_append] at h
  unfold charLiteral
  dsimp only
  split <;> exact h

theorem number_append (c : Char) (t : Text) : (number c t).text ++ (number c t).rest = c :: t := by
  unfold number
  have h := List.takeWhile_append_dropWhile (p := Char.isDigit) (l := t)
  split
  · next d r hr =>
    split
    · simp only [List.cons_append, List.append_assoc, List.takeWhile_append_dropWhile]
      rw [← hr, h]
    · rw [hr] at h
      simp [h]
  · next r hr =>
    simp [h]

theorem afterAt_append (t : Text) : (afterAt t).text ++ (afterAt t).rest = '@' :: t := by
  unfold afterAt
  split
  · simp [literal_append, Cut.verbatim_append]
  · split <;> simp [bad]
  · simp [bad]

theorem afterDollar_append (t : Text) : (afterDollar t).text ++ (afterDollar t).rest = '$' :: t := by
  unfold afterDollar
  split
  · simp [literal_append, Cut.interpolated_append]
  · simp [bad]

/-- The punctuation found at the front of a text is spelled out there. -/
theorem prefix_of_punct? {t : Text} {p : Punct} (h : punct? t = some p) : p.spelling.toList <+: t := by
  unfold punct? at h
  dsimp only at h
  split at h
  · next q hq =>
    cases h
    have := List.find?_some hq
    exact List.isPrefixOf_iff_prefix.1 (Bool.and_eq_true_iff.1 this).2
  · have := List.find?_some h
    exact List.isPrefixOf_iff_prefix.1 (Bool.and_eq_true_iff.1 this).2

theorem read_append (c : Char) (t : Text) : (read c t).text ++ (read c t).rest = c :: t := by
  unfold read
  split
  · simp [word]
  split
  · exact number_append c t
  split
  · next h => simp [h, literal_append, Cut.string_append]
  split
  · next h => rw [h, afterAt_append]
  split
  · next h => rw [h, afterDollar_append]
  split
  · next h => rw [h, charLiteral_append]
  split
  · next h => exact List.prefix_iff_eq_append.1 (prefix_of_punct? h)
  · simp [bad]

theorem spelling_ne_nil (p : Punct) : p.spelling.toList ≠ [] := by
  cases p <;> decide

theorem text_number_ne_nil (c : Char) (t : Text) : (number c t).text ≠ [] := by
  unfold number
  split
  · split <;> simp
  · simp

theorem text_afterAt_ne_nil (t : Text) : (afterAt t).text ≠ [] := by
  unfold afterAt
  split
  · simp [literal]
  · split <;> simp [bad]
  · simp [bad]

theorem text_afterDollar_ne_nil (t : Text) : (afterDollar t).text ≠ [] := by
  unfold afterDollar
  split <;> simp [literal, bad]

theorem text_charLiteral_ne_nil (t : Text) : (charLiteral t).text ≠ [] := by
  unfold charLiteral
  dsimp only
  split <;> simp [literal]

theorem text_read_ne_nil (c : Char) (t : Text) : (read c t).text ≠ [] := by
  unfold read
  split
  · simp [word]
  split
  · exact text_number_ne_nil c t
  split
  · simp [literal]
  split
  · exact text_afterAt_ne_nil t
  split
  · exact text_afterDollar_ne_nil t
  split
  · exact text_charLiteral_ne_nil t
  split
  · exact spelling_ne_nil _
  · simp [bad]

/-- A word is a reserved one or an identifier. -/
theorem kind_word_ne {k : TokenKind} (hk : k ∉ TokenKind.reserved) (hident : k ≠ .ident) (c : Char) (t : Text) :
    (word c t).kind ≠ k := by
  intro hword
  unfold word at hword
  cases hreserved : TokenKind.ofWord? (c :: t.takeWhile isIdentifierPart) with
  | none => exact hident (by simpa [hreserved] using hword.symm)
  | some k' =>
    obtain rfl : k' = k := by simpa [hreserved] using hword
    exact hk (List.mem_of_find?_eq_some hreserved)

/-- The kinds that are read where no word begins. An identifier is one of them, behind an at sign. -/
def isUnreserved : TokenKind → Bool
  | .ident | .literal _ | .punct _ | .bad => true
  | .modifier _ | .builtin _ | .keyword _ | .eof => false

theorem isUnreserved_number (c : Char) (t : Text) : isUnreserved (number c t).kind = true := by
  unfold number
  split
  · split <;> rfl
  · rfl

theorem isUnreserved_afterAt (t : Text) : isUnreserved (afterAt t).kind = true := by
  unfold afterAt
  split
  · rfl
  · split <;> rfl
  · rfl

theorem isUnreserved_afterDollar (t : Text) : isUnreserved (afterDollar t).kind = true := by
  unfold afterDollar
  split <;> rfl

theorem isUnreserved_charLiteral (t : Text) : isUnreserved (charLiteral t).kind = true := by
  unfold charLiteral
  dsimp only
  split <;> rfl

theorem isUnreserved_read {c : Char} (hc : isWordStart c = false) (t : Text) :
    isUnreserved (read c t).kind = true := by
  rw [read, if_neg (Bool.eq_false_iff.1 hc)]
  split
  · exact isUnreserved_number c t
  split
  · rfl
  split
  · exact isUnreserved_afterAt t
  split
  · exact isUnreserved_afterDollar t
  split
  · exact isUnreserved_charLiteral t
  split <;> rfl

/-- Where a token of another kind is read, a word begins. -/
theorem isWordStart_of_kind {c : Char} {t : Text} {k : TokenKind} (h : (read c t).kind = k)
    (hk : isUnreserved k = false) : isWordStart c = true := by
  by_contra hc
  have hread := isUnreserved_read (Bool.eq_false_iff.2 hc) t
  rw [h, hk] at hread
  cases hread

theorem kind_read_ne_eof (c : Char) (t : Text) : (read c t).kind ≠ .eof := by
  intro h
  have hword : isWordStart c = true := isWordStart_of_kind h rfl
  rw [read, if_pos hword] at h
  exact kind_word_ne (by decide) (by decide) c t h

end RawToken

/-! ## Trivia -/

namespace Trivia

@[simp] theorem textAll_nil : textAll [] = [] := rfl

@[simp] theorem textAll_cons (p : Trivia) (ps : List Trivia) :
    textAll (p :: ps) = p.text ++ textAll ps := rfl

@[simp] theorem textAll_append (ps qs : List Trivia) : textAll (ps ++ qs) = textAll ps ++ textAll qs := by
  simp [textAll]

theorem widthAll_eq (ps : List Trivia) : widthAll ps = Text.width (textAll ps) := by
  induction ps with
  | nil => rfl
  | cons p ps ih => simpa [widthAll] using ih

end Trivia

theorem Leaf.width_eq (l : Leaf) : l.width = Text.width l.fullText := by
  simp [Leaf.width, Leaf.fullText, Leaf.leadingWidth, Leaf.textWidth, Leaf.trailingWidth,
    Trivia.widthAll_eq, Nat.add_assoc]

theorem not_isLineBreak_of_isBlankInLine {c : Char} (h : isBlankInLine c = true) :
    Text.isLineBreak c = false := by
  simp only [isBlankInLine, Bool.and_eq_true, Bool.not_eq_true'] at h
  exact h.2

theorem not_isBlankInLine_of_isLineBreak {c : Char} (h : Text.isLineBreak c = true) :
    isBlankInLine c = false := by
  simp [isBlankInLine, h]

namespace Leading

theorem textAll_appendDisabled (text : Text) (ps : List Trivia) :
    Trivia.textAll (appendDisabled text ps) = Trivia.textAll ps ++ text := by
  fun_induction appendDisabled text ps <;> simp_all

/-- A step of leading trivia moves some characters from the rest into the pieces. -/
structure Moves (l l' : Leading) (u : Text) : Prop where
  rest_eq : l.rest = u ++ l'.rest
  ne_nil : u ≠ []
  pieces_eq : Trivia.textAll l'.pieces = Trivia.textAll l.pieces ++ u

theorem moves_disable {l : Leading} (h : l.rest ≠ []) : Moves l l.disable l.rest.fullLine where
  rest_eq := (Text.fullLine_append_drop _).symm
  ne_nil := Text.fullLine_ne_nil h
  pieces_eq := textAll_appendDisabled _ _

theorem moves_directive {l : Leading} (h : l.rest ≠ []) : Moves l l.directive l.rest.fullLine where
  rest_eq := (Text.fullLine_append_drop _).symm
  ne_nil := Text.fullLine_ne_nil h
  pieces_eq := by simp [directive, push]

theorem moves_push {l : Leading} {kind : TriviaKind} {u rest : Text} {lineStart : Bool}
    (h : l.rest = u ++ rest) (hu : u ≠ []) : Moves l (l.push kind u rest lineStart) u where
  rest_eq := h
  ne_nil := hu
  pieces_eq := by simp [push]

theorem moves_comment {l : Leading} {body : Text} (h : l.rest = '/' :: '*' :: body) :
    Moves l (l.comment body) (Comment.ofBody body).text where
  rest_eq := h.trans (Comment.ofBody_append body).symm
  ne_nil := Comment.text_ofBody_ne_nil body
  pieces_eq := by simp [comment, push]

/-- The steps of leading trivia, each with what it is taken at. -/
inductive Step (l : Leading) : Leading → Prop
  | disable (hne : l.rest ≠ []) (hd : l.isDisabled = true) : Step l l.disable
  | blank {c : Char} {t : Text} (hd : l.isDisabled = false) (hrest : l.rest = c :: t)
      (hc : isBlankInLine c = true) :
      Step l (l.push .whitespace (c :: t.takeWhile isBlankInLine) (t.dropWhile isBlankInLine)
        l.lineStart)
  | endOfLine {c : Char} {t : Text} (hd : l.isDisabled = false) (hrest : l.rest = c :: t)
      (hc : Text.isLineBreak c = true) :
      Step l (l.push .endOfLine (Text.terminator l.rest)
        (l.rest.drop (Text.terminator l.rest).length) true)
  | lineComment {t : Text} (hd : l.isDisabled = false) (hrest : l.rest = '/' :: '/' :: t) :
      Step l (l.push .singleLineComment (Text.line l.rest) (l.rest.drop (Text.line l.rest).length)
        false)
  | blockComment {t : Text} (hd : l.isDisabled = false) (hrest : l.rest = '/' :: '*' :: t) :
      Step l (l.comment t)
  | directive {t : Text} (hd : l.isDisabled = false) (hrest : l.rest = '#' :: t)
      (hstart : l.lineStart = true) : Step l l.directive

theorem Step.of_step? {l l' : Leading} (h : l.step? = some l') : Step l l' := by
  unfold step? at h
  split at h
  · cases h
  next hne =>
  split at h
  · next hd =>
    cases h
    exact .disable hne hd
  next hd =>
  rw [Bool.not_eq_true] at hd
  split at h
  · cases h
  next c t hrest =>
  rw [← hrest] at h
  split at h
  · next hc =>
    cases h
    exact .blank hd hrest hc
  split at h
  · next hc =>
    cases h
    exact .endOfLine hd hrest hc
  split at h
  · next hs =>
    cases h
    obtain ⟨hc, ht⟩ := Bool.and_eq_true_iff.1 hs
    obtain ⟨t', rfl⟩ := List.head?_eq_some_iff.1 (beq_iff_eq.1 ht)
    exact .lineComment hd (by rw [hrest, of_decide_eq_true hc])
  split at h
  · next hs =>
    cases h
    obtain ⟨hc, ht⟩ := Bool.and_eq_true_iff.1 hs
    obtain ⟨t', rfl⟩ := List.head?_eq_some_iff.1 (beq_iff_eq.1 ht)
    exact .blockComment hd (by rw [hrest, of_decide_eq_true hc, List.tail_cons])
  split at h
  · next hs =>
    cases h
    obtain ⟨hc, hstart⟩ := Bool.and_eq_true_iff.1 hs
    exact .directive hd (by rw [hrest, of_decide_eq_true hc]) hstart
  · cases h

theorem Step.step? {l l' : Leading} (h : Step l l') : l.step? = some l' := by
  have hslash : isBlankInLine '/' = false ∧ Text.isLineBreak '/' = false := by decide
  have hhash : isBlankInLine '#' = false ∧ Text.isLineBreak '#' = false := by decide
  cases h with
  | disable hne hd => simp [Leading.step?, hne, hd]
  | blank hd hrest hc => simp [Leading.step?, hd, hrest, hc]
  | endOfLine hd hrest hc =>
    simp [Leading.step?, hd, hrest, hc, not_isBlankInLine_of_isLineBreak hc]
  | lineComment hd hrest => simp [Leading.step?, hd, hrest, hslash]
  | blockComment hd hrest => simp [Leading.step?, hd, hrest, hslash]
  | directive hd hrest hstart => simp [Leading.step?, hd, hrest, hstart, hhash]

theorem Step.exists_moves {l l' : Leading} (h : Step l l') : ∃ u, Moves l l' u := by
  cases h with
  | disable hne hd => exact ⟨_, moves_disable hne⟩
  | blank hd hrest hc => exact ⟨_, moves_push (by simp [hrest]) (by simp)⟩
  | endOfLine hd hrest hc =>
    exact ⟨_, moves_push (Text.terminator_append_drop _).symm (by
      rw [hrest]
      exact Text.terminator_ne_nil hc)⟩
  | lineComment hd hrest =>
    exact ⟨_, moves_push (Text.line_append_drop _).symm (by simp [hrest, Text.line, Text.isLineBreak])⟩
  | blockComment hd hrest => exact ⟨_, moves_comment hrest⟩
  | directive hd hrest hstart => exact ⟨_, moves_directive (by simp [hrest])⟩

theorem exists_moves {l l' : Leading} (h : l.step? = some l') : ∃ u, Moves l l' u :=
  (Step.of_step? h).exists_moves

theorem Moves.length_lt {l l' : Leading} {u : Text} (h : Moves l l' u) :
    l'.rest.length < l.rest.length := by
  have := List.length_pos_iff.2 h.ne_nil
  rw [h.rest_eq, List.length_append]
  omega

/-- The pieces and the rest stay the same text. -/
theorem run_append (fuel : Nat) (l : Leading) :
    Trivia.textAll (run fuel l).pieces ++ (run fuel l).rest = Trivia.textAll l.pieces ++ l.rest := by
  induction fuel generalizing l with
  | zero => rfl
  | succ fuel ih =>
    unfold run
    split
    · next l' h =>
      obtain ⟨u, hu⟩ := exists_moves h
      rw [ih, hu.pieces_eq, hu.rest_eq, List.append_assoc]
    · rfl

/-- Leading trivia is read to its end. -/
theorem step?_run {fuel : Nat} {l : Leading} (h : l.rest.length ≤ fuel) : (run fuel l).step? = none := by
  induction fuel generalizing l with
  | zero =>
    have : l.rest = [] := List.length_eq_zero_iff.1 (Nat.le_zero.1 h)
    simp [run, step?, this]
  | succ fuel ih =>
    unfold run
    split
    · next l' hs =>
      obtain ⟨u, hu⟩ := exists_moves hs
      exact ih (by have := hu.length_lt; omega)
    · next hs => exact hs

theorem read_append (state : DirectiveState) (lineStart : Bool) (t : Text) :
    Trivia.textAll (read state lineStart t).pieces ++ (read state lineStart t).rest = t :=
  run_append _ _

end Leading

namespace Trailing

theorem run_append (fuel offset : Nat) (t : Text) :
    Trivia.textAll (run fuel offset t).pieces ++ (run fuel offset t).rest = t := by
  induction fuel generalizing offset t with
  | zero => rfl
  | succ fuel ih =>
    cases t with
    | nil => rfl
    | cons c t =>
      unfold run
      split
      · simp [cons, ih]
      split
      · simp only [cons, Trivia.textAll_cons, List.append_assoc, ih]
        exact Text.line_append_drop _
      split
      · next hstar =>
        obtain ⟨rfl, d, rfl⟩ : c = '/' ∧ ∃ d, t = '*' :: d := by
          cases t <;> simp_all
        simp only [cons, Trivia.textAll_cons, List.append_assoc, ih]
        exact Comment.ofBody_append d
      split
      · simpa using Text.terminator_append_drop _
      · rfl

theorem read_append (offset : Nat) (t : Text) :
    Trivia.textAll (read offset t).pieces ++ (read offset t).rest = t :=
  run_append _ _ _

end Trailing

/-! ## Tokens -/

/-- A scanned token and the rest are the text. -/
theorem scan_append (context : Context) (t : Text) :
    (scan context t).leaf.fullText ++ (scan context t).rest = t := by
  have hl := Leading.read_append context.directives context.lineStart t
  unfold scan
  dsimp only
  split
  · next h =>
    rw [h] at hl
    simpa [Scan.atEnd, Leaf.fullText] using hl
  · next c r h =>
    have htr : ∀ offset, Trivia.textAll (Trailing.read offset (RawToken.read c r).rest).pieces ++
        (Trailing.read offset (RawToken.read c r).rest).rest = (RawToken.read c r).rest :=
      fun offset => Trailing.read_append offset _
    simp only [Scan.ofRaw, Leaf.fullText, List.append_assoc, htr, RawToken.read_append]
    rw [← h, hl]

/-- The token ends the text if only leading trivia is left. -/
theorem tokenKind_scan_eq_eof_iff (context : Context) (t : Text) :
    (scan context t).leaf.tokenKind = .eof ↔
      (Leading.read context.directives context.lineStart t).rest = [] := by
  unfold scan
  dsimp only
  split
  · next h => simp [Scan.atEnd, Leaf.tokenKind, h]
  · next c r h =>
    simp [Scan.ofRaw, Leaf.tokenKind, h, RawToken.kind_read_ne_eof]

theorem text_scan_ne_nil {context : Context} {t : Text} (h : (scan context t).leaf.tokenKind ≠ .eof) :
    (scan context t).leaf.text ≠ [] := by
  rw [Ne, tokenKind_scan_eq_eof_iff] at h
  unfold scan
  dsimp only
  split
  · next h' => exact absurd h' h
  · exact RawToken.text_read_ne_nil _ _

/-- A token that does not end the text takes a character. -/
theorem length_rest_scan_lt {context : Context} {t : Text}
    (h : (scan context t).leaf.tokenKind ≠ .eof) : (scan context t).rest.length < t.length := by
  have happ := congrArg List.length (scan_append context t)
  have hpos := List.length_pos_iff.2 (text_scan_ne_nil h)
  simp only [Leaf.fullText, List.length_append] at happ
  omega

/-! ## Leaves in a row -/

/-- The texts of leaves in a row. -/
def Leaf.textAll (ls : List Leaf) : Text := ls.flatMap Leaf.fullText

/-- The width of leaves in a row. -/
def Leaf.widthAll (ls : List Leaf) : Nat := (ls.map Leaf.width).sum

namespace Leaf

@[simp] theorem textAll_nil : textAll [] = [] := rfl

@[simp] theorem textAll_cons (l : Leaf) (ls : List Leaf) : textAll (l :: ls) = l.fullText ++ textAll ls :=
  rfl

@[simp] theorem textAll_append (as bs : List Leaf) : textAll (as ++ bs) = textAll as ++ textAll bs := by
  simp [textAll]

@[simp] theorem widthAll_nil : widthAll [] = 0 := rfl

@[simp] theorem widthAll_cons (l : Leaf) (ls : List Leaf) : widthAll (l :: ls) = l.width + widthAll ls := by
  simp [widthAll]

@[simp] theorem widthAll_append (as bs : List Leaf) : widthAll (as ++ bs) = widthAll as + widthAll bs := by
  simp [widthAll]

theorem widthAll_eq (ls : List Leaf) : widthAll ls = Text.width (textAll ls) := by
  induction ls with
  | nil => rfl
  | cons l ls ih => rw [widthAll_cons, textAll_cons, Text.width_append, l.width_eq, ih]

end Leaf

end IncrementalSyntax

import IncrementalSyntax.Proofs.Ast.Words
import IncrementalSyntax.Proofs.Token.Normal

/-!
# Tokens written again

A token that nothing is wrong with is one token by itself, so the tokens of a text are also those of their texts with
spaces between them. The text of a token says what it is: some kinds have one spelling, and an identifier is none of
the reserved words.

## Main definitions

* `Text.IsName`: the texts of identifiers
* `RawToken.Spells`: what a kind says of the text
* `Leaf.words`: the kinds and the texts of tokens

## Main results

* `RawToken.spells_read`: what is read is spelled as its kind is
* `tokenize_intercalate`: the tokens of the texts of tokens
-/

namespace IncrementalSyntax

/-! ## Kinds and spellings -/

namespace TokenKind

theorem fixedText?_of_ofWord? {w : Text} {k : TokenKind} (h : ofWord? w = some k) :
    ∃ s, k.fixedText? = some s ∧ s.toList = w := by
  have hspelled := List.find?_some h
  rw [Option.any_eq_true] at hspelled
  obtain ⟨s, hs, heq⟩ := hspelled
  exact ⟨s, hs, beq_iff_eq.1 heq⟩

/-- No reserved word begins with an `@`. -/
theorem ofWord?_at (t : Text) : ofWord? ('@' :: t) = none := by
  have hfirst : ∀ k ∈ reserved, ∀ s ∈ k.fixedText?, s.toList.head? ≠ some '@' := by decide
  refine Option.eq_none_iff_forall_ne_some.2 fun k hk => ?_
  obtain ⟨s, hs, hspelled⟩ := fixedText?_of_ofWord? hk
  exact hfirst k (List.mem_of_find?_eq_some hk) s hs (by rw [hspelled, List.head?_cons])

end TokenKind

/-- **Name.** A letter or a low line and further letters and digits, if that is no reserved word; or an `@` and any
such word that begins in ASCII. -/
def Text.IsName (t : Text) : Prop :=
  TokenKind.ofWord? t = none ∧ ∃ c u, (∀ d ∈ u, isIdentifierPart d = true) ∧
    (t = c :: u ∧ isWordStart c = true ∨ t = '@' :: c :: u ∧ RawToken.isPlainWordStart c = true)

namespace RawToken

variable {c : Char} {t : Text}

/-- **Spells.** A kind that has one spelling is spelled so, and an identifier is a name. -/
structure Spells (k : TokenKind) (t : Text) : Prop where
  fixed : ∀ s, k.fixedText? = some s → t = s.toList
  name : k = .ident → t.IsName

theorem spells_literal (k : Literal) (t : Text) : Spells (.literal k) t := ⟨nofun, nofun⟩

theorem spells_bad (t : Text) : Spells .bad t := ⟨nofun, nofun⟩

theorem spells_word (h : isWordStart c = true) (t : Text) : Spells (word c t).kind (word c t).text := by
  show Spells ((TokenKind.ofWord? (c :: t.takeWhile isIdentifierPart)).getD .ident) (c :: t.takeWhile isIdentifierPart)
  cases hk : TokenKind.ofWord? (c :: t.takeWhile isIdentifierPart) with
  | none => exact ⟨nofun, fun _ => ⟨hk, c, _, fun d hd => List.mem_takeWhile_imp hd, .inl ⟨rfl, h⟩⟩⟩
  | some k =>
    obtain ⟨s, hs, hspelled⟩ := TokenKind.fixedText?_of_ofWord? hk
    refine ⟨fun s' hs' => ?_, fun hident => ?_⟩
    · obtain rfl : s = s' := Option.some.inj (hs.symm.trans hs')
      exact hspelled.symm
    · obtain rfl : k = .ident := hident
      cases hs

theorem spells_number (c : Char) (t : Text) : Spells (number c t).kind (number c t).text := by
  unfold number
  split
  · split <;> exact spells_literal _ _
  · exact spells_literal _ _

theorem spells_afterAt (t : Text) : Spells (afterAt t).kind (afterAt t).text := by
  unfold afterAt
  split
  · exact spells_literal _ _
  · next d t _ =>
    split
    · next hd =>
      exact ⟨nofun, fun _ => ⟨TokenKind.ofWord?_at _, d, _, fun e he => List.mem_takeWhile_imp he, .inr ⟨rfl, hd⟩⟩⟩
    · exact spells_bad _
  · exact spells_bad _

/-- What is read is spelled as its kind is. -/
theorem spells_read (c : Char) (t : Text) : Spells (read c t).kind (read c t).text := by
  unfold read
  split
  · next hc => exact spells_word hc t
  split
  · exact spells_number c t
  split
  · exact spells_literal _ _
  split
  · exact spells_afterAt t
  split
  · unfold afterDollar
    split
    · exact spells_literal _ _
    · exact spells_bad _
  split
  · unfold charLiteral
    dsimp only
    split <;> exact spells_literal _ _
  split
  · next p _ =>
    refine ⟨fun s hs => ?_, nofun⟩
    obtain rfl := Option.some.inj hs
    rfl
  · exact spells_bad _

end RawToken

/-! ## The tokens of a text -/

/-- The kind and the text of a token are those of a raw token, unless the token ends the text. -/
theorem spells_scan (c : Context) (t : Text) :
    (∀ s, (scan c t).leaf.kind.fixedText? = some s → (scan c t).leaf.text = s.toList) ∧
      ((scan c t).leaf.kind = .token .ident → (scan c t).leaf.text.IsName) := by
  rcases scan_cases c t with ⟨-, hs⟩ | ⟨d, z, -, hs⟩ <;> rw [hs]
  · refine ⟨fun s hs => ?_, nofun⟩
    obtain rfl := Option.some.inj hs
    rfl
  · obtain ⟨hfixed, hname⟩ := RawToken.spells_read d z
    exact ⟨hfixed, fun hkind => hname (Kind.token.inj hkind)⟩

/-- A token without complaints is one token by itself. -/
theorem whole_scan {c : Context} {t : Text} (hkind : (scan c t).leaf.kind ≠ .token .eof)
    (hdiag : (scan c t).leaf.diagnostics = []) :
    ∃ k, (scan c t).leaf.kind = .token k ∧ RawToken.Whole k (scan c t).leaf.text := by
  rcases scan_cases c t with ⟨-, hs⟩ | ⟨d, z, -, hs⟩ <;> rw [hs] at hkind hdiag ⊢
  · exact absurd rfl hkind
  · obtain ⟨hdiag, -⟩ := List.append_eq_nil_iff.1 hdiag
    obtain ⟨-, hcomplain⟩ := List.append_eq_nil_iff.1 hdiag
    exact ⟨_, rfl, RawToken.whole_read (code_eq_none_of_complain hcomplain)⟩

/-- The kind of a token is one of the kinds of tokens. -/
theorem kind_eq_of_mem_tokenizeRest {c : Context} {t : Text} {l : Leaf} (h : l ∈ tokenizeRest c t) :
    l.kind = .token l.tokenKind := by
  obtain ⟨c', t', rfl⟩ := exists_scan_of_mem_tokenizeRest h
  rcases scan_cases c' t' with ⟨-, hs⟩ | ⟨d, z, -, hs⟩ <;> rw [hs] <;> rfl

/-- The kind and the text of a leaf, without its trivia. -/
def Leaf.word (l : Leaf) : Kind × Text := (l.kind, l.text)

/-- The words of leaves, without the end of the text. -/
def Leaf.words (ls : List Leaf) : List (Kind × Text) := (ls.filter fun l => l.kind ≠ .token .eof).map Leaf.word

theorem Leaf.words_concat {ls : List Leaf} {e : Leaf} (hkind : ∀ l ∈ ls, l.kind ≠ .token .eof)
    (heof : e.kind = .token .eof) : words (ls ++ [e]) = ls.map word := by
  have hfilter : ls.filter (fun l => l.kind ≠ .token .eof) = ls :=
    List.filter_eq_self.2 fun l hl => decide_eq_true (hkind l hl)
  rw [words, List.filter_append, hfilter, List.filter_singleton]
  simp [heof]

theorem Leaf.word_eof {c : Context} {t : Text} {e : Leaf} (h : e ∈ tokenizeRest c t) (heof : e.tokenKind = .eof) :
    e.word = (.token .eof, []) := by
  obtain ⟨c', t', rfl⟩ := exists_scan_of_mem_tokenizeRest h
  have hkind := kind_scan_of_tokenKind heof
  rw [word, hkind, (kind_scan_eq_eof_iff c' t').1 hkind]

namespace Ast

/-- The word that a leaf has been read from. -/
def Word.ofLeaf (l : Leaf) : Word := ⟨l.tokenKind, l.text⟩

/-- A token without complaints is one token by itself. -/
theorem Word.isWhole_ofLeaf {c : Context} {t : Text} {l : Leaf} (h : l ∈ tokenizeRest c t)
    (hkind : l.kind ≠ .token .eof) (hdiag : l.diagnostics = []) : (ofLeaf l).isWhole = true := by
  obtain ⟨c', t', rfl⟩ := exists_scan_of_mem_tokenizeRest h
  obtain ⟨k, hk, d, u, htext, hread⟩ := whole_scan hkind hdiag
  refine isWhole_iff.2 ⟨d, u, htext, ?_⟩
  rw [ofLeaf, Leaf.tokenKind, hk, hread, htext]

/-- Leaves that are the tokens of the words of leaves have the same words. -/
theorem Spelled.map_word {ls ls' : List Leaf} (h : ∀ l ∈ ls, l.kind = .token l.tokenKind)
    (h' : ∀ l ∈ ls', l.kind = .token l.tokenKind) (hs : Spelled ls' (ls.map Word.ofLeaf)) :
    ls'.map Leaf.word = ls.map Leaf.word := by
  induction ls generalizing ls' with
  | nil =>
    cases hs
    rfl
  | cons l ls ih =>
    cases hs with
    | @cons l' _ ls' _ hword hs =>
      have hkind : l'.kind = l.kind := by
        rw [h l List.mem_cons_self, h' l' List.mem_cons_self, hword.kind, Word.ofLeaf]
      have hrest := ih (fun l hl => h l (List.mem_cons_of_mem _ hl)) (fun l hl => h' l (List.mem_cons_of_mem _ hl)) hs
      rw [List.map_cons, List.map_cons, hrest, Leaf.word, Leaf.word, hkind, hword.text, Word.ofLeaf]

/-- The text of written words is that of the words with spaces between them. -/
theorem write_eq_intercalate (ws : List Word) : write ws = [' '].intercalate (ws.map Word.text) := by
  fun_induction write ws with
  | case1 => rfl
  | case2 w => simp
  | case3 w v ws ih => simp [ih, List.intercalate]

end Ast

/-- **Tokens of tokens.** Where nothing is wrong with a text, the texts of its tokens with spaces between them have
the same tokens, whatever symbols are defined, and nothing is wrong with them either. A token of a kind with one
spelling is spelled so, and an identifier is a name, which keeps the `@` in front of it. -/
theorem tokenize_intercalate (symbols symbols' : List Text) (t : Text) :
    let ws := Leaf.words (tokenize symbols t)
    let again := tokenize symbols' ([' '].intercalate (ws.map Prod.snd))
    ((∀ l ∈ tokenize symbols t, l.diagnostics = []) →
      again.map Leaf.word = ws ++ [(.token .eof, [])] ∧ ∀ l ∈ again, l.diagnostics = []) ∧
    (∀ l ∈ tokenize symbols t, (∀ s, l.kind.fixedText? = some s → l.text = s.toList) ∧
      (l.kind = .token .ident → l.text.IsName)) ∧
    ∀ c u, RawToken.isPlainWordStart c = true → (∀ d ∈ u, isIdentifierPart d = true) →
      RawToken.Whole .ident ('@' :: c :: u) := by
  intro ws again
  refine ⟨fun hclean => ?_, fun l hl => ?_, fun c u => RawToken.whole_at⟩
  · obtain ⟨ls, e, hall, hkind, heof, -⟩ := exists_tokenizeFrom_eq (.initial symbols) t
    have htokens : tokenize symbols t = ls ++ [e] := hall _ le_rfl
    have hmem : ∀ l ∈ ls, l ∈ tokenize symbols t := fun l hl => htokens ▸ List.mem_append_left _ hl
    have hws : ws = ls.map Leaf.word := (congrArg Leaf.words htokens).trans (Leaf.words_concat hkind heof)
    have hwhole : ∀ w ∈ ls.map Ast.Word.ofLeaf, w.isWhole = true := by
      intro w hw
      obtain ⟨l, hl, rfl⟩ := List.mem_map.1 hw
      exact Ast.Word.isWhole_ofLeaf (hmem l hl) (hkind l hl) (hclean l (hmem l hl))
    -- the texts with spaces between them are written words, and of these the tokens are known
    have hwrite : [' '].intercalate (ws.map Prod.snd) = Ast.write (ls.map Ast.Word.ofLeaf) := by
      rw [Ast.write_eq_intercalate, hws, List.map_map, List.map_map]
      rfl
    obtain ⟨ls', e', htokens', hspelled, heof', hclean'⟩ := Ast.tokenize_write symbols' hwhole
    have hagain : again = ls' ++ [e'] := (congrArg (tokenize symbols') hwrite).trans htokens'
    have hmem' : ∀ l ∈ ls' ++ [e'], l ∈ tokenize symbols' (Ast.write (ls.map Ast.Word.ofLeaf)) :=
      fun l hl => htokens' ▸ hl
    have hsame : ls'.map Leaf.word = ls.map Leaf.word :=
      hspelled.map_word (fun l hl => kind_eq_of_mem_tokenizeRest (hmem l hl))
        fun l hl => kind_eq_of_mem_tokenizeRest (hmem' l (List.mem_append_left _ hl))
    have hend : e'.word = (.token .eof, []) :=
      Leaf.word_eof (hmem' e' (List.mem_append_right _ (List.mem_singleton_self e'))) heof'
    rw [hagain, hws, List.map_append, hsame, List.map_singleton, hend]
    exact ⟨rfl, hclean'⟩
  · obtain ⟨c', t', rfl⟩ := exists_scan_of_mem_tokenizeRest (c := .initial symbols) hl
    exact spells_scan c' t'

/-- A reserved word behind an `@`, an operator of two characters and a number with a point. -/
theorem tokenize_intercalate_operator :
    (∀ l ∈ tokenize [] "@if<=1.5".toList, l.diagnostics = []) ∧
      (tokenize [] "@if <= 1.5".toList).map Leaf.word =
        [(.token .ident, "@if".toList), (.token (.punct .ltEq), "<=".toList),
          (.token (.literal .real), "1.5".toList), (.token .eof, [])] := by
  have hclean : ∀ l ∈ tokenize [] "@if<=1.5".toList, l.diagnostics = [] := by decide +kernel
  have hws : Leaf.words (tokenize [] "@if<=1.5".toList) = [(.token .ident, "@if".toList),
      (.token (.punct .ltEq), "<=".toList), (.token (.literal .real), "1.5".toList)] := by decide +kernel
  have hagain := ((tokenize_intercalate [] [] "@if<=1.5".toList).1 hclean).1
  rw [hws] at hagain
  exact ⟨hclean, hagain⟩

end IncrementalSyntax

import IncrementalSyntax.Proofs.Ast.Basic
import IncrementalSyntax.Proofs.Stream.Scanned
import IncrementalSyntax.Proofs.Token.Spaced

/-!
# The tokens of written words

Words with a space between each two of them have one token for each word, and nothing is wrong with any of
them.

## Main definitions

* `Ast.Spelled`: leaves that are the tokens of words

## Main results

* `Ast.Word.isWhole_punct`, `Ast.Word.isWhole_ident`: the words that abstract trees are made of
* `Ast.tokenize_write`: the tokens of written words
-/

namespace IncrementalSyntax

namespace Ast

/-! ## Words that are one token -/

namespace Word

theorem isWhole_iff {w : Word} :
    w.isWhole = true ↔ ∃ c t, w.text = c :: t ∧ RawToken.read c t = ⟨w.kind, c :: t, [], none⟩ := by
  obtain ⟨k, t⟩ := w
  cases t with
  | nil => simp [isWhole]
  | cons c t => simp [isWhole]

/-- A word of the scanner is whole by itself. -/
theorem isWhole_word {c : Char} {r : Text} {k : TokenKind} (hc : isWordStart c = true)
    (hr : ∀ d ∈ r, isIdentifierPart d = true) (hk : (TokenKind.ofWord? (c :: r)).getD .ident = k) :
    (⟨k, c :: r⟩ : Word).isWhole = true := by
  refine isWhole_iff.2 ⟨c, r, rfl, ?_⟩
  rw [RawToken.read, if_pos hc, RawToken.word, List.takeWhile_eq_self_iff.2 hr, List.dropWhile_eq_nil_iff.2 hr, hk]

/-- So are letters of ASCII in a row. -/
theorem isWhole_letters {t : Text} {k : TokenKind} (hne : t ≠ []) (ht : t.all Char.isAlpha = true)
    (hk : (TokenKind.ofWord? t).getD .ident = k) : (⟨k, t⟩ : Word).isWhole = true := by
  obtain ⟨c, r, rfl⟩ := List.exists_cons_of_ne_nil hne
  obtain ⟨hc, hr⟩ := List.forall_mem_cons.1 (List.all_eq_true.1 ht)
  refine isWhole_word ?_ (fun d hd => ?_) hk
  · rw [isWordStart, identifierClasses.start_of_isAlpha hc, Bool.or_true]
  · exact identifierClasses.part_of_isAlphanum (by rw [Char.isAlphanum, hr d hd, Bool.true_or])

theorem isWhole_keyword (k : Keyword) : (keyword k).isWhole = true :=
  isWhole_letters (by cases k <;> decide) (by cases k <;> decide +kernel) (by cases k <;> decide +kernel)

theorem isWhole_builtin (b : Builtin) : (builtin b).isWhole = true :=
  isWhole_letters (by cases b <;> decide) (by cases b <;> decide +kernel) (by cases b <;> decide +kernel)

theorem isWhole_modifier (m : Modifier) : (modifier m).isWhole = true :=
  isWhole_letters (by cases m <;> decide) (by cases m <;> decide +kernel) (by cases m <;> decide +kernel)

/-- No word begins with punctuation, so what is read there is the punctuation. -/
theorem isWhole_punct (p : Punct) : (punct p).isWhole = true := by
  have hfront : ∀ {c : Char}, c ∈ p.spelling.toList.head? → isWordStart c = false := RawToken.isWordStart_of_spelling
  cases p <;>
    · refine isWhole_iff.2 ⟨_, _, rfl, ?_⟩
      rw [RawToken.read, if_neg (Bool.eq_false_iff.1 (hfront rfl))]
      rfl

theorem isWhole_ident {t : Text} (h : isIdentifier t = true) : (ident t).isWhole = true := by
  unfold isIdentifier at h
  rw [Bool.and_eq_true, Bool.and_eq_true] at h
  obtain ⟨⟨-, hreserved⟩, hchars⟩ := h
  refine isWhole_iff.2 ?_
  split at hchars
  · next c r =>
    obtain ⟨hstart, hparts⟩ := (Bool.and_eq_true _ _).mp hchars
    obtain ⟨d, u, htext, hread⟩ := RawToken.whole_at hstart (List.all_eq_true.1 hparts)
    exact ⟨d, u, htext, by rw [hread, htext]; rfl⟩
  · next c r _ =>
    obtain ⟨hstart, hparts⟩ := (Bool.and_eq_true _ _).mp hchars
    have hparts : ∀ d ∈ r, isIdentifierPart d = true := List.all_eq_true.1 hparts
    refine isWhole_iff.1 (isWhole_word hstart hparts ?_)
    rw [Option.isNone_iff_eq_none.1 hreserved, Option.getD_none]
  · cases hchars

end Word

/-! ## Words of abstract trees -/

/-- **Whole words.** Each of the words is one token. -/
def AllWhole (ws : List Word) : Prop := ∀ w ∈ ws, w.isWhole = true

namespace AllWhole

variable {w : Word} {ws vs : List Word}

@[simp] theorem nil : AllWhole [] := fun _ h => nomatch h

@[simp] theorem cons_iff : AllWhole (w :: ws) ↔ w.isWhole = true ∧ AllWhole ws := List.forall_mem_cons

@[simp] theorem append_iff : AllWhole (ws ++ vs) ↔ AllWhole ws ∧ AllWhole vs := List.forall_mem_append

theorem parens (h : AllWhole ws) : AllWhole (parens ws) := by
  simp [Ast.parens, Word.isWhole_punct, h]

theorem braces (h : AllWhole ws) : AllWhole (braces ws) := by
  simp [Ast.braces, Word.isWhole_punct, h]

theorem flatMap {α : Type} {f : α → List Word} {as : List α} (h : ∀ a ∈ as, AllWhole (f a)) :
    AllWhole (as.flatMap f) := by
  intro w hw
  obtain ⟨a, ha, hw⟩ := List.mem_flatMap.1 hw
  exact h a ha w hw

theorem commas {wss : List (List Word)} (h : ∀ ws ∈ wss, AllWhole ws) : AllWhole (commas wss) := by
  induction wss with
  | nil => exact nil
  | cons ws wss ih =>
    have hfirst : AllWhole ws := h ws List.mem_cons_self
    have hrest : AllWhole (Ast.commas wss) := ih fun v hv => h v (List.mem_cons_of_mem _ hv)
    cases wss with
    | nil => exact hfirst
    | cons v wss =>
      rw [Ast.commas, append_iff, cons_iff]
      exact ⟨hfirst, Word.isWhole_punct _, hrest⟩

theorem commas_map {α : Type} {f : α → List Word} {as : List α} (h : ∀ a ∈ as, AllWhole (f a)) :
    AllWhole (Ast.commas (as.map f)) :=
  commas fun ws hws => by
    obtain ⟨a, ha, rfl⟩ := List.mem_map.1 hws
    exact h a ha

end AllWhole

open Word (isWhole_punct isWhole_keyword isWhole_builtin isWhole_modifier isWhole_ident)

theorem Name.Valid.allWhole {n : Name} (h : n.Valid) : AllWhole n.words := by
  rw [Name.words, AllWhole.cons_iff]
  refine ⟨isWhole_ident (h _ List.mem_cons_self), .flatMap fun t ht => ?_⟩
  simp [isWhole_punct, isWhole_ident (h t (List.mem_cons_of_mem _ ht))]

theorem Ty.Valid.allWhole {t : Ty} (h : t.Valid) : AllWhole t.words := by
  induction t with
  | predefined b => simp [Ty.words, isWhole_builtin]
  | named n => exact Name.Valid.allWhole h
  | array t ih => simp [Ty.words, isWhole_punct, ih h]

theorem Expr.wordsEach_eq_map (as : List Expr) : wordsEach as = as.map words := by
  induction as with
  | nil => rw [wordsEach, List.map_nil]
  | cons a as ih => rw [wordsEach, List.map_cons, ih]

/-- By induction on how the expression fits. -/
theorem Expr.Fits.allWhole {p : Phrase} {e : Expr} (h : e.Fits p) : AllWhole e.words := by
  induction h with
  | literal h => simp [words, h]
  | constant => simp [words, isWhole_keyword]
  | name h => simp [words, isWhole_ident h]
  | this => simp [words, isWhole_keyword]
  | paren _ ih =>
    rw [words]
    exact ih.parens
  | create ht _ ih =>
    rw [words, wordsEach_eq_map, AllWhole.cons_iff, AllWhole.append_iff]
    exact ⟨isWhole_keyword _, ht.allWhole, (AllWhole.commas_map ih).parens⟩
  | call _ _ ihf ih =>
    rw [words, wordsEach_eq_map, AllWhole.append_iff]
    exact ⟨ihf, (AllWhole.commas_map ih).parens⟩
  | member _ hid ih => simp [words, isWhole_punct, isWhole_ident hid, ih]
  | index _ _ ih ih' => simp [words, isWhole_punct, ih, ih']
  | postfixed _ _ ih => simp [words, isWhole_punct, ih]
  | prefixed _ _ ih => simp [words, isWhole_punct, ih]
  | binary _ _ _ ih ih' => simp [words, isWhole_punct, ih, ih']
  | assign _ _ _ ih ih' => simp [words, isWhole_punct, ih, ih']
  | operand _ ih => exact ih
  | unary _ ih => exact ih
  | tightest _ ih => exact ih
  | tighter _ ih => exact ih
  | value _ ih => exact ih

theorem Declarator.Valid.allWhole {d : Declarator} (h : d.Valid) : AllWhole d.words := by
  obtain ⟨id, init⟩ := d
  cases init with
  | none => simp [Declarator.words, isWhole_ident h.1]
  | some e => simp [Declarator.words, isWhole_ident h.1, isWhole_punct, (h.2 e rfl).allWhole]

theorem allWhole_declarators {d : Declarator} {ds : List Declarator} (h : ∀ e ∈ d :: ds, e.Valid) :
    AllWhole (declaratorWords d ds) := by
  rw [declaratorWords, AllWhole.append_iff]
  exact ⟨.commas_map fun e he => (h e he).allWhole, by simp [isWhole_punct]⟩

theorem Stmt.wordsAll_eq_flatMap (ss : List Stmt) : wordsAll ss = ss.flatMap words := by
  induction ss with
  | nil => rw [wordsAll, List.flatMap_nil]
  | cons s ss ih => rw [wordsAll, List.flatMap_cons, ih]

/-- By induction on why the statement is valid. -/
theorem Stmt.Valid.allWhole {s : Stmt} (h : s.Valid) : AllWhole s.words := by
  induction h with
  | block _ ih =>
    rw [words, wordsAll_eq_flatMap]
    exact (AllWhole.flatMap ih).braces
  | empty => simp [words, isWhole_punct]
  | declare ht h => simp [words, ht.allWhole, allWhole_declarators h]
  | eval h => simp [words, isWhole_punct, h.allWhole]
  | ifThen hc _ ih => simp [words, isWhole_keyword, hc.allWhole.parens, ih]
  | ifElse hc _ _ _ ih ih' => simp [words, isWhole_keyword, hc.allWhole.parens, ih, ih']
  | whileDo hc _ ih => simp [words, isWhole_keyword, hc.allWhole.parens, ih]
  | @ret value h =>
    cases value with
    | none => simp [words, isWhole_keyword, isWhole_punct]
    | some e => simp [words, isWhole_keyword, isWhole_punct, (h e rfl).allWhole]
  | breakLoop => simp [words, isWhole_keyword, isWhole_punct]
  | continueLoop => simp [words, isWhole_keyword, isWhole_punct]

theorem allWhole_modifiers (mods : List Modifier) : AllWhole (mods.map .modifier) := by
  intro w hw
  obtain ⟨m, -, rfl⟩ := List.mem_map.1 hw
  exact isWhole_modifier m

theorem isWhole_declarationWord (k : DeclarationKind) : (declarationWord k).isWhole = true := by
  cases k with
  | record => exact Word.isWhole_letters (by decide) rfl (by decide)
  | _ => exact isWhole_keyword _

theorem Member.wordsAll_eq_flatMap (ms : List Member) : wordsAll ms = ms.flatMap words := by
  induction ms with
  | nil => rw [wordsAll, List.flatMap_nil]
  | cons m ms ih => rw [wordsAll, List.flatMap_cons, ih]

/-- By induction on why the member is valid. -/
theorem Member.Valid.allWhole {version : LanguageVersion} {m : Member} (h : m.Valid version) :
    AllWhole m.words := by
  induction h with
  | usingDirective hn => simp [words, isWhole_keyword, isWhole_punct, hn.allWhole]
  | namespaceDecl hn _ ih =>
    rw [words, wordsAll_eq_flatMap]
    simp [isWhole_keyword, hn.allWhole, (AllWhole.flatMap ih).braces]
  | @typeDecl k mods id bases ms _ hid hbases _ ih =>
    have htypes : AllWhole (if bases = [] then [] else .punct .colon :: commas (bases.map Ty.words)) := by
      split
      · exact .nil
      · rw [AllWhole.cons_iff]
        exact ⟨isWhole_punct _, .commas_map fun t ht => (hbases t ht).allWhole⟩
    rw [words, wordsAll_eq_flatMap]
    simp [allWhole_modifiers, isWhole_declarationWord, isWhole_ident hid, htypes, (AllWhole.flatMap ih).braces]
  | @method mods t id params body ht hid hparams hbody =>
    have hlist : AllWhole (commas (params.map Param.words)) := .commas_map fun p hp => by
      simp [Param.words, (hparams p hp).1.allWhole, isWhole_ident (hparams p hp).2]
    cases body with
    | none => simp [words, allWhole_modifiers, ht.allWhole, isWhole_ident hid, hlist.parens, isWhole_punct]
    | some ss =>
      have hblock : AllWhole (Stmt.wordsAll ss) := by
        rw [Stmt.wordsAll_eq_flatMap]
        exact .flatMap fun s hs => (hbody ss rfl s hs).allWhole
      simp [words, allWhole_modifiers, ht.allWhole, isWhole_ident hid, hlist.parens, hblock.braces]
  | field ht h => simp [words, allWhole_modifiers, ht.allWhole, allWhole_declarators h]

/-! ## Tokens of words -/

/-- **Spelled.** The leaves are the tokens of words, one for one. -/
structure IsWord (l : Leaf) (w : Word) : Prop where
  kind : l.tokenKind = w.kind
  text : l.text = w.text
  present : l.missing = false

abbrev Spelled (ls : List Leaf) (ws : List Word) : Prop := List.Forall₂ IsWord ls ws

/-- Behind the front of a written word comes the rest of it, and then nothing or a space. -/
theorem write_cons {w : Word} {c : Char} {t : Text} (hw : w.text = c :: t) (ws : List Word) :
    ∃ z, write (w :: ws) = c :: (t ++ z) ∧ Text.Delimits z := by
  cases ws with
  | nil => exact ⟨[], by simp [write, hw], .nil⟩
  | cons v ws => exact ⟨' ' :: write (v :: ws), by simp [write, hw], .space _⟩

theorem tokenizeRest_nil {c : Context} (hframes : c.directives.frames = []) :
    (tokenizeRest c []) = [(scan c []).leaf] ∧ (scan c []).leaf.tokenKind = .eof ∧
      (scan c []).leaf.diagnostics = [] := by
  have hscan : (scan c []).leaf = { kind := .token .eof, text := [] } := by
    simp [scan, Leading.read, Leading.run, Scan.atEnd, DirectiveState.expectedCloser?, hframes]
  have heof : (scan c []).leaf.tokenKind = .eof := by
    rw [hscan]
    rfl
  exact ⟨tokenizeRest_of_eq heof, heof, by rw [hscan]⟩

/-- The scan of the first of some words: behind it is nothing, or a space and the front of a word. -/
theorem scan_write {c : Context} (hframes : c.directives.frames = []) {w : Word} {ws : List Word}
    (h : ∀ v ∈ w :: ws, v.isWhole = true) :
    IsWord (scan c (write (w :: ws))).leaf w ∧ (scan c (write (w :: ws))).leaf.diagnostics = [] ∧
      (scan c (write (w :: ws))).rest = write ws ∧
      (scan c (write (w :: ws))).context.directives = c.directives := by
  have hactive : c.directives.isActive = true := by simp [DirectiveState.isActive, hframes]
  obtain ⟨a, t, hw, hread⟩ := Word.isWhole_iff.1 (h w List.mem_cons_self)
  cases ws with
  | nil =>
    obtain ⟨hleaf, hrest, hdirectives⟩ := scan_last hread hactive
    rw [show write [w] = a :: t from hw, hleaf, hrest, hdirectives]
    exact ⟨⟨rfl, hw.symm, rfl⟩, rfl, rfl, rfl⟩
  | cons v ws =>
    obtain ⟨b, u, hv, hread'⟩ := Word.isWhole_iff.1 (h v (by simp))
    obtain ⟨z, hwrite, hz⟩ := write_cons hv ws
    obtain ⟨hleaf, hrest, hdirectives⟩ := scan_spaced hread (RawToken.plain hread' hz) hactive
    have hall : write (w :: v :: ws) = a :: (t ++ ' ' :: b :: (u ++ z)) := by
      rw [write, hw, hwrite, List.cons_append]
    rw [hall, hleaf, hrest, hdirectives, hwrite]
    exact ⟨⟨rfl, hw.symm, rfl⟩, rfl, rfl, rfl⟩

/-- By induction on the words. -/
theorem tokenizeRest_write {c : Context} (hframes : c.directives.frames = []) {ws : List Word}
    (h : ∀ w ∈ ws, w.isWhole = true) :
    ∃ ls e, tokenizeRest c (write ws) = ls ++ [e] ∧ Spelled ls ws ∧ e.tokenKind = .eof ∧
      ∀ l ∈ ls ++ [e], l.diagnostics = [] := by
  induction ws generalizing c with
  | nil =>
    obtain ⟨htokens, heof, hclean⟩ := tokenizeRest_nil hframes
    exact ⟨[], _, htokens, .nil, heof, by simpa using hclean⟩
  | cons w ws ih =>
    obtain ⟨hword, hclean, hrest, hdirectives⟩ := scan_write hframes h
    obtain ⟨ls, e, htokens, hspelled, heof, hclean'⟩ :=
      ih (hdirectives ▸ hframes) fun v hv => h v (List.mem_cons_of_mem _ hv)
    have hne : (scan c (write (w :: ws))).leaf.tokenKind ≠ .eof := by
      obtain ⟨a, t, -, hread⟩ := Word.isWhole_iff.1 (h w List.mem_cons_self)
      have hkind := RawToken.kind_read_ne_eof a t
      rw [hread] at hkind
      rw [hword.kind]
      exact hkind
    refine ⟨_ :: ls, e, ?_, .cons hword hspelled, heof, ?_⟩
    · rw [tokenizeRest_of_ne hne, hrest, htokens, List.cons_append]
    · rw [List.cons_append, List.forall_mem_cons]
      exact ⟨hclean, hclean'⟩

/-- **The tokens of written words.** There is one for each word, nothing is wrong with any of them, and the
text has ended behind them. -/
theorem tokenize_write (symbols : List Text) {ws : List Word} (h : ∀ w ∈ ws, w.isWhole = true) :
    ∃ ls e, tokenize symbols (write ws) = ls ++ [e] ∧ Spelled ls ws ∧ e.tokenKind = .eof ∧
      ∀ l ∈ ls ++ [e], l.diagnostics = [] :=
  tokenizeRest_write rfl h

end Ast

end IncrementalSyntax

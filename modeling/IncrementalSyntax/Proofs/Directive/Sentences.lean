import Mathlib
import IncrementalSyntax.Directive.Line
import IncrementalSyntax.Proofs.Text.Identifier

/-!
# The language of conditions

The sentences of the language of conditions are rows of marks, with blanks and tabs between them. On each level of
the grammar an operator joins what it finds to its left with one operand of the next level, so that the operators
of a level are grouped to the left. The reader of conditions accepts just the sentences, and reads the formula that
the grammar gives.

## Main definitions

* `Condition.Mark`, `Condition.Connective`, `Condition.Level`: the marks and the levels of the grammar
* `Condition.Derives`: the formulas of a level, with their marks
* `Condition.Sentence`: the formula that a text is a sentence for

## Main results

* `Condition.isRead_of_derives`: what the grammar derives is read
* `Condition.sound_formula`: what is read the grammar derives
* `Condition.parse?_eq_some_iff`: the reader and the grammar agree
* `DirectiveLine.condition_iff_sentence`: when the condition of a line is reported, and its value
-/

namespace IncrementalSyntax

namespace Condition

/-! ## The grammar -/

/-- **Connective.** An operator between two formulas. -/
inductive Connective where
  | or | and | eq | ne
  deriving DecidableEq, Repr

/-- **Level.** From the loosest one to the tightest one. -/
inductive Level where
  | or | and | equality | unary | primary
  deriving DecidableEq, Repr

/-- **Mark.** A token of a condition. -/
inductive Mark where
  | operator (o : Connective)
  | bang
  | opening
  | closing
  | word (w : Text)
  deriving DecidableEq, Repr

/-- The level next to a level on the tight side. -/
def Level.tighter : Level → Level
  | .or => .and
  | .and => .equality
  | .equality => .unary
  | .unary => .primary
  | .primary => .primary

namespace Connective

/-- The level that an operator belongs to. -/
def level : Connective → Level
  | or => .or
  | and => .and
  | eq => .equality
  | ne => .equality

/-- The formula that an operator makes of two others. -/
def build : Connective → Condition → Condition → Condition
  | or => .or
  | and => .and
  | eq => .eq
  | ne => .ne

def spelling : Connective → Text
  | or => ['|', '|']
  | and => ['&', '&']
  | eq => ['=', '=']
  | ne => ['!', '=']

end Connective

def Mark.spelling : Mark → Text
  | operator o => o.spelling
  | bang => ['!']
  | opening => ['(']
  | closing => [')']
  | word w => w

/-- **Derives.** The formulas of a level with their marks. A symbol is any word but the two constants. -/
inductive Derives : Level → Condition → List Mark → Prop
  | tighter {l : Level} {c : Condition} {ms : List Mark} (hl : l ≠ .primary) (h : Derives l.tighter c ms) :
      Derives l c ms
  | operation {l : Level} {a b : Condition} {ms ns : List Mark} (o : Connective) (hl : o.level = l)
      (ha : Derives l a ms) (hb : Derives l.tighter b ns) : Derives l (o.build a b) (ms ++ .operator o :: ns)
  | negation {c : Condition} {ms : List Mark} (h : Derives .unary c ms) : Derives .unary (.not c) (.bang :: ms)
  | parens {c : Condition} {ms : List Mark} (h : Derives .or c ms) :
      Derives .primary c (.opening :: (ms ++ [.closing]))
  | constTrue : Derives .primary (.const true) [.word "true".toList]
  | constFalse : Derives .primary (.const false) [.word "false".toList]
  | symbol {w : Text} (hw : DirectiveLine.isSymbol w = true) (htrue : w ≠ "true".toList)
      (hfalse : w ≠ "false".toList) : Derives .primary (.symbol w) [.word w]

/-- Blanks and tabs only. -/
def Blanks (t : Text) : Prop := ∀ c ∈ t, c = ' ' ∨ c = '\t'

/-- **Spells.** A text that consists of marks, with blanks and tabs in front of any of them. -/
inductive Spells : List Mark → Text → Prop
  | nil : Spells [] []
  | cons {m : Mark} {ms : List Mark} {t : Text} (b : Text) (hb : Blanks b) (h : Spells ms t) :
      Spells (m :: ms) (b ++ (m.spelling ++ t))

/-- **Sentence.** The text spells marks of a formula, with blanks and tabs behind the last one. -/
def Sentence (c : Condition) (t : Text) : Prop :=
  ∃ ms u b, Derives .or c ms ∧ Spells ms u ∧ Blanks b ∧ t = u ++ b

/-! ## Blanks -/

theorem Blanks.nil : Blanks [] := nofun

theorem Blanks.skip_append {b : Text} (h : Blanks b) (t : Text) : skipBlanks (b ++ t) = skipBlanks t := by
  refine List.dropWhile_append_of_pos fun c hc => ?_
  rcases h c hc with rfl | rfl <;> rfl

theorem Blanks.skip_eq {b : Text} (h : Blanks b) : skipBlanks b = [] := by
  have := h.skip_append []
  rwa [List.append_nil] at this

theorem exists_blanks (t : Text) : ∃ b, Blanks b ∧ t = b ++ skipBlanks t := by
  refine ⟨t.takeWhile fun c => c == ' ' || c == '\t', fun c hc => ?_, List.takeWhile_append_dropWhile.symm⟩
  simpa using List.mem_takeWhile_imp hc

/-- A word that begins with no blank is eaten behind blanks. -/
theorem eat?_append {b word : Text} (hb : Blanks b) (hword : ∀ t, skipBlanks (word ++ t) = word ++ t) (t : Text) :
    eat? word (b ++ (word ++ t)) = some t := by
  rw [eat?, hb.skip_append, hword, if_pos (by simp), List.drop_left]

theorem eat?_eq_some {word t r : Text} (h : eat? word t = some r) : ∃ b, Blanks b ∧ t = b ++ (word ++ r) := by
  unfold eat? at h
  split_ifs at h with hprefix
  obtain ⟨b, hb, ht⟩ := exists_blanks t
  obtain ⟨rest, hrest⟩ := List.isPrefixOf_iff_prefix.1 hprefix
  rw [← hrest, List.drop_left, Option.some_inj] at h
  exact ⟨b, hb, by rw [← h, hrest, ← ht]⟩

/-! ## Operators -/

/-- The operator of a level at the front of a text. -/
def Level.operator : Level → Operator
  | .or => orOperator
  | .and => andOperator
  | .equality => equalityOperator
  | .unary => fun _ => none
  | .primary => fun _ => none

theorem Connective.skip_spelling (o : Connective) (t : Text) : skipBlanks (o.spelling ++ t) = o.spelling ++ t := by
  cases o <;> rfl

theorem equalityOperator_of_some {t r : Text} (h : eat? ['=', '='] t = some r) : equalityOperator t = some (eq, r) := by
  rw [equalityOperator, h]

theorem equalityOperator_of_none {t : Text} (h : eat? ['=', '='] t = none) :
    equalityOperator t = (eat? ['!', '='] t).map fun r => (ne, r) := by
  rw [equalityOperator, h]

theorem Connective.operator_append (o : Connective) {b : Text} (hb : Blanks b) (t : Text) :
    o.level.operator (b ++ (o.spelling ++ t)) = some (o.build, t) := by
  have heat := eat?_append hb o.skip_spelling t
  cases o with
  | or => exact congrArg (Option.map fun r => (Condition.or, r)) heat
  | and => exact congrArg (Option.map fun r => (Condition.and, r)) heat
  | eq => exact equalityOperator_of_some heat
  | ne =>
    have hnone : eat? ['=', '='] (b ++ (Connective.ne.spelling ++ t)) = none := by
      rw [eat?, hb.skip_append, Connective.skip_spelling]
      rfl
    exact (equalityOperator_of_none hnone).trans (congrArg (Option.map fun r => (Condition.ne, r)) heat)

theorem Level.operator_eq_some {l : Level} {t r : Text} {f : Condition → Condition → Condition}
    (h : l.operator t = some (f, r)) :
    ∃ o b, Connective.level o = l ∧ f = o.build ∧ Blanks b ∧ t = b ++ (o.spelling ++ r) := by
  cases l with
  | or =>
    obtain ⟨r', heat, heq⟩ := Option.map_eq_some_iff.1 h
    cases heq
    obtain ⟨b, hb, ht⟩ := eat?_eq_some heat
    exact ⟨.or, b, rfl, rfl, hb, ht⟩
  | and =>
    obtain ⟨r', heat, heq⟩ := Option.map_eq_some_iff.1 h
    cases heq
    obtain ⟨b, hb, ht⟩ := eat?_eq_some heat
    exact ⟨.and, b, rfl, rfl, hb, ht⟩
  | equality =>
    have h : equalityOperator t = some (f, r) := h
    cases heat : eat? ['=', '='] t with
    | some r' =>
      rw [equalityOperator_of_some heat] at h
      cases h
      obtain ⟨b, hb, ht⟩ := eat?_eq_some heat
      exact ⟨.eq, b, rfl, rfl, hb, ht⟩
    | none =>
      rw [equalityOperator_of_none heat] at h
      obtain ⟨r', heat', heq⟩ := Option.map_eq_some_iff.1 h
      cases heq
      obtain ⟨b, hb, ht⟩ := eat?_eq_some heat'
      exact ⟨.ne, b, rfl, rfl, hb, ht⟩
  | unary => cases h
  | primary => cases h

/-! ## What may come behind a formula -/

/-- No word goes on into the text. -/
def Parted (t : Text) : Prop := ∀ c ∈ t.head?, isWordPart c = false

/-- **Stops.** Behind a formula of a level the text does not go on with an operator of the level or of a tighter
one, nor with a word. -/
def Level.Stops : Level → Text → Prop
  | .or, t => orOperator t = none ∧ andOperator t = none ∧ equalityOperator t = none ∧ Parted t
  | .and, t => andOperator t = none ∧ equalityOperator t = none ∧ Parted t
  | .equality, t => equalityOperator t = none ∧ Parted t
  | .unary, t => Parted t
  | .primary, t => Parted t

namespace Level.Stops

variable {l : Level} {t : Text}

theorem tighter (h : l.Stops t) : l.tighter.Stops t := by
  cases l with
  | or => exact h.2
  | and => exact h.2
  | equality => exact h.2
  | unary => exact h
  | primary => exact h

theorem operator_eq_none (h : l.Stops t) : l.operator t = none := by
  cases l with
  | or => exact h.1
  | and => exact h.1
  | equality => exact h.1
  | unary => rfl
  | primary => rfl

end Level.Stops

/-- A text goes on with no word at any other character of ASCII. -/
theorem parted_cons {c : Char} {t : Text} (hc : c.toNat < 128) (h : (c.isAlphanum || c == '_') = false) :
    Parted (c :: t) := by
  rintro d ⟨⟩
  rw [isWordPart_of_ascii hc, h]

/-- A text goes on with no word if a mark comes that is none, or nothing but blanks. -/
theorem Blanks.parted {b : Text} (hb : Blanks b) {t : Text} (ht : Parted t) : Parted (b ++ t) := by
  cases b with
  | nil => exact ht
  | cons d b =>
    rcases hb d List.mem_cons_self with rfl | rfl
    · exact parted_cons (by decide) (by decide)
    · exact parted_cons (by decide) (by decide)

/-- No word at all is eaten from a text that begins with another character. -/
theorem Blanks.eat?_eq_none {b word t : Text} (hb : Blanks b)
    (h : word.isPrefixOf (skipBlanks t) = false) : eat? word (b ++ t) = none := by
  rw [eat?, hb.skip_append, h]
  rfl

theorem stops_closing {b : Text} (hb : Blanks b) (t : Text) : Level.or.Stops (b ++ ')' :: t) := by
  have hne : ∀ word : Text, word.isPrefixOf (skipBlanks (')' :: t)) = false → eat? word (b ++ ')' :: t) = none :=
    fun word h => hb.eat?_eq_none h
  refine ⟨?_, ?_, ?_, hb.parted ?_⟩
  · rw [orOperator, hne _ rfl]
    rfl
  · rw [andOperator, hne _ rfl]
    rfl
  · rw [equalityOperator_of_none (hne _ rfl), hne _ rfl]
    rfl
  · exact parted_cons (by decide) (by decide)

theorem stops_blanks {b : Text} (hb : Blanks b) : Level.or.Stops b := by
  have hne : ∀ word : Text, word.isPrefixOf [] = false → eat? word b = none := by
    intro word h
    rw [eat?, hb.skip_eq, h]
    rfl
  refine ⟨?_, ?_, ?_, ?_⟩
  · rw [orOperator, hne _ rfl]
    rfl
  · rw [andOperator, hne _ rfl]
    rfl
  · rw [equalityOperator_of_none (hne _ rfl), hne _ rfl]
    rfl
  · simpa using hb.parted (t := []) nofun

/-- In front of an operator the formulas of tighter levels stop. -/
theorem stops_operator (o : Connective) {b : Text} (hb : Blanks b) (t : Text) :
    o.level.tighter.Stops (b ++ (o.spelling ++ t)) := by
  have hne : ∀ word : Text, word.isPrefixOf (skipBlanks (o.spelling ++ t)) = false →
      eat? word (b ++ (o.spelling ++ t)) = none := fun word h => hb.eat?_eq_none h
  have hparted : Parted (b ++ (o.spelling ++ t)) := by
    refine hb.parted ?_
    cases o <;> exact parted_cons (by decide) (by decide)
  cases o with
  | or =>
    refine ⟨?_, ?_, hparted⟩
    · rw [andOperator, hne _ rfl]
      rfl
    · rw [equalityOperator_of_none (hne _ rfl), hne _ rfl]
      rfl
  | and =>
    refine ⟨?_, hparted⟩
    rw [equalityOperator_of_none (hne _ rfl), hne _ rfl]
    rfl
  | eq => exact hparted
  | ne => exact hparted

/-! ## Words -/

theorem isSymbol_iff {w : Text} : DirectiveLine.isSymbol w = true ↔
    ∃ c t, w = c :: t ∧ isWordStart c = true ∧ ∀ d ∈ t, isWordPart d = true := by
  cases w with
  | nil => simp [DirectiveLine.isSymbol]
  | cons c t => simp [DirectiveLine.isSymbol, isWordPart_eq]

/-- Letters of ASCII in a row are a symbol. -/
theorem isSymbol_of_isAlpha {w : Text} (hne : w ≠ []) (h : w.all Char.isAlpha = true) :
    DirectiveLine.isSymbol w = true := by
  obtain ⟨c, t, rfl⟩ := List.exists_cons_of_ne_nil hne
  obtain ⟨hc, ht⟩ := List.forall_mem_cons.1 (List.all_eq_true.1 h)
  refine isSymbol_iff.2 ⟨c, t, rfl, ?_, fun d hd => ?_⟩
  · rw [isWordStart, identifierClasses.start_of_isAlpha hc, Bool.or_true]
  · rw [isWordPart, identifierClasses.part_of_isAlphanum (by rw [Char.isAlphanum, ht d hd, Bool.true_or]), Bool.or_true]

theorem skipBlanks_word {w : Text} (hw : DirectiveLine.isSymbol w = true) (t : Text) :
    skipBlanks (w ++ t) = w ++ t := by
  obtain ⟨c, w, rfl, hc, -⟩ := isSymbol_iff.1 hw
  refine List.dropWhile_cons_of_neg fun hblank => ?_
  simp only [Bool.or_eq_true, beq_iff_eq] at hblank
  rcases hblank with rfl | rfl
  · exact ne_of_isWordStart hc (by decide) (by decide) rfl
  · exact ne_of_isWordStart hc (by decide) (by decide) rfl

/-- A word ends where the text does not go on with it. -/
theorem wordOf_append {w r : Text} (hw : DirectiveLine.isSymbol w = true) (hr : Parted r) : wordOf (w ++ r) = w := by
  obtain ⟨c, t, rfl, hc, ht⟩ := isSymbol_iff.1 hw
  rw [List.cons_append, wordOf, if_pos hc, List.takeWhile_append_of_pos ht]
  cases r with
  | nil => simp
  | cons d r => rw [List.takeWhile_cons_of_neg (by simpa using hr d rfl), List.append_nil]

theorem exists_of_wordOf {t : Text} (h : wordOf t ≠ []) :
    DirectiveLine.isSymbol (wordOf t) = true ∧ t = wordOf t ++ t.drop (wordOf t).length := by
  cases t with
  | nil => exact absurd rfl h
  | cons c t =>
    rw [wordOf] at h ⊢
    split_ifs at h ⊢ with hc
    · refine ⟨isSymbol_iff.2 ⟨c, _, rfl, hc, fun d hd => List.mem_takeWhile_imp hd⟩, ?_⟩
      have hprefix : t.takeWhile isWordPart <+: t := List.takeWhile_prefix _
      exact congrArg (c :: ·) (List.prefix_iff_eq_append.1 hprefix).symm
    · exact absurd rfl h

theorem atom_word {w r : Text} (hw : DirectiveLine.isSymbol w = true) (hr : Parted r) : atom (w ++ r) =
    if w = "true".toList then some (.const true, r)
    else if w = "false".toList then some (.const false, r) else some (.symbol w, r) := by
  have hne : w ≠ [] := by
    rintro rfl
    cases hw
  unfold atom
  dsimp only
  rw [skipBlanks_word hw, wordOf_append hw hr, List.drop_left, if_neg hne]

/-! ## What a formula begins with -/

/-- A mark that a formula can begin with. -/
def Mark.Starts : Mark → Prop
  | operator _ => False
  | bang => True
  | opening => True
  | closing => False
  | word w => DirectiveLine.isSymbol w = true

theorem Derives.starts {l : Level} {c : Condition} {ms : List Mark} (h : Derives l c ms) :
    ∃ m ns, ms = m :: ns ∧ m.Starts := by
  induction h with
  | tighter _ _ ih => exact ih
  | operation o _ _ _ iha _ =>
    obtain ⟨m, ns, rfl, hm⟩ := iha
    exact ⟨m, _, rfl, hm⟩
  | negation => exact ⟨.bang, _, rfl, trivial⟩
  | parens => exact ⟨.opening, _, rfl, trivial⟩
  | constTrue => exact ⟨_, [], rfl, isSymbol_of_isAlpha (by decide) rfl⟩
  | constFalse => exact ⟨_, [], rfl, isSymbol_of_isAlpha (by decide) rfl⟩
  | symbol hw => exact ⟨_, [], rfl, hw⟩

/-- A formula of the tightest level does not begin with a negation. -/
theorem Derives.primary_ne_bang {c : Condition} {ms ns : List Mark} (h : Derives .primary c ms) :
    ms ≠ .bang :: ns := by
  cases h with
  | tighter hl => exact absurd rfl hl
  | operation o hl => cases o <;> cases hl
  | parens => simp
  | constTrue => simp
  | constFalse => simp
  | symbol => simp

/-- The first character of a mark that a formula begins with is no blank and no equals sign. -/
theorem Mark.Starts.exists_char {m : Mark} (h : m.Starts) : ∃ d t, m.spelling = d :: t ∧ d ≠ ' ' ∧ d ≠ '\t' ∧ d ≠ '=' ∧
    (m ≠ .bang → d ≠ '!') := by
  cases m with
  | operator o => cases h
  | bang => exact ⟨'!', [], rfl, by decide, by decide, by decide, fun hne => absurd rfl hne⟩
  | opening => exact ⟨'(', [], rfl, by decide, by decide, by decide, fun _ => by decide⟩
  | closing => cases h
  | word w =>
    obtain ⟨d, t, rfl, hd, -⟩ := isSymbol_iff.1 h
    have hne : ∀ e : Char, e.toNat < 128 → (e == '_' || e.isAlpha) = false → d ≠ e :=
      fun _ => ne_of_isWordStart hd
    exact ⟨d, t, rfl, hne _ (by decide) (by decide), hne _ (by decide) (by decide), hne _ (by decide) (by decide),
      fun _ => hne _ (by decide) (by decide)⟩

/-! ## Negations -/

theorem negations_blanks {b : Text} (hb : Blanks b) (t : Text) : negations (b ++ t) = negations t := by
  induction b with
  | nil => rfl
  | cons c b ih =>
    have ih := ih fun d hd => hb d (List.mem_cons_of_mem _ hd)
    rcases hb c List.mem_cons_self with rfl | rfl
    · exact ih
    · exact ih

theorem negations_bang {t : Text} (h : t.head? ≠ some '=') :
    negations ('!' :: t) = ((negations t).1 + 1, (negations t).2) := by
  cases t with
  | nil => rfl
  | cons c t =>
    have hc : c ≠ '=' := fun heq => h (congrArg some heq)
    rw [negations]
    rintro t' ⟨⟩
    exact hc rfl

theorem negations_plain {d : Char} {t : Text} (hspace : d ≠ ' ') (htab : d ≠ '\t') (hbang : d ≠ '!') :
    negations (d :: t) = (0, d :: t) := by
  rw [negations]
  · exact hspace
  · exact htab
  · exact fun _ h _ => hbang h
  · exact hbang

/-! ## What the grammar derives is read -/

/-- The reader of a level, where `inner` reads what stands in parentheses. -/
def readerAt (inner : Reader) : Level → Reader
  | .or => chain (chain (chain (unary inner) equalityOperator) andOperator) orOperator
  | .and => chain (chain (unary inner) equalityOperator) andOperator
  | .equality => chain (unary inner) equalityOperator
  | .unary => unary inner
  | .primary => primary inner

/-- The levels of the operators between two formulas. -/
def Level.Joins (l : Level) : Prop := ∃ o, Connective.level o = l

theorem Level.Joins.reader_eq {l : Level} (h : l.Joins) (inner : Reader) :
    readerAt inner l = chain (readerAt inner l.tighter) l.operator := by
  obtain ⟨o, rfl⟩ := h
  cases o <;> rfl

section Chains

variable {operand : Reader} {operator : Operator} {a b : Condition} {t r r' : Text}
variable {f : Condition → Condition → Condition}

theorem chain_of_some (h : operand t = some (a, r)) :
    chain operand operator t = chainFrom operand operator r.length a r := by
  rw [chain, h]

theorem chainFrom_of_none (h : operator t = none) (fuel : Nat) :
    chainFrom operand operator fuel a t = some (a, t) := by
  cases fuel with
  | zero => rfl
  | succ fuel => rw [chainFrom, h]

theorem chainFrom_of_some (h : operator t = some (f, r)) (h' : operand r = some (b, r')) (fuel : Nat) :
    chainFrom operand operator (fuel + 1) a t = chainFrom operand operator fuel (f a b) r' := by
  simp only [chainFrom, h, h']

end Chains

section Parts

variable {inner : Reader}

theorem eat?_blanks {b : Text} (hb : Blanks b) (word t : Text) : eat? word (b ++ t) = eat? word t := by
  rw [eat?, eat?, hb.skip_append]

theorem primary_blanks {b : Text} (hb : Blanks b) (t : Text) : primary inner (b ++ t) = primary inner t := by
  rw [primary, primary, eat?_blanks hb, atom, atom, hb.skip_append]

theorem unary_bang {b : Text} (hb : Blanks b) {t : Text} (h : t.head? ≠ some '=') :
    unary inner (b ++ '!' :: t) = (unary inner t).map fun p => (.not p.1, p.2) := by
  rw [unary, unary, negations_blanks hb, negations_bang h, Option.map_map]
  rfl

theorem unary_plain {b : Text} (hb : Blanks b) {d : Char} {t : Text} (hspace : d ≠ ' ') (htab : d ≠ '\t')
    (hbang : d ≠ '!') : unary inner (b ++ d :: t) = primary inner (b ++ d :: t) := by
  rw [unary, negations_blanks hb, negations_plain hspace htab hbang, primary_blanks hb]
  exact Option.map_id'

theorem primary_parens {b b' : Text} (hb : Blanks b) (hb' : Blanks b') {t r : Text} {c : Condition}
    (h : inner t = some (c, b' ++ ([')'] ++ r))) : primary inner (b ++ (['('] ++ t)) = some (c, r) := by
  have hopening : eat? ['('] (b ++ (['('] ++ t)) = some t := eat?_append hb (fun _ => rfl) t
  have hclosing : eat? [')'] (b' ++ ([')'] ++ r)) = some r := eat?_append hb' (fun _ => rfl) r
  simp only [primary, hopening, h, hclosing, Option.map_some]

theorem primary_word {b w r : Text} (hb : Blanks b) (hw : DirectiveLine.isSymbol w = true) (hr : Parted r) :
    primary inner (b ++ (w ++ r)) =
      if w = "true".toList then some (.const true, r)
      else if w = "false".toList then some (.const false, r) else some (.symbol w, r) := by
  have hnone : eat? ['('] (w ++ r) = none := by
    obtain ⟨c, t, rfl, hc, -⟩ := isSymbol_iff.1 hw
    have hne : ('(' == c) = false := beq_eq_false_iff_ne.2 (ne_of_isWordStart hc (by decide) (by decide)).symm
    rw [eat?, skipBlanks_word hw, List.cons_append, List.isPrefixOf, hne]
    rfl
  rw [primary_blanks hb, primary, hnone]
  exact atom_word hw hr

end Parts

/-- A text that spells one mark. -/
theorem Spells.singleton {m : Mark} {u : Text} (h : Spells [m] u) : ∃ b, Blanks b ∧ u = b ++ m.spelling := by
  cases h with
  | cons b hb h =>
    cases h
    exact ⟨b, hb, by simp⟩

theorem Spells.split {ms ns : List Mark} {u : Text} (h : Spells (ms ++ ns) u) :
    ∃ v w, u = v ++ w ∧ Spells ms v ∧ Spells ns w := by
  induction ms generalizing u with
  | nil => exact ⟨[], u, rfl, .nil, h⟩
  | cons m ms ih =>
    cases h with
    | cons b hb h =>
      obtain ⟨v, w, rfl, hv, hw⟩ := ih h
      exact ⟨b ++ (m.spelling ++ v), w, by simp, .cons b hb hv, hw⟩

/-- **Is read.** The reader of the level reads the formula out of its marks, up to what may come behind it. Where
only the operands of the level have to stop there, the reader is in the middle of the level. -/
structure IsRead (l : Level) (c : Condition) (ms : List Mark) : Prop where
  whole : ∀ {u r : Text} {n : Nat}, Spells ms u → u.length ≤ n → l.Stops r →
    readerAt (formula n) l (u ++ r) = some (c, r)
  within : ∀ {u r : Text} {n : Nat}, Spells ms u → u.length ≤ n → l.Joins → l.tighter.Stops r →
    ∃ fuel, r.length ≤ fuel ∧
      readerAt (formula n) l (u ++ r) = chainFrom (readerAt (formula n) l.tighter) l.operator fuel c r

namespace IsRead

variable {l : Level} {a b c : Condition} {ms ns : List Mark}

/-- A level that was read up to its operators ends where none of them comes. -/
theorem of_within
    (h : ∀ {u r : Text} {n : Nat}, Spells ms u → u.length ≤ n → l.tighter.Stops r → ∃ fuel, r.length ≤ fuel ∧
      readerAt (formula n) l (u ++ r) = chainFrom (readerAt (formula n) l.tighter) l.operator fuel c r) :
    IsRead l c ms := by
  refine ⟨fun hu hn hstops => ?_, fun hu hn _ hstops => h hu hn hstops⟩
  obtain ⟨fuel, -, heq⟩ := h hu hn hstops.tighter
  rw [heq, chainFrom_of_none hstops.operator_eq_none]

/-- A level without operators is read as a whole. -/
theorem of_whole (hj : ¬ l.Joins)
    (h : ∀ {u r : Text} {n : Nat}, Spells ms u → u.length ≤ n → l.Stops r →
      readerAt (formula n) l (u ++ r) = some (c, r)) : IsRead l c ms :=
  ⟨h, fun _ _ hj' => absurd hj' hj⟩

theorem not_joins_unary : ¬ Level.Joins .unary := by
  rintro ⟨o, ho⟩
  cases o <;> cases ho

theorem not_joins_primary : ¬ Level.Joins .primary := by
  rintro ⟨o, ho⟩
  cases o <;> cases ho

/-- One operand alone. -/
theorem operand (hj : l.Joins) (h : IsRead l.tighter c ms) : IsRead l c ms :=
  of_within fun {_ r _} hu hn hstops =>
    ⟨r.length, le_rfl, by rw [hj.reader_eq, chain_of_some (h.whole hu hn hstops)]⟩

theorem operation (o : Connective) (ha : IsRead o.level a ms) (hb : IsRead o.level.tighter b ns) :
    IsRead o.level (o.build a b) (ms ++ .operator o :: ns) := by
  have hj : o.level.Joins := ⟨o, rfl⟩
  refine of_within fun {u r n} hu hn hstops => ?_
  obtain ⟨v, w, rfl, hv, hw⟩ := hu.split
  cases hw with
  | @cons _ _ w blanks hblanks hw =>
    simp only [List.length_append] at hn
    obtain ⟨fuel, hfuel, heq⟩ := ha.within (r := blanks ++ (o.spelling ++ (w ++ r))) hv (by omega : v.length ≤ n) hj
      (stops_operator o hblanks _)
    have hright := hb.whole hw (by omega : w.length ≤ n) hstops
    -- the operator takes from the text at least what its round takes from the fuel
    have hpos : 0 < o.spelling.length := by cases o <;> decide
    simp only [List.length_append] at hfuel
    obtain ⟨fuel, rfl⟩ : ∃ k, fuel = k + 1 := ⟨fuel - 1, by omega⟩
    refine ⟨fuel, by omega, ?_⟩
    rw [← chainFrom_of_some (o.operator_append hblanks (w ++ r)) hright, ← heq]
    simp [Mark.spelling]

/-- A formula that begins with no negation. -/
theorem unary (h : Derives .primary c ms) (hread : IsRead .primary c ms) : IsRead .unary c ms := by
  refine of_whole not_joins_unary fun {u r n} hu hn hstops => ?_
  obtain ⟨m, ns, rfl, hm⟩ := h.starts
  have hbang : m ≠ .bang := fun heq => h.primary_ne_bang (congrArg (· :: ns) heq)
  have hprimary := hread.whole hu hn hstops
  cases hu with
  | cons b hb hu =>
    obtain ⟨d, w, hd, hspace, htab, -, hne⟩ := hm.exists_char
    rw [hd] at hprimary ⊢
    simp only [List.append_assoc, List.cons_append] at hprimary ⊢
    exact (unary_plain hb hspace htab (hne hbang)).trans hprimary

theorem negation (h : Derives .unary c ms) (hread : IsRead .unary c ms) : IsRead .unary (.not c) (.bang :: ms) := by
  refine of_whole not_joins_unary fun {u r n} hu hn hstops => ?_
  cases hu with
  | @cons _ _ w blanks hblanks hw =>
    simp only [List.length_append] at hn
    have hunder := hread.whole hw (by omega : w.length ≤ n) hstops
    -- the text under the negation begins with no equals sign
    have hhead : (w ++ r).head? ≠ some '=' := by
      obtain ⟨m, ns, rfl, hm⟩ := h.starts
      cases hw with
      | cons b hb hw =>
        obtain ⟨d, z, hd, -, -, hne, -⟩ := hm.exists_char
        rw [hd]
        cases b with
        | nil => simpa using hne
        | cons e b =>
          rcases hb e List.mem_cons_self with rfl | rfl <;> simp
    show Condition.unary (formula n) (blanks ++ ('!' :: w) ++ r) = _
    rw [List.append_assoc, List.cons_append, unary_bang hblanks hhead]
    exact congrArg (Option.map fun p : Condition × Text => (p.1.not, p.2)) hunder

theorem parens (h : IsRead .or c ms) : IsRead .primary c (.opening :: (ms ++ [.closing])) := by
  refine of_whole not_joins_primary fun {u r n} hu hn _ => ?_
  cases hu with
  | @cons _ _ w blanks hblanks hw =>
    obtain ⟨v, z, rfl, hv, hz⟩ := hw.split
    obtain ⟨blanks', hblanks', rfl⟩ := hz.singleton
    simp only [List.length_append] at hn
    -- the parenthesis takes from the text what its level takes from the depth
    have hpos : 0 < Mark.opening.spelling.length := by decide
    obtain ⟨n, rfl⟩ : ∃ k, n = k + 1 := ⟨n - 1, by omega⟩
    have hinner : formula (n + 1) (v ++ (blanks' ++ ([')'] ++ r))) = some (c, blanks' ++ ([')'] ++ r)) :=
      h.whole hv (by omega : v.length ≤ n) (stops_closing hblanks' r)
    have := primary_parens (r := r) hblanks hblanks' hinner
    simpa [readerAt, Mark.spelling] using this

theorem word {w : Text} (hw : DirectiveLine.isSymbol w = true)
    (hc : c = if w = "true".toList then .const true else if w = "false".toList then .const false else .symbol w) :
    IsRead .primary c [.word w] := by
  refine of_whole not_joins_primary fun {u r n} hu _ hstops => ?_
  obtain ⟨b, hb, rfl⟩ := hu.singleton
  show primary (formula n) (b ++ w ++ r) = _
  rw [List.append_assoc, primary_word hb hw hstops, hc]
  split_ifs <;> rfl

end IsRead

/-- **What the grammar derives is read.** -/
theorem isRead_of_derives {l : Level} {c : Condition} {ms : List Mark} (h : Derives l c ms) : IsRead l c ms := by
  induction h with
  | @tighter l c ms hl h ih =>
    cases l with
    | or => exact .operand ⟨.or, rfl⟩ ih
    | and => exact .operand ⟨.and, rfl⟩ ih
    | equality => exact .operand ⟨.eq, rfl⟩ ih
    | unary => exact .unary h ih
    | primary => exact absurd rfl hl
  | operation o hl _ _ iha ihb =>
    subst hl
    exact .operation o iha ihb
  | negation h ih => exact .negation h ih
  | parens _ ih => exact .parens ih
  | constTrue => exact .word (isSymbol_of_isAlpha (by decide) rfl) (by decide)
  | constFalse => exact .word (isSymbol_of_isAlpha (by decide) rfl) (by decide)
  | symbol hw htrue hfalse => exact .word hw (by rw [if_neg htrue, if_neg hfalse])

/-! ## What is read the grammar derives -/

/-- **Sound.** What the reader takes off a text are marks of a formula of the level. -/
def Reader.Sound (reader : Reader) (l : Level) : Prop :=
  ∀ ⦃t r : Text⦄ ⦃c : Condition⦄, reader t = some (c, r) → ∃ ms u, t = u ++ r ∧ Derives l c ms ∧ Spells ms u

theorem Spells.append {ms ns : List Mark} {u v : Text} (hu : Spells ms u) (hv : Spells ns v) :
    Spells (ms ++ ns) (u ++ v) := by
  induction hu with
  | nil => exact hv
  | cons b hb _ ih => simpa using Spells.cons b hb ih

theorem Spells.of_mark {b : Text} (hb : Blanks b) (m : Mark) : Spells [m] (b ++ m.spelling) := by
  simpa using Spells.cons (m := m) b hb .nil

section Sound

variable {l : Level} {operand inner : Reader}

/-- The operators of a level and their operands, behind a formula of the level. -/
theorem derives_of_chainFrom (hoperand : Reader.Sound operand l.tighter) {fuel : Nat} {a c : Condition} {t r : Text}
    (h : chainFrom operand l.operator fuel a t = some (c, r)) {ms : List Mark} (ha : Derives l a ms) :
    ∃ ns u, t = u ++ r ∧ Derives l c (ms ++ ns) ∧ Spells ns u := by
  induction fuel generalizing a t ms with
  | zero =>
    cases h
    exact ⟨[], [], rfl, by simpa using ha, .nil⟩
  | succ fuel ih =>
    rw [chainFrom] at h
    split at h
    · cases h
      exact ⟨[], [], rfl, by simpa using ha, .nil⟩
    · next f r₁ hop =>
      split at h
      · cases h
      · next b r₂ hb =>
        obtain ⟨o, blanks, hl, rfl, hblanks, rfl⟩ := Level.operator_eq_some hop
        obtain ⟨ns, v, rfl, hderives, hv⟩ := hoperand hb
        obtain ⟨ns', w, rfl, hderives', hw⟩ := ih h (.operation o hl ha hderives)
        refine ⟨.operator o :: (ns ++ ns'), blanks ++ (o.spelling ++ (v ++ w)), ?_, ?_, ?_⟩
        · simp
        · simpa using hderives'
        · exact .cons blanks hblanks (hv.append hw)

theorem sound_chain (hl : l ≠ .primary) (hoperand : Reader.Sound operand l.tighter) :
    Reader.Sound (chain operand l.operator) l := by
  intro t r c h
  rw [chain] at h
  split at h
  · cases h
  · next a r₁ ha =>
    obtain ⟨ms, u, rfl, hderives, hu⟩ := hoperand ha
    obtain ⟨ns, v, rfl, hderives', hv⟩ := derives_of_chainFrom hoperand h (.tighter hl hderives)
    exact ⟨ms ++ ns, u ++ v, by simp, hderives', hu.append hv⟩

theorem sound_atom : Reader.Sound atom .primary := by
  intro t r c h
  obtain ⟨b, hb, ht⟩ := exists_blanks t
  by_cases hne : wordOf (skipBlanks t) = []
  · rw [atom, if_pos hne] at h
    cases h
  · obtain ⟨hw, hrest⟩ := exists_of_wordOf hne
    have hspells := Spells.of_mark hb (.word (wordOf (skipBlanks t)))
    have htext : t = (b ++ wordOf (skipBlanks t)) ++ (skipBlanks t).drop (wordOf (skipBlanks t)).length := by
      rw [List.append_assoc, ← hrest, ← ht]
    rw [atom, if_neg hne] at h
    split_ifs at h with htrue hfalse
    · cases h
      exact ⟨_, _, htext, htrue ▸ .constTrue, hspells⟩
    · cases h
      exact ⟨_, _, htext, hfalse ▸ .constFalse, hspells⟩
    · cases h
      exact ⟨_, _, htext, .symbol hw htrue hfalse, hspells⟩

theorem sound_primary (hinner : Reader.Sound inner .or) : Reader.Sound (primary inner) .primary := by
  intro t r c h
  rw [primary] at h
  split at h
  · exact sound_atom h
  · next r₁ hopening =>
    split at h
    · cases h
    · next c' r₂ hread =>
      obtain ⟨r₃, hclosing, heq⟩ := Option.map_eq_some_iff.1 h
      cases heq
      obtain ⟨b, hb, rfl⟩ := eat?_eq_some hopening
      obtain ⟨ms, u, rfl, hderives, hu⟩ := hinner hread
      obtain ⟨b', hb', rfl⟩ := eat?_eq_some hclosing
      refine ⟨_, b ++ (Mark.opening.spelling ++ (u ++ (b' ++ Mark.closing.spelling))), ?_, .parens hderives, ?_⟩
      · simp [Mark.spelling]
      · exact .cons b hb (hu.append (.of_mark hb' .closing))

/-- Blanks in front of a text belong to its first mark. -/
theorem Spells.blanks {b u : Text} {ms : List Mark} (hb : Blanks b) (hu : Spells ms u) (hne : ms ≠ []) :
    Spells ms (b ++ u) := by
  cases hu with
  | nil => exact absurd rfl hne
  | cons b' hb' hu =>
    rw [← List.append_assoc]
    refine .cons (b ++ b') (fun c hc => ?_) hu
    rcases List.mem_append.1 hc with hc | hc
    · exact hb c hc
    · exact hb' c hc

theorem Derives.ne_nil {c : Condition} {ms : List Mark} (h : Derives l c ms) : ms ≠ [] := by
  obtain ⟨m, ns, rfl, -⟩ := h.starts
  exact List.cons_ne_nil m ns

/-- The negations at the front of a text, with the blanks behind them. -/
theorem exists_negations (t : Text) : ∃ v, t = v ++ (negations t).2 ∧
    ∀ {c : Condition} {ms : List Mark} {u : Text}, Derives .unary c ms → Spells ms u →
      ∃ ns, Derives .unary (negate (negations t).1 c) ns ∧ Spells ns (v ++ u) := by
  have hblank : ∀ (d : Char) (t : Text), (d = ' ' ∨ d = '\t') → negations (d :: t) = negations t →
      (∃ v, t = v ++ (negations t).2 ∧ ∀ {c : Condition} {ms : List Mark} {u : Text}, Derives .unary c ms →
        Spells ms u → ∃ ns, Derives .unary (negate (negations t).1 c) ns ∧ Spells ns (v ++ u)) →
      ∃ v, d :: t = v ++ (negations (d :: t)).2 ∧ ∀ {c : Condition} {ms : List Mark} {u : Text}, Derives .unary c ms →
        Spells ms u → ∃ ns, Derives .unary (negate (negations (d :: t)).1 c) ns ∧ Spells ns (v ++ u) := by
    rintro d t hd heq ⟨v, ht, hv⟩
    rw [heq]
    refine ⟨d :: v, congrArg (d :: ·) ht, fun hderives hu => ?_⟩
    obtain ⟨ns, hns, hspells⟩ := hv hderives hu
    exact ⟨ns, hns, hspells.blanks (b := [d]) (by simpa [Blanks] using hd) hns.ne_nil⟩
  fun_induction negations t with
  | case1 => exact ⟨[], rfl, fun hderives hu => ⟨_, hderives, hu⟩⟩
  | case2 t ih => exact hblank ' ' t (.inl rfl) rfl ih
  | case3 t ih => exact hblank '\t' t (.inr rfl) rfl ih
  | case4 t => exact ⟨[], rfl, fun hderives hu => ⟨_, hderives, hu⟩⟩
  | case5 t hne ih =>
    obtain ⟨v, ht, hv⟩ := ih
    refine ⟨'!' :: v, congrArg ('!' :: ·) ht, fun hderives hu => ?_⟩
    obtain ⟨ns, hns, hspells⟩ := hv hderives hu
    exact ⟨.bang :: ns, .negation hns, .cons [] .nil hspells⟩
  | case6 c t => exact ⟨[], rfl, fun hderives hu => ⟨_, hderives, hu⟩⟩

theorem sound_unary (hinner : Reader.Sound inner .or) : Reader.Sound (unary inner) .unary := by
  intro t r c h
  obtain ⟨⟨c', r'⟩, hread, heq⟩ := Option.map_eq_some_iff.1 h
  cases heq
  obtain ⟨ms, u, hrest, hderives, hu⟩ := sound_primary hinner hread
  obtain ⟨v, ht, hv⟩ := exists_negations t
  obtain ⟨ns, hns, hspells⟩ := hv (.tighter (by decide) hderives) hu
  refine ⟨ns, v ++ u, ?_, hns, hspells⟩
  rw [List.append_assoc, ← hrest]
  exact ht

theorem sound_readerAt (hj : l.Joins) (h : Reader.Sound (readerAt inner l.tighter) l.tighter) :
    Reader.Sound (readerAt inner l) l := by
  rw [hj.reader_eq]
  refine sound_chain ?_ h
  rintro rfl
  exact IsRead.not_joins_primary hj

theorem sound_formula (n : Nat) : Reader.Sound (formula n) .or := by
  induction n with
  | zero => nofun
  | succ n ih =>
    have hequality : Reader.Sound (readerAt (formula n) .equality) .equality := sound_readerAt ⟨.eq, rfl⟩ (sound_unary ih)
    have hand : Reader.Sound (readerAt (formula n) .and) .and := sound_readerAt ⟨.and, rfl⟩ hequality
    exact sound_readerAt ⟨.or, rfl⟩ hand

end Sound

/-- **The reader and the grammar agree.** A text is read as a formula just if it is a sentence for the formula. -/
theorem parse?_eq_some_iff {t : Text} {c : Condition} : parse? t = some c ↔ Sentence c t := by
  constructor
  · intro h
    rw [parse?] at h
    split at h
    · next c' r hread =>
      split_ifs at h with hblank
      cases h
      obtain ⟨ms, u, rfl, hderives, hu⟩ := sound_formula _ hread
      obtain ⟨b, hb, hr⟩ := exists_blanks r
      rw [hblank, List.append_nil] at hr
      exact ⟨ms, u, r, hderives, hu, hr ▸ hb, rfl⟩
    · cases h
  · rintro ⟨ms, u, b, hderives, hu, hb, rfl⟩
    have hread : formula ((u ++ b).length + 1) (u ++ b) = some (c, b) :=
      (isRead_of_derives hderives).whole hu (by simp) (stops_blanks hb)
    rw [parse?, hread]
    exact if_pos hb.skip_eq

end Condition

namespace DirectiveLine

open Condition

/-- **The condition of a line.** It is not reported just if the text behind the name and in front of any comment is a
sentence, and then it has the value of the formula, in which a symbol is true if it is defined. Otherwise there is one
report, and the condition is false. -/
theorem condition_iff_sentence (line : Text) (s : DirectiveState) :
    ((condition line s).2 = [] ↔ ∃ c, Sentence c (withoutComment (rest line))) ∧
      (∀ c, Sentence c (withoutComment (rest line)) → condition line s = (c.eval s.isDefined, [])) ∧
      ((¬ ∃ c, Sentence c (withoutComment (rest line))) →
        ∃ d, condition line s = (false, [d]) ∧ d.code = .badCondition ∧ d.code.label = "E0503") := by
  have hsentence : ∀ c, Sentence c (withoutComment (rest line)) → condition line s = (c.eval s.isDefined, []) := by
    intro c hc
    rw [condition]
    simp only [parse?_eq_some_iff.2 hc]
  have hnone : (¬ ∃ c, Sentence c (withoutComment (rest line))) →
      ∃ d, condition line s = (false, [d]) ∧ d.code = .badCondition ∧ d.code.label = "E0503" := by
    intro h
    cases hparse : parse? (withoutComment (rest line)) with
    | none =>
      refine ⟨.ofCode .badCondition (nameEnd line) (Text.width (withoutComment (rest line)).trimEnd) [], ?_, rfl, rfl⟩
      rw [condition]
      simp only [hparse]
    | some c => exact absurd ⟨c, parse?_eq_some_iff.1 hparse⟩ h
  refine ⟨⟨fun h => ?_, fun ⟨c, hc⟩ => by rw [hsentence c hc]⟩, hsentence, hnone⟩
  by_contra hne
  obtain ⟨d, hd, -⟩ := hnone hne
  rw [hd] at h
  cases h

end DirectiveLine

end IncrementalSyntax

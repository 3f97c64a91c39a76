import IncrementalSyntax.Proofs.Token.Ahead

/-!
# How far trivia looks

Trivia is read piece by piece, and each piece ends in sight of one more character. Leading trivia ends in
front of a token and trailing trivia behind one, so both depend on two characters more than they take. A
line that is left out, or that is a directive, is taken with all of its text.

## Main definitions

* `Leading.withRest`, `Trailing.withRest`: the same trivia in front of another text
* `Trailing.Plain`: a text that begins with no trivia

## Main results

* `Leading.read_local`: leading trivia in front of a token
* `Trailing.run_local`: trailing trivia without a complaint
-/

namespace IncrementalSyntax

/-! ## Leading trivia -/

/-- A closed block comment: its text without the first two characters determines it. -/
theorem Comment.ofBody_of_closed {t : Text} (h : (Comment.ofBody t).closed = true) :
    ∃ body : Text, t = body ++ (Comment.ofBody t).rest ∧
      (Comment.ofBody t).text = '/' :: '*' :: body ∧ body.getLast? = some '/' ∧
      ∀ y, Comment.ofBody (body ++ y) = ⟨'/' :: '*' :: body, y, true⟩ := by
  unfold Comment.ofBody at h ⊢
  split at h
  · next body rest hthrough =>
    refine ⟨body, Text.throughCommentEnd?_append hthrough, rfl,
      Text.getLast?_throughCommentEnd? hthrough, fun y => ?_⟩
    rw [Text.throughCommentEnd?_local hthrough y]
  · cases h

/-- A comment that ends before the text does is closed. -/
theorem Comment.ofBody_local {t y u : Text} (ht : '/' :: '*' :: t = u ++ y)
    (hrest : (Comment.ofBody t).rest = y) (hy : y ≠ []) (y' : Text) :
    ∃ v, u = '/' :: '*' :: v ∧ (Comment.ofBody t).text = u ∧ (Comment.ofBody t).closed = true ∧
      Comment.ofBody (v ++ y') = ⟨u, y', true⟩ := by
  have hclosed : (Comment.ofBody t).closed = true := by
    unfold Comment.ofBody at hrest ⊢
    split at hrest
    · rfl
    · exact absurd hrest.symm hy
  obtain ⟨body, hbody, htext, -, hlocal⟩ := Comment.ofBody_of_closed hclosed
  rw [hrest] at hbody
  obtain rfl : '/' :: '*' :: body = u := by
    rw [hbody] at ht
    exact List.append_cancel_right ht
  exact ⟨body, rfl, htext, hclosed, hlocal y'⟩

namespace Leading

/-- The same trivia in front of another text. -/
def withRest (l : Leading) (rest : Text) : Leading := { l with rest := rest }

/-- Where text is left out, a line that is not is a conditional directive, perhaps behind blanks. -/
theorem exists_step_of_conditional {l : Leading} (hact : l.state.isActive = false)
    (hd : l.isDisabled = false) :
    (∃ c t, l.rest = c :: t ∧ isBlankInLine c = true) ∨
      ∃ t, l.rest = '#' :: t ∧ l.lineStart = true := by
  simp only [isDisabled, hact, Bool.not_false, Bool.true_and, Bool.not_eq_false',
    Bool.and_eq_true, DirectiveLine.isConditional] at hd
  obtain ⟨hstart, hhash, -⟩ := hd
  cases hrest : l.rest with
  | nil => simp [hrest, Text.line] at hhash
  | cons c t =>
    by_cases hblank : isBlankInLine c = true
    · exact .inl ⟨c, t, rfl, hblank⟩
    · have hbreak : Text.isLineBreak c = false := by
        by_contra hbreak
        rw [Bool.not_eq_false] at hbreak
        simp [hrest, Text.line, hbreak] at hhash
      obtain rfl : c = '#' := by simpa [hrest, Text.line, hbreak, hblank] using hhash
      exact .inr ⟨t, rfl, hstart⟩

/-- Text that is left out goes on to a conditional directive, so leading trivia cannot end in it. -/
theorem isActive_of_step?_eq_none {l : Leading} (h : l.step? = none) (hne : l.rest ≠ []) :
    l.state.isActive = true := by
  by_contra hact
  rw [Bool.not_eq_true] at hact
  have hno : ∀ l', ¬ Step l l' := fun l' hs => by simp [hs.step?] at h
  by_cases hd : l.isDisabled = true
  · exact hno _ (.disable hne hd)
  · rw [Bool.not_eq_true] at hd
    rcases exists_step_of_conditional hact hd with ⟨c, t, hrest, hc⟩ | ⟨t, hrest, hstart⟩
    · exact hno _ (.blank hd hrest hc)
    · exact hno _ (.directive hd hrest hstart)

theorem run_of_step {l l' : Leading} (h : Step l l') (fuel : Nat) : run (fuel + 1) l = run fuel l' := by
  rw [run, h.step?]

theorem run_of_step?_eq_none {l : Leading} (h : l.step? = none) (fuel : Nat) : run fuel l = l := by
  cases fuel with
  | zero => rfl
  | succ fuel => rw [run, h]

/-- Leading trivia takes a text off the front of the rest. -/
theorem exists_append_run (fuel : Nat) (l : Leading) : ∃ w, l.rest = w ++ (run fuel l).rest := by
  induction fuel generalizing l with
  | zero => exact ⟨[], rfl⟩
  | succ fuel ih =>
    unfold run
    split
    · next l' h =>
      obtain ⟨u, hu⟩ := exists_moves h
      obtain ⟨w, hw⟩ := ih l'
      exact ⟨u ++ w, by rw [hu.rest_eq, hw, List.append_assoc]⟩
    · exact ⟨[], rfl⟩

/-- Trivia that begins where text is left out takes the whole line at least. -/
theorem exists_fullLine_append_run {fuel : Nat} {l : Leading} (hact : l.state.isActive = false)
    (hend : (run fuel l).step? = none) (hne : (run fuel l).rest ≠ []) :
    ∃ w, l.rest = l.rest.fullLine ++ w ++ (run fuel l).rest := by
  induction fuel generalizing l with
  | zero =>
    have := isActive_of_step?_eq_none hend hne
    simp [run, hact] at this
  | succ fuel ih =>
    have hline : ∀ {l'}, Step l l' → l.rest = l.rest.fullLine ++ l'.rest →
        ∃ w, l.rest = l.rest.fullLine ++ w ++ (run (fuel + 1) l).rest := by
      intro l' hs hl'
      obtain ⟨w, hw⟩ := exists_append_run fuel l'
      exact ⟨w, by rw [run_of_step hs, List.append_assoc, ← hw, ← hl']⟩
    have hrest : l.rest ≠ [] := by
      intro h0
      obtain ⟨w, hw⟩ := exists_append_run (fuel + 1) l
      exact hne (List.append_eq_nil_iff.1 (hw.symm.trans h0)).2
    by_cases hd : l.isDisabled = true
    · exact hline (.disable hrest hd) (Text.fullLine_append_drop _).symm
    · rw [Bool.not_eq_true] at hd
      rcases exists_step_of_conditional hact hd with ⟨c, t, hrest, hc⟩ | ⟨t, hrest, hstart⟩
      · have hs := Step.blank hd hrest hc
        rw [run_of_step hs] at hend hne ⊢
        obtain ⟨w, hw⟩ := ih (l := l.push _ _ _ _) hact hend hne
        refine ⟨w, ?_⟩
        have hblank : ∀ d ∈ c :: t.takeWhile isBlankInLine, Text.isLineBreak d = false := by
          intro d hd
          rcases List.mem_cons.1 hd with rfl | hd
          · exact not_isLineBreak_of_isBlankInLine hc
          · exact not_isLineBreak_of_isBlankInLine (List.mem_takeWhile_imp hd)
        have hsplit : l.rest = (c :: t.takeWhile isBlankInLine) ++ t.dropWhile isBlankInLine := by
          rw [hrest, List.cons_append, List.takeWhile_append_dropWhile]
        rw [hsplit, Text.fullLine_append_of_forall hblank, List.append_assoc, List.append_assoc]
        congr 1
        simpa [push] using hw
      · exact hline (.directive hd hrest hstart) (Text.fullLine_append_drop _).symm

/-- Whether a line is left out depends on the line only, and where text is compiled on nothing. -/
theorem isDisabled_withRest {l : Leading} {rest : Text}
    (h : l.state.isActive = true ∨ Text.line rest = Text.line l.rest) :
    (l.withRest rest).isDisabled = l.isDisabled := by
  rcases h with h | h <;> simp [isDisabled, withRest, h]

/-- A step is the same in front of another text if what comes behind it begins with the same
character. -/
theorem Step.local {l l' : Leading} {w z : Text} (h : Step l l') (hw : l.rest = w ++ l'.rest)
    (hne : l'.rest ≠ []) (hy : l'.rest.head? = z.head?)
    (hline : l.state.isActive = true ∨ Text.line (w ++ z) = Text.line l.rest) :
    Step (l.withRest (w ++ z)) (l'.withRest z) := by
  have hdis := isDisabled_withRest hline
  have hdrop : ∀ v : Text, (v ++ z).drop v.length = z := fun v => List.drop_left
  -- what a step takes is determined by what it leaves
  have htaken : ∀ {v s : Text}, v ++ s = l.rest → s = l'.rest → v = w := by
    rintro v s hv rfl
    exact List.append_cancel_right (hv.trans hw)
  cases h with
  | disable hne' hd =>
    have hf := htaken (Text.fullLine_append_drop _) rfl
    have hf' : Text.fullLine (w ++ z) = w := Text.fullLine_local (by rw [← hw, hf]) hy
    have hstep : l.disable.withRest z = (l.withRest (w ++ z)).disable := by
      simp only [Leading.disable, withRest, hf, hf', hdrop]
    rw [hstep]
    refine .disable ?_ (by rw [hdis, hd])
    have hwne : w ≠ [] := hf ▸ Text.fullLine_ne_nil hne'
    simp [withRest, hwne]
  | @blank c t hd hrest hc =>
    have hv := htaken (v := c :: t.takeWhile isBlankInLine) (s := t.dropWhile isBlankInLine)
      (by rw [List.cons_append, List.takeWhile_append_dropWhile, hrest]) rfl
    obtain ⟨htake, hdw⟩ := Text.takeWhile_local (p := isBlankInLine)
      (u := t.takeWhile isBlankInLine) (y := t.dropWhile isBlankInLine) (z := z)
      (by rw [List.takeWhile_append_dropWhile]) hy
    subst hv
    have hs := Step.blank (l := l.withRest (c :: (t.takeWhile isBlankInLine ++ z)))
      (by rw [← List.cons_append, hdis, hd]) rfl hc
    rw [htake, hdw] at hs
    exact hs
  | @endOfLine c t hd hrest hc =>
    have hv := htaken (Text.terminator_append_drop _) rfl
    have hwne : w ≠ [] := by
      rw [← hv, hrest]
      exact Text.terminator_ne_nil hc
    have hv' : Text.terminator (w ++ z) = w := Text.terminator_local (by rw [← hw, hv]) hwne hy
    obtain ⟨d, u, rfl⟩ := List.exists_cons_of_ne_nil hwne
    obtain rfl : c = d := by
      rw [hw] at hrest
      exact (List.cons.inj hrest).1.symm
    have hs := Step.endOfLine (l := l.withRest (c :: u ++ z)) (by rw [hdis, hd]) rfl hc
    simp only [withRest, hv', hdrop] at hs
    simpa only [withRest, push, hv] using hs
  | @lineComment t hd hrest =>
    have hv := htaken (Text.line_append_drop _) rfl
    have hv' : Text.line (w ++ z) = w :=
      (Text.takeWhile_local (y := l.rest.drop (Text.line l.rest).length)
        (by rw [← hv, Text.line_append_drop]; rfl) hy).1
    obtain ⟨u, rfl⟩ : ∃ u, w = '/' :: '/' :: u := by
      rw [← hv, hrest]
      simp [Text.line, Text.isLineBreak]
    have hs := Step.lineComment (l := l.withRest ('/' :: '/' :: u ++ z)) (by rw [hdis, hd]) rfl
    simp only [withRest, hv', hdrop] at hs
    simpa only [withRest, push, hv] using hs
  | @blockComment t hd hrest =>
    obtain ⟨v, rfl, htext, hclosed, hc'⟩ := Comment.ofBody_local (hrest.symm.trans hw) rfl hne z
    have hs := Step.blockComment (l := l.withRest ('/' :: '*' :: v ++ z)) (t := v ++ z)
      (by rw [hdis, hd]) rfl
    simp only [comment, Comment.complain, htext, hclosed, hc', if_true] at hs ⊢
    exact hs
  | @directive t hd hrest hstart =>
    have hf := htaken (Text.fullLine_append_drop _) rfl
    have hf' : Text.fullLine (w ++ z) = w := Text.fullLine_local (by rw [← hw, hf]) hy
    have hl' : Text.line (w ++ z) = Text.line l.rest := by
      rw [hw]
      exact Text.line_local (by rw [← hw, hf]) hy
    obtain ⟨u, rfl⟩ : ∃ u, w = '#' :: u := by
      rw [← hf, hrest, Text.fullLine_cons_of_not_break (by decide)]
      exact ⟨_, rfl⟩
    have hs := Step.directive (l := l.withRest ('#' :: u ++ z)) (by rw [hdis, hd]) rfl hstart
    simp only [withRest, Leading.directive, hf, hf', hl', hdrop] at hs ⊢
    exact hs

/-- Where leading trivia ends, it ends in front of every text that begins alike. -/
theorem step?_eq_none_local {l : Leading} {z' : Text} (h : l.step? = none) (hne : l.rest ≠ [])
    (hz : Text.Ahead l.rest z') : (l.withRest z').step? = none := by
  have hact := isActive_of_step?_eq_none h hne
  have hd : l.isDisabled = false := by simp [isDisabled, hact]
  have hno : ∀ l', ¬ Step l l' := fun l' hs => by simp [hs.step?] at h
  obtain ⟨c, t, hrest⟩ := List.exists_cons_of_ne_nil hne
  have hhead := hz.head?
  rw [hrest] at hz hhead
  cases hs : (l.withRest z').step? with
  | none => rfl
  | some l' =>
    exfalso
    cases Step.of_step? hs with
    | disable _ hd' => simp [isDisabled, withRest, hact] at hd'
    | blank _ hz' hc =>
      obtain rfl : z' = _ := hz'
      obtain rfl : c = _ := Option.some.inj hhead
      exact hno _ (.blank hd hrest hc)
    | endOfLine _ hz' hc =>
      obtain rfl : z' = _ := hz'
      obtain rfl : c = _ := Option.some.inj hhead
      exact hno _ (.endOfLine hd hrest hc)
    | lineComment _ hz' =>
      obtain rfl : z' = _ := hz'
      obtain rfl : c = _ := Option.some.inj hhead
      obtain ⟨t', rfl⟩ := List.head?_eq_some_iff.1 (hz.second (by decide))
      exact hno _ (.lineComment hd hrest)
    | blockComment _ hz' =>
      obtain rfl : z' = _ := hz'
      obtain rfl : c = _ := Option.some.inj hhead
      obtain ⟨t', rfl⟩ := List.head?_eq_some_iff.1 (hz.second (by decide))
      exact hno _ (.blockComment hd hrest)
    | directive _ hz' hstart =>
      obtain rfl : z' = _ := hz'
      obtain rfl : c = _ := Option.some.inj hhead
      exact hno _ (.directive hd hrest hstart)

/-- Leading trivia that ends in front of a token depends on its own text, and on what the token begins
with. -/
theorem run_local {fuel fuel' : Nat} {l : Leading} {w z z' : Text} (hend : (run fuel l).step? = none)
    (hz : (run fuel l).rest = z) (hne : z ≠ []) (hw : l.rest = w ++ z) (hahead : Text.Ahead z z')
    (hfuel : (w ++ z').length ≤ fuel') :
    run fuel' (l.withRest (w ++ z')) = (run fuel l).withRest z' := by
  induction fuel generalizing fuel' l w with
  | zero =>
    obtain rfl : l.rest = z := hz
    obtain rfl : w = [] := by simpa using hw
    exact run_of_step?_eq_none (step?_eq_none_local hend hne hahead) fuel'
  | succ fuel ih =>
    cases hs : l.step? with
    | none =>
      rw [run_of_step?_eq_none hs] at hz ⊢
      obtain rfl : w = [] := by simpa [hz] using hw
      subst hz
      exact run_of_step?_eq_none (step?_eq_none_local hs hne hahead) fuel'
    | some l' =>
      have hstep := Step.of_step? hs
      obtain ⟨u, hu⟩ := hstep.exists_moves
      -- a line that is left out ends in front of the token, so it is the same line
      have hline : l.state.isActive = true ∨ Text.line (w ++ z') = Text.line l.rest := by
        by_cases hact : l.state.isActive = true
        · exact .inl hact
        · obtain ⟨v, hv⟩ := exists_fullLine_append_run (by simpa using hact) hend (by rwa [hz])
          rw [hz] at hv
          obtain rfl : l.rest.fullLine ++ v = w := List.append_cancel_right (hv.symm.trans hw)
          rw [List.append_assoc] at hv
          right
          conv_rhs => rw [hv]
          rw [List.append_assoc]
          refine Text.line_local (by rw [← hv]) (hahead.append v).head?
      rw [run_of_step hstep] at hend hz ⊢
      obtain ⟨w', hw'⟩ := exists_append_run fuel l'
      rw [hz] at hw'
      obtain rfl : u ++ w' = w := by
        have := hu.rest_eq
        rw [hw', ← List.append_assoc, hw] at this
        exact (List.append_cancel_right this).symm
      have hstep' := hstep.local (z := w' ++ z') hu.rest_eq (by rw [hw']; simp [hne])
        (by rw [hw']; exact (hahead.append w').head?) (by rwa [← List.append_assoc])
      have hpos := List.length_pos_iff.2 hu.ne_nil
      obtain ⟨fuel', rfl⟩ : ∃ f, fuel' = f + 1 := ⟨fuel' - 1, by simp at hfuel; omega⟩
      rw [List.append_assoc, run_of_step hstep']
      exact ih hend hz hw' (by simp at hfuel ⊢; omega)

/-- Leading trivia in front of a token, read again in front of a text that begins like the token. -/
theorem read_local {state : DirectiveState} {lineStart : Bool} {w z z' : Text}
    (hz : (read state lineStart (w ++ z)).rest = z) (hne : z ≠ []) (hahead : Text.Ahead z z') :
    read state lineStart (w ++ z') = (read state lineStart (w ++ z)).withRest z' :=
  run_local (l := ⟨state, lineStart, w ++ z, [], [], []⟩) (step?_run le_rfl) hz hne rfl hahead le_rfl

end Leading

/-! ## Trailing trivia -/

namespace Trailing

/-- The same trivia in front of another text. -/
def withRest (r : Trailing) (rest : Text) : Trailing := { r with rest := rest }

@[simp] theorem rest_cons (kind : TriviaKind) (text : Text) (ds : List Diagnostic) (r : Trailing) :
    (r.cons kind text ds).rest = r.rest := rfl

@[simp] theorem diagnostics_cons (kind : TriviaKind) (text : Text) (ds : List Diagnostic)
    (r : Trailing) : (r.cons kind text ds).diagnostics = ds ++ r.diagnostics := rfl

@[simp] theorem cons_withRest (kind : TriviaKind) (text : Text) (ds : List Diagnostic) (r : Trailing)
    (rest : Text) : (r.withRest rest).cons kind text ds = (r.cons kind text ds).withRest rest := rfl

variable {fuel offset : Nat}

theorem run_blank {c : Char} {t : Text} (hc : isBlankInLine c = true) :
    run (fuel + 1) offset (c :: t) =
      (run fuel (offset + Text.width (c :: t.takeWhile isBlankInLine))
        (t.dropWhile isBlankInLine)).cons .whitespace (c :: t.takeWhile isBlankInLine) [] := by
  simp [run, hc]

theorem run_lineComment {t : Text} :
    run (fuel + 1) offset ('/' :: '/' :: t) =
      (run fuel (offset + Text.width (Text.line ('/' :: '/' :: t)))
        (('/' :: '/' :: t).drop (Text.line ('/' :: '/' :: t)).length)).cons .singleLineComment
        (Text.line ('/' :: '/' :: t)) [] := by
  have : isBlankInLine '/' = false := by decide
  simp [run, this]

theorem run_blockComment {t : Text} :
    run (fuel + 1) offset ('/' :: '*' :: t) =
      (run fuel (offset + Text.width (Comment.ofBody t).text) (Comment.ofBody t).rest).cons
        .multiLineComment (Comment.ofBody t).text ((Comment.ofBody t).complain offset) := by
  have : isBlankInLine '/' = false := by decide
  simp [run, this]

theorem run_endOfLine {c : Char} {t : Text} (hc : Text.isLineBreak c = true) :
    run (fuel + 1) offset (c :: t) =
      ⟨[⟨.trivia .endOfLine, Text.terminator (c :: t)⟩], [],
        (c :: t).drop (Text.terminator (c :: t)).length⟩ := by
  have hslash : c ≠ '/' := by
    rintro rfl
    simp [Text.isLineBreak] at hc
  simp [run, hc, not_isBlankInLine_of_isLineBreak hc, hslash]

/-- **Plain.** A text that begins with no trivia. -/
def Plain (t : Text) : Prop :=
  ∀ c t', t = c :: t' → isBlankInLine c = false ∧ Text.isLineBreak c = false ∧
    (c = '/' → t'.head? ≠ some '/' ∧ t'.head? ≠ some '*')

theorem run_plain {t : Text} (h : Plain t) : run fuel offset t = ⟨[], [], t⟩ := by
  cases fuel with
  | zero => rfl
  | succ fuel =>
    cases t with
    | nil => rfl
    | cons c t =>
      obtain ⟨hblank, hbreak, hslash⟩ := h c t rfl
      by_cases hc : c = '/'
      · simp [run, hblank, hbreak, hslash hc]
      · simp [run, hblank, hbreak, hc]

theorem Plain.congr {t t' : Text} (h : Plain t) (ht : t.take 2 = t'.take 2) : Plain t' := by
  rintro c u rfl
  cases t with
  | nil => simp at ht
  | cons d v =>
    obtain rfl : d = c := by simpa using congrArg List.head? ht
    obtain ⟨hblank, hbreak, hslash⟩ := h d v rfl
    refine ⟨hblank, hbreak, fun hc => ?_⟩
    have : v.head? = u.head? := Text.Ahead.second (.inl ht) (by rintro rfl; simp at hc)
    exact this ▸ hslash hc

/-- What a text can begin with. -/
theorem front_cases (t : Text) :
    Plain t ∨ (∃ c t', t = c :: t' ∧ isBlankInLine c = true) ∨ (∃ t', t = '/' :: '/' :: t') ∨
      (∃ t', t = '/' :: '*' :: t') ∨ ∃ c t', t = c :: t' ∧ Text.isLineBreak c = true := by
  cases t with
  | nil => exact .inl fun c t' h => by cases h
  | cons c t =>
    by_cases hblank : isBlankInLine c = true
    · exact .inr (.inl ⟨c, t, rfl, hblank⟩)
    by_cases hbreak : Text.isLineBreak c = true
    · exact .inr (.inr (.inr (.inr ⟨c, t, rfl, hbreak⟩)))
    by_cases hline : c = '/' ∧ t.head? = some '/'
    · obtain ⟨rfl, t', rfl⟩ := And.imp_right List.head?_eq_some_iff.1 hline
      exact .inr (.inr (.inl ⟨t', rfl⟩))
    by_cases hblock : c = '/' ∧ t.head? = some '*'
    · obtain ⟨rfl, t', rfl⟩ := And.imp_right List.head?_eq_some_iff.1 hblock
      exact .inr (.inr (.inr (.inl ⟨t', rfl⟩)))
    left
    rintro d t' h
    obtain ⟨rfl, rfl⟩ := List.cons.inj h
    simp_all

/-- The rest of a text after some trivia contains the rest after all of it. -/
theorem exists_append_rest {fuel offset : Nat} {s u v r : Text} (h : u ++ r = v ++ s)
    (hr : (run fuel offset s).rest = r) : ∃ u', u = v ++ u' ∧ s = u' ++ r := by
  have := run_append fuel offset s
  rw [hr] at this
  rw [← this, ← List.append_assoc] at h
  exact ⟨_, List.append_cancel_right h, this.symm⟩

/-- Trailing trivia without a complaint depends on its own text and on two more characters, or on none
more if it ends with a line feed. -/
theorem run_local {fuel fuel' offset : Nat} {u r r' : Text}
    (hdiag : (run fuel offset (u ++ r)).diagnostics = [])
    (hrest : (run fuel offset (u ++ r)).rest = r) (hb : Text.Behind u r r')
    (hfuel : (u ++ r).length ≤ fuel) (hfuel' : (u ++ r').length ≤ fuel') :
    run fuel' offset (u ++ r') = (run fuel offset (u ++ r)).withRest r' := by
  induction fuel generalizing fuel' offset u with
  | zero =>
    obtain ⟨rfl, rfl⟩ : u = [] ∧ r = [] := by simpa using hfuel
    obtain rfl : r' = [] := by simpa [Text.Behind] using hb
    have hnil : Plain ([] ++ []) := fun c t' h => by simp at h
    rw [run_plain hnil, run_plain hnil]
    rfl
  | succ fuel ih =>
    -- what is taken first is not all of a line with its terminator, so the rest of it is told apart by
    -- nothing either
    rcases front_cases (u ++ r) with h | ⟨c, t, h, hc⟩ | ⟨t, h⟩ | ⟨t, h⟩ | ⟨c, t, h, hc⟩
    · rw [run_plain h] at hrest ⊢
      obtain rfl : u = [] := by simpa using hrest
      have htake : r.take 2 = r'.take 2 := by simpa [Text.Behind] using hb
      exact run_plain (h.congr htake)
    · rw [h, run_blank hc] at hdiag hrest ⊢
      obtain ⟨u', rfl, hs⟩ := exists_append_rest (v := c :: t.takeWhile isBlankInLine)
        (by rw [h, List.cons_append, List.takeWhile_append_dropWhile]) hrest
      have hb' : Text.Behind u' r r' := hb.tail fun hlast => by
        rcases List.mem_cons.1 (List.mem_of_getLast? hlast) with rfl | hmem
        · exact absurd hc (by decide)
        · exact absurd (List.mem_takeWhile_imp hmem) (by decide)
      obtain ⟨htake, hdrop⟩ := Text.takeWhile_local (p := isBlankInLine)
        (u := t.takeWhile isBlankInLine) (y := u' ++ r) (z := u' ++ r')
        (by rw [← hs, List.takeWhile_append_dropWhile]) hb'.head?
      obtain ⟨fuel', rfl⟩ : ∃ f, fuel' = f + 1 := ⟨fuel' - 1, by simp at hfuel'; omega⟩
      rw [List.append_assoc, List.cons_append, run_blank hc, htake, hdrop]
      rw [hs] at hdiag hrest ⊢
      rw [ih hdiag hrest hb' (by simp at hfuel ⊢; omega) (by simp at hfuel' ⊢; omega)]
      rfl
    · rw [h, run_lineComment] at hdiag hrest ⊢
      obtain ⟨u', rfl, hs⟩ := exists_append_rest (v := Text.line ('/' :: '/' :: t))
        (by rw [h, Text.line_append_drop]) hrest
      have hb' : Text.Behind u' r r' := hb.tail (Text.getLast?_line_ne _)
      obtain ⟨w, hw⟩ : ∃ w, Text.line ('/' :: '/' :: t) = '/' :: '/' :: w := by
        simp [Text.line, Text.isLineBreak]
      have hline : Text.line ('/' :: '/' :: (w ++ (u' ++ r'))) = '/' :: '/' :: w := by
        refine (Text.takeWhile_local (u := '/' :: '/' :: w) (y := u' ++ r) ?_ hb'.head?).1
        rw [← hw, ← hs, Text.line_append_drop]
        rfl
      obtain ⟨fuel', rfl⟩ : ∃ f, fuel' = f + 1 := ⟨fuel' - 1, by simp [hw] at hfuel'; omega⟩
      rw [hs] at hdiag hrest ⊢
      rw [hw] at hdiag hrest hfuel hfuel' ⊢
      rw [List.append_assoc, List.cons_append, List.cons_append, run_lineComment, hline,
        ← List.cons_append, ← List.cons_append, List.drop_left]
      rw [ih hdiag hrest hb' (by simp at hfuel ⊢; omega) (by simp at hfuel' ⊢; omega)]
      rfl
    · rw [h, run_blockComment] at hdiag hrest ⊢
      obtain ⟨hcomplain, hdiag⟩ := List.append_eq_nil_iff.1 hdiag
      have hclosed : (Comment.ofBody t).closed = true := by
        by_contra hopen
        simp [Comment.complain, hopen] at hcomplain
      obtain ⟨body, hbody, htext, hlast, hlocal⟩ := Comment.ofBody_of_closed hclosed
      obtain ⟨u', rfl, hs⟩ := exists_append_rest (v := '/' :: '*' :: body)
        (s := (Comment.ofBody t).rest) (h.trans (congrArg (fun s => '/' :: '*' :: s) hbody)) hrest
      have hb' : Text.Behind u' r r' := hb.tail (by
        have hne : body ≠ [] := by
          rintro rfl
          cases hlast
        rw [List.getLast?_cons_cons, List.getLast?_cons_of_ne_nil hne, hlast]
        decide)
      obtain ⟨fuel', rfl⟩ : ∃ f, fuel' = f + 1 := ⟨fuel' - 1, by simp at hfuel'; omega⟩
      rw [hs] at hdiag hrest ⊢
      rw [List.append_assoc, List.cons_append, List.cons_append, run_blockComment, hlocal, htext]
      rw [htext] at hdiag hrest
      have hcomplain' : Comment.complain ⟨'/' :: '*' :: body, u' ++ r', true⟩ offset = [] := rfl
      simp only [hcomplain, hcomplain']
      rw [ih hdiag hrest hb' (by simp at hfuel ⊢; omega) (by simp at hfuel' ⊢; omega)]
      rfl
    · rw [h, run_endOfLine hc] at hdiag hrest ⊢
      have hterm : Text.terminator (u ++ r) = u := by
        have := Text.terminator_append_drop (u ++ r)
        rw [← h] at hrest
        rw [show (u ++ r).drop _ = r from hrest] at this
        exact List.append_cancel_right this
      have hu : u ≠ [] := by
        rw [← hterm, h]
        exact Text.terminator_ne_nil hc
      obtain ⟨d, u, rfl⟩ := List.exists_cons_of_ne_nil hu
      obtain rfl : d = c := (List.cons.inj h).1
      obtain ⟨fuel', rfl⟩ : ∃ f, fuel' = f + 1 := ⟨fuel' - 1, by simp at hfuel'; omega⟩
      rw [h] at hterm
      have hterm' : Text.terminator (d :: (u ++ r')) = d :: u :=
        Text.terminator_behind (w := d :: u) (by rw [h, hterm]) hu hb
      rw [List.cons_append, run_endOfLine hc, hterm, hterm', ← List.cons_append, List.drop_left]
      rfl

end Trailing

end IncrementalSyntax

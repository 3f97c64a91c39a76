import IncrementalSyntax.Proofs.Directive.Lines
import IncrementalSyntax.Proofs.Directive.Sentences
import IncrementalSyntax.Token.Trivia

/-!
# Groups of branches

A conditional group is an `#if`, any number of `#elif` and perhaps an `#else`, each with a body, up to its `#endif`.
A body may hold further groups and regions, as long as they are closed again inside it. While text is not compiled,
only the lines of groups take effect.

Whatever stands in the bodies, the frames behind a group are those in front of it. At most one of the bodies is
compiled, that of the first branch whose condition holds in the state that is reached there.

## Main definitions

* `DirectiveState.meet`, `DirectiveState.through`: what a line makes of a state where text may be left out
* `Runs`, `Balanced`: lines that touch no frame below, and leave none open
* `Branch`, `Group`: conditional groups
* `Nested`, `Clear`: lines in which all groups and regions are closed, and lines that do not end in a group
* `Branch.Holds`, `Branch.Taken`: the condition of a branch holds, or that of one of some branches

## Main results

* `Leading.step?_directive`: the scanner does with a line what `meet` does
* `Group.exists_reached_opened`: the frame of a group tells whether one of the branches so far holds
* `Nested.balanced`: lines in which all is closed leave the frames as they are
* `Group.compiles`: which branch of a group is compiled
-/

namespace IncrementalSyntax

/-! ## Lines where text may be left out -/

namespace DirectiveState

/-- What a line makes of a state. Where text is not compiled, only the lines of groups take effect. -/
def meet (s : DirectiveState) (line : Text) : DirectiveState :=
  if s.isActive || DirectiveLine.isConditional line then (DirectiveLine.process line s).state else s

/-- The state behind some lines that are met one after the other. -/
def through (s : DirectiveState) (lines : List Text) : DirectiveState := lines.foldl meet s

@[simp] theorem through_nil (s : DirectiveState) : s.through [] = s := rfl

@[simp] theorem through_cons (s : DirectiveState) (line : Text) (lines : List Text) :
    s.through (line :: lines) = (s.meet line).through lines := rfl

@[simp] theorem through_append (s : DirectiveState) (lines lines' : List Text) :
    s.through (lines ++ lines') = (s.through lines).through lines' :=
  List.foldl_append

end DirectiveState

/-- The scanner, at the start of a directive line, makes the state what the line makes of it and goes on behind the
line. -/
theorem Leading.step?_directive {l : Leading} (hstart : l.lineStart = true) (hhead : l.rest.head? = some '#') :
    ∃ l', l.step? = some l' ∧ l'.state = l.state.meet l.rest.line ∧ l'.lineStart = true ∧
      l'.rest = l.rest.drop l.rest.fullLine.length := by
  obtain ⟨t, hrest⟩ : ∃ t, l.rest = '#' :: t := by
    cases hl : l.rest with
    | nil => simp [hl] at hhead
    | cons c t =>
      obtain rfl : c = '#' := by simpa [hl] using hhead
      exact ⟨t, rfl⟩
  have hline : l.rest.line.dropWhile isBlankInLine = l.rest.line := by
    rw [hrest]
    rfl
  have hdisabled : l.isDisabled = !(l.state.isActive || DirectiveLine.isConditional l.rest.line) := by
    rw [isDisabled, hline, hstart, Bool.true_and, Bool.not_or]
  by_cases hactive : (l.state.isActive || DirectiveLine.isConditional l.rest.line) = true
  · refine ⟨l.directive, ?_, ?_, rfl, rfl⟩
    · rw [step?, if_neg (by simp [hrest]), if_neg (by simp [hdisabled, hactive])]
      simp only [hrest]
      rw [if_neg (by decide), if_neg (by decide)]
      simp [hstart]
    · rw [DirectiveState.meet, if_pos hactive]
      rfl
  · refine ⟨l.disable, ?_, ?_, rfl, rfl⟩
    · rw [step?, if_neg (by simp [hrest]), if_pos (by simp [hdisabled, hactive])]
    · rw [DirectiveState.meet, if_neg hactive]
      rfl

/-! ## Lines by their words -/

namespace DirectiveLine

variable {word : String} {line : Text} {s : DirectiveState}

/-- A directive line with a certain name. -/
def Names (word : String) (line : Text) : Prop := line.head? = some '#' ∧ name line = word.toList

instance : Decidable (Names word line) := inferInstanceAs (Decidable (_ ∧ _))

/-- The words of the lines that make up groups. -/
def groupWords : List String := ["if", "elif", "else", "endif"]

/-- The words of the lines that open or close frames, or change the innermost one. -/
def frameWords : List String := groupWords ++ ["region", "endregion"]

theorem isConditional_eq : isConditional line =
    (line.head? == some '#' && (groupWords.map String.toList).contains (name line)) := rfl

theorem Names.isConditional (h : Names word line) (hword : word ∈ groupWords) :
    DirectiveLine.isConditional line = true := by
  rw [isConditional_eq, h.1, h.2]
  have hmem : word.toList ∈ groupWords.map String.toList := List.mem_map_of_mem hword
  simpa using hmem

theorem isConditional_of_not_mem (h : name line ∉ groupWords.map String.toList) : isConditional line = false := by
  rw [isConditional_eq, Bool.and_eq_false_iff]
  right
  simpa using h

end DirectiveLine

namespace DirectiveState

open DirectiveLine

variable {s : DirectiveState} {line : Text}

theorem meet_of_names {word : String} (h : Names word line) (hword : word ∈ groupWords) :
    s.meet line = (process line s).state := by
  rw [meet, h.isConditional hword, Bool.or_true, if_pos rfl]

theorem meet_of_active (h : s.isActive = true) : s.meet line = (process line s).state := by
  rw [meet, h, Bool.true_or, if_pos rfl]

theorem meet_of_inactive (h : s.isActive = false) (hname : name line ∉ groupWords.map String.toList) :
    s.meet line = s := by
  rw [meet, h, isConditional_of_not_mem hname]
  rfl

theorem frames_meet_if (h : Names "if" line) :
    (s.meet line).frames = .conditional (condition line s).1 (condition line s).1 false :: s.frames := by
  rw [meet_of_names h (by decide), process_if h.2]
  rfl

theorem frames_meet_elif {a t : Bool} {frames : List Frame} (h : Names "elif" line)
    (hs : s.frames = .conditional a t false :: frames) : (s.meet line).frames =
      .conditional (!t && (condition line s).1) (t || (condition line s).1) false :: frames := by
  rw [meet_of_names h (by decide), process_elif h.2, processElif, hs]
  simp [revise, hs]

theorem frames_meet_else {a t : Bool} {frames : List Frame} (h : Names "else" line)
    (hs : s.frames = .conditional a t false :: frames) :
    (s.meet line).frames = .conditional (!t) true true :: frames := by
  rw [meet_of_names h (by decide), process_else h.2, processElse, hs]
  simp [revise, hs]

theorem frames_meet_endif {a t e : Bool} {frames : List Frame} (h : Names "endif" line)
    (hs : s.frames = .conditional a t e :: frames) : (s.meet line).frames = frames := by
  rw [meet_of_names h (by decide), process_endif h.2, processEndif, hs]
  simp [leave, hs]

/-- A line that is none of those of frames leaves all frames alone, be it compiled or not. -/
theorem frames_meet_of_not_mem (h : name line ∉ frameWords.map String.toList) : (s.meet line).frames = s.frames := by
  rw [meet]
  split_ifs with hmeet
  · have hleads := process_cases line s
    generalize hs' : (process line s).state = s' at hleads
    cases hleads with
    | opened f hopens =>
      rcases hopens with hname | hname <;> exact absurd (hname ▸ by decide) h
    | closed hcloses =>
      rw [closes_iff] at hcloses
      rcases hcloses with ⟨hname, -⟩ | ⟨hname, -⟩ <;> exact absurd (hname ▸ by decide) h
    | revised g hf hstays hname =>
      rcases hname with hname | hname <;> exact absurd (hname ▸ by decide) h
    | defined => rfl
    | undefined => rfl
    | unmoved => rfl
  · rfl

end DirectiveState

/-! ## Lines that touch nothing below -/

/-- **Runs.** Behind the lines certain frames are open, and on the way nothing below a floor is touched. -/
structure Runs (floor : List Frame) (s : DirectiveState) (lines : List Text) (frames : List Frame) : Prop where
  floor_suffix : ∀ u, u <+: lines → floor <:+ (s.through u).frames
  frames_eq : (s.through lines).frames = frames

namespace Runs

variable {floor frames frames' : List Frame} {s : DirectiveState} {u v : List Text}

theorem nil (h : floor <:+ s.frames) : Runs floor s [] s.frames where
  floor_suffix := by
    intro u hu
    rw [List.prefix_nil.1 hu]
    exact h
  frames_eq := rfl

theorem append (hu : Runs floor s u frames) (hv : Runs floor (s.through u) v frames') :
    Runs floor s (u ++ v) frames' where
  floor_suffix := by
    intro w hw
    rcases List.prefix_or_prefix_of_prefix hw (List.prefix_append u v) with h | ⟨w', rfl⟩
    · exact hu.floor_suffix w h
    · rw [DirectiveState.through_append]
      exact hv.floor_suffix w' ((List.prefix_append_right_inj u).1 hw)
  frames_eq := by
    rw [DirectiveState.through_append]
    exact hv.frames_eq

theorem single {line : Text} (hs : floor <:+ s.frames) (hline : (s.meet line).frames = frames)
    (hframes : floor <:+ frames) : Runs floor s [line] frames where
  floor_suffix := by
    intro u hu
    rcases List.prefix_cons_iff.1 hu with rfl | ⟨w, rfl, hw⟩
    · exact hs
    · rw [List.prefix_nil.1 hw]
      show floor <:+ (s.meet line).frames
      rw [hline]
      exact hframes
  frames_eq := hline

theorem mono {floor' : List Frame} (hfloor : floor' <:+ floor) (h : Runs floor s u frames) :
    Runs floor' s u frames where
  floor_suffix := fun w hw => hfloor.trans (h.floor_suffix w hw)
  frames_eq := h.frames_eq

end Runs

/-- Lines that open nothing but what they close again. -/
def Balanced (lines : List Text) : Prop := ∀ s : DirectiveState, Runs s.frames s lines s.frames

/-! ## Branches and groups -/

/-- **Branch.** A line of a group with the lines up to the next one of it. -/
structure Branch where
  opening : Text
  body : List Text

/-- **Group.** The lines from an `#if` to its `#endif`. -/
structure Group where
  first : Branch
  further : List Branch
  last : Option Branch
  closing : Text

def Branch.lines (b : Branch) : List Text := b.opening :: b.body

/-- The lines of several branches. -/
def Branch.linesOf (bs : List Branch) : List Text := bs.flatMap Branch.lines

namespace Group

def branches (g : Group) : List Branch := g.first :: (g.further ++ g.last.toList)

def lines (g : Group) : List Text := Branch.linesOf g.branches ++ [g.closing]

/-- The lines of the group have the names that its branches ask for. -/
structure Named (g : Group) : Prop where
  first : DirectiveLine.Names "if" g.first.opening
  further : ∀ b ∈ g.further, DirectiveLine.Names "elif" b.opening
  last : ∀ b ∈ g.last, DirectiveLine.Names "else" b.opening
  closing : DirectiveLine.Names "endif" g.closing

end Group

/-- **Nested.** Lines in which all groups and regions are closed. -/
inductive Nested : List Text → Prop
  | nil : Nested []
  | line {line : Text} (hhead : line.head? = some '#')
      (hname : DirectiveLine.name line ∉ DirectiveLine.frameWords.map String.toList) : Nested [line]
  | region {opening closing : Text} {body : List Text} (hopening : DirectiveLine.Names "region" opening)
      (hclosing : DirectiveLine.Names "endregion" closing) (hbody : Nested body) : Nested (opening :: (body ++ [closing]))
  | group (g : Group) (hg : g.Named) (hbodies : ∀ b ∈ g.branches, Nested b.body) : Nested g.lines
  | append {u v : List Text} (hu : Nested u) (hv : Nested v) : Nested (u ++ v)

/-- **Clear.** Lines that do not end in a group. Regions may be open. -/
inductive Clear : List Text → Prop
  | nil : Clear []
  | line {line : Text} (hhead : line.head? = some '#')
      (hname : DirectiveLine.name line ∉ DirectiveLine.groupWords.map String.toList) : Clear [line]
  | group (g : Group) (hg : g.Named) (hbodies : ∀ b ∈ g.branches, Nested b.body) : Clear g.lines
  | append {u v : List Text} (hu : Clear u) (hv : Clear v) : Clear (u ++ v)

namespace Branch

open DirectiveLine DirectiveState

variable {s : DirectiveState} {b : Branch} {bs : List Branch}

/-- **Holds.** The condition of the branch is a sentence and true in the state in front of it. The last branch has no
condition. -/
def Holds (b : Branch) (s : DirectiveState) : Prop :=
  Names "else" b.opening ∨ ∃ c, Condition.Sentence c (withoutComment (rest b.opening)) ∧ c.eval s.isDefined = true

/-- One of the branches holds in the state in front of its line. -/
def Taken (s : DirectiveState) (bs : List Branch) : Prop :=
  ∃ u b v, bs = u ++ b :: v ∧ b.Holds (s.through (linesOf u))

@[simp] theorem linesOf_append (bs bs' : List Branch) : linesOf (bs ++ bs') = linesOf bs ++ linesOf bs' :=
  List.flatMap_append

@[simp] theorem linesOf_singleton (b : Branch) : linesOf [b] = b.opening :: b.body := by
  simp [linesOf, lines]

theorem not_taken_nil : ¬ Taken s [] := by
  rintro ⟨u, b, v, h, -⟩
  exact absurd h.symm (by simp)

theorem taken_concat : Taken s (bs ++ [b]) ↔ Taken s bs ∨ b.Holds (s.through (linesOf bs)) := by
  constructor
  · rintro ⟨u, b', v, h, hholds⟩
    rcases List.eq_nil_or_concat v with rfl | ⟨v, d, rfl⟩
    · obtain ⟨rfl, hb⟩ := List.append_inj' h rfl
      cases hb
      exact .inr hholds
    · rw [List.concat_eq_append, ← List.cons_append, ← List.append_assoc] at h
      obtain ⟨rfl, -⟩ := List.append_inj' h rfl
      exact .inl ⟨u, b', v, rfl, hholds⟩
  · rintro (⟨u, b', v, rfl, hholds⟩ | hholds)
    · exact ⟨u, b', v ++ [b], by simp, hholds⟩
    · exact ⟨bs, b, [], rfl, hholds⟩

/-- The value of a condition that can be read is that of its formula. Any other condition is false. -/
theorem condition_eq_true_iff {line : Text} : (condition line s).1 = true ↔
    ∃ c, Condition.Sentence c (withoutComment (rest line)) ∧ c.eval s.isDefined = true := by
  simp only [← Condition.parse?_eq_some_iff]
  rw [condition]
  cases Condition.parse? (withoutComment (rest line)) with
  | none => simp
  | some c => simp

theorem holds_iff {word : String} (h : Names word b.opening) (hword : word.toList ≠ "else".toList) :
    b.Holds s ↔ (condition b.opening s).1 = true := by
  rw [condition_eq_true_iff]
  refine or_iff_right fun helse => hword ?_
  rw [← h.2, helse.2]

/-- **Reached.** What is known between the branches of a group: its frame is the innermost one, and it tells whether
a branch has been taken. -/
structure Reached (s : DirectiveState) (bs : List Branch) (active taken seenElse : Bool) : Prop where
  runs : Runs s.frames s (linesOf bs) (.conditional active taken seenElse :: s.frames)
  taken_iff : taken = true ↔ Taken s bs

/-- **Opened.** What is known behind the line of a branch: the text there is compiled if the branch holds and none
before it did. -/
structure Opened (s : DirectiveState) (bs : List Branch) (b : Branch) (active taken seenElse : Bool) : Prop where
  runs : Runs s.frames s (linesOf bs ++ [b.opening]) (.conditional active taken seenElse :: s.frames)
  active_iff : active = true ↔ b.Holds (s.through (linesOf bs)) ∧ ¬ Taken s bs
  taken_iff : taken = true ↔ Taken s (bs ++ [b])

variable {a t e : Bool}

/-- A line that changes the frame of the group. -/
theorem Reached.runs_line {line : Text} {f : Frame} (h : Reached s bs a t e)
    (hline : ((s.through (linesOf bs)).meet line).frames = f :: s.frames) :
    Runs s.frames s (linesOf bs ++ [line]) (f :: s.frames) := by
  refine h.runs.append (.single ?_ hline (List.suffix_cons _ _))
  rw [h.runs.frames_eq]
  exact List.suffix_cons _ _

theorem opened_if (h : Names "if" b.opening) : ∃ a t, Opened s [] b a t false := by
  refine ⟨_, _, ⟨.single List.suffix_rfl (frames_meet_if h) (List.suffix_cons _ _), ?_, ?_⟩⟩
  · rw [holds_iff h (by decide)]
    exact (and_iff_left not_taken_nil).symm
  · rw [taken_concat, holds_iff h (by decide)]
    exact (or_iff_right not_taken_nil).symm

theorem Reached.opened_elif (h : Reached s bs a t false) (hb : Names "elif" b.opening) :
    ∃ a t, Opened s bs b a t false := by
  refine ⟨_, _, ⟨h.runs_line (frames_meet_elif hb h.runs.frames_eq), ?_, ?_⟩⟩
  · rw [holds_iff hb (by decide), ← h.taken_iff]
    simp [and_comm]
  · rw [taken_concat, holds_iff hb (by decide), ← h.taken_iff]
    simp

theorem Reached.opened_else (h : Reached s bs a t false) (hb : Names "else" b.opening) :
    ∃ a t, Opened s bs b a t true := by
  have hholds : b.Holds (s.through (linesOf bs)) := .inl hb
  refine ⟨_, _, ⟨h.runs_line (frames_meet_else hb h.runs.frames_eq), ?_, ?_⟩⟩
  · rw [← h.taken_iff]
    simp [hholds]
  · rw [taken_concat]
    simp [hholds]

/-- The body of a branch leads to the next one. -/
theorem Opened.reached (h : Opened s bs b a t e) (hbody : Balanced b.body) : Reached s (bs ++ [b]) a t e := by
  refine ⟨?_, h.taken_iff⟩
  have hruns := hbody (s.through (linesOf bs ++ [b.opening]))
  rw [h.runs.frames_eq] at hruns
  have := h.runs.append (hruns.mono (List.suffix_cons _ _))
  simpa using this

/-- Behind the line of a branch text is compiled just if the branch is the first that holds, and text is compiled
around the group. -/
theorem Opened.isActive_iff (h : Opened s bs b a t e) : (s.through (linesOf bs ++ [b.opening])).isActive = true ↔
    s.isActive = true ∧ b.Holds (s.through (linesOf bs)) ∧ ¬ Taken s bs := by
  rw [← h.active_iff, isActive, h.runs.frames_eq, List.all_cons, Bool.and_eq_true, and_comm]
  rfl

end Branch

namespace Group

open DirectiveLine DirectiveState Branch

variable {g : Group} {s : DirectiveState} {before after : List Branch} {b : Branch}

/-- The branches of a group by their places. -/
theorem Named.cases (hg : g.Named) (h : g.branches = before ++ b :: after) :
    (before = [] ∧ Names "if" b.opening) ∨ (before ≠ [] ∧ Names "elif" b.opening) ∨
      (before ≠ [] ∧ after = [] ∧ Names "else" b.opening) := by
  cases before with
  | nil =>
    obtain ⟨rfl, -⟩ := List.cons.inj h
    exact .inl ⟨rfl, hg.first⟩
  | cons d before =>
    have hrest : g.further ++ g.last.toList = before ++ b :: after := (List.cons.inj h).2
    have hmem : b ∈ g.further ++ g.last.toList := by simp [hrest]
    rw [List.mem_append, Option.mem_toList] at hmem
    right
    rcases List.eq_nil_or_concat after with rfl | ⟨after, z, rfl⟩
    · rcases hmem with hmem | hmem
      · exact .inl ⟨List.cons_ne_nil _ _, hg.further b hmem⟩
      · exact .inr ⟨List.cons_ne_nil _ _, rfl, hg.last b hmem⟩
    · left
      refine ⟨List.cons_ne_nil _ _, hg.further b ?_⟩
      -- something stands behind the branch, so it is not the last one
      cases hlast : g.last with
      | none =>
        rw [hlast, Option.toList_none, List.append_nil] at hrest
        simp [hrest]
      | some z' =>
        rw [hlast, Option.toList_some, List.concat_eq_append, ← List.cons_append, ← List.append_assoc] at hrest
        obtain ⟨hfurther, -⟩ := List.append_inj' hrest rfl
        simp [hfurther]

/-- **Between the branches.** The frame of a group is open from its first branch on. Until the last branch it is open
for another one. -/
theorem exists_reached_opened (hg : g.Named) (hbodies : ∀ b ∈ g.branches, Balanced b.body) :
    ∀ before after, g.branches = before ++ after →
      (before ≠ [] → ∃ a t e, Reached s before a t e ∧ (e = true → after = [])) ∧
        ∀ b after', after = b :: after' → ∃ a t e, Opened s before b a t e ∧ (e = true → after' = []) := by
  -- each branch is opened in the frame that those before it leave behind
  have hopened : ∀ before b after, g.branches = before ++ b :: after →
      (before ≠ [] → ∃ a t e, Reached s before a t e ∧ (e = true → b :: after = [])) →
      ∃ a t e, Opened s before b a t e ∧ (e = true → after = []) := by
    intro before b after h hreached
    rcases hg.cases h with ⟨rfl, hb⟩ | ⟨hne, hb⟩ | ⟨hne, hafter, hb⟩
    · obtain ⟨a, t, ho⟩ := opened_if (s := s) hb
      exact ⟨a, t, false, ho, nofun⟩
    · obtain ⟨a, t, e, hr, he⟩ := hreached hne
      cases e with
      | true => cases he rfl
      | false =>
        obtain ⟨a, t, ho⟩ := hr.opened_elif hb
        exact ⟨a, t, false, ho, nofun⟩
    · obtain ⟨a, t, e, hr, he⟩ := hreached hne
      cases e with
      | true => cases he rfl
      | false =>
        obtain ⟨a, t, ho⟩ := hr.opened_else hb
        exact ⟨a, t, true, ho, fun _ => hafter⟩
  intro before
  induction before using List.reverseRecOn with
  | nil =>
    intro after h
    refine ⟨fun hne => absurd rfl hne, ?_⟩
    rintro b after' rfl
    exact hopened [] b after' h fun hne => absurd rfl hne
  | append_singleton before d ih =>
    intro after h
    have h' : g.branches = before ++ d :: after := by rw [h, List.append_assoc, List.singleton_append]
    obtain ⟨a, t, e, ho, he⟩ := (ih _ h').2 d after rfl
    have hreached : Reached s (before ++ [d]) a t e := ho.reached (hbodies d (by simp [h']))
    refine ⟨fun _ => ⟨a, t, e, hreached, he⟩, ?_⟩
    rintro b after' rfl
    exact hopened _ b after' h fun _ => ⟨a, t, e, hreached, he⟩

/-- A group leaves the frames as they were. -/
theorem balanced_lines (hg : g.Named) (hbodies : ∀ b ∈ g.branches, Balanced b.body) : Balanced g.lines := by
  intro s
  obtain ⟨a, t, e, hreached, -⟩ := (exists_reached_opened (s := s) hg hbodies g.branches [] (by simp)).1
    (List.cons_ne_nil _ _)
  refine hreached.runs.append (.single ?_ (frames_meet_endif hg.closing hreached.runs.frames_eq) List.suffix_rfl)
  rw [hreached.runs.frames_eq]
  exact List.suffix_cons _ _

end Group

/-! ## What is compiled -/

open DirectiveLine DirectiveState Branch

theorem balanced_line {line : Text} (h : name line ∉ frameWords.map String.toList) : Balanced [line] :=
  fun _ => .single List.suffix_rfl (frames_meet_of_not_mem h) List.suffix_rfl

/-- A region that is not compiled does not open any frame, nor does its end close one. -/
theorem balanced_region {opening closing : Text} {body : List Text} (hopening : Names "region" opening)
    (hclosing : Names "endregion" closing) (hbody : Balanced body) : Balanced (opening :: (body ++ [closing])) := by
  intro s
  have hlines : opening :: (body ++ [closing]) = [opening] ++ (body ++ [closing]) := rfl
  rw [hlines]
  by_cases hactive : s.isActive = true
  · have hopen : (s.meet opening).frames = .region :: s.frames := by
      rw [meet_of_active hactive, process_region hopening.2]
      rfl
    have hinside := hbody (s.meet opening)
    rw [hopen] at hinside
    have hframes : ((s.meet opening).through body).frames = .region :: s.frames := hinside.frames_eq
    have hclose : (((s.meet opening).through body).meet closing).frames = s.frames := by
      have hactive' : ((s.meet opening).through body).isActive = true := by
        rw [isActive, hframes]
        exact hactive
      rw [meet_of_active hactive', process_endregion hclosing.2, processEndregion, hframes]
      simp [leave, hframes]
    refine Runs.append (.single List.suffix_rfl hopen (List.suffix_cons _ _)) ?_
    refine (hinside.mono (List.suffix_cons _ _)).append (.single ?_ hclose List.suffix_rfl)
    exact hframes ▸ List.suffix_cons _ _
  · have hinactive : s.isActive = false := Bool.eq_false_of_not_eq_true hactive
    have hopen : s.meet opening = s := meet_of_inactive hinactive (by rw [hopening.2]; decide)
    have hframes : (s.through body).frames = s.frames := (hbody s).frames_eq
    have hclose : (s.through body).meet closing = s.through body := by
      refine meet_of_inactive ?_ (by rw [hclosing.2]; decide)
      rw [isActive, hframes]
      exact hinactive
    refine Runs.append (.single List.suffix_rfl (congrArg frames hopen) List.suffix_rfl) ?_
    show Runs s.frames (s.meet opening) (body ++ [closing]) s.frames
    rw [hopen]
    refine (hbody s).append (.single ?_ ?_ List.suffix_rfl)
    · exact hframes ▸ List.suffix_rfl
    · rw [hclose, hframes]

/-- **Nested lines are balanced.** Whatever is compiled of them, they leave all frames as they are. -/
theorem Nested.balanced {lines : List Text} (h : Nested lines) : Balanced lines := by
  induction h with
  | nil => exact fun s => .nil List.suffix_rfl
  | line _ hname => exact balanced_line hname
  | region hopening hclosing _ ih => exact balanced_region hopening hclosing ih
  | group g hg _ ih => exact Group.balanced_lines hg ih
  | @append u v _ _ ihu ihv =>
    intro s
    have hv := ihv (s.through u)
    rw [(ihu s).frames_eq] at hv
    exact (ihu s).append hv

/-- Text stays compiled on the way through nested lines, as long as it is not in a group. -/
theorem Clear.isActive {u : List Text} (h : Clear u) {s : DirectiveState} (hs : s.isActive = true) :
    (s.through u).isActive = true := by
  induction h generalizing s with
  | nil => exact hs
  | @line line hhead hname =>
    show (s.meet line).isActive = true
    rw [meet_of_active hs]
    by_cases hregion : name line = "region".toList
    · rw [process_region hregion]
      exact hs
    · have hleads := process_cases line s
      generalize (process line s).state = s' at hleads
      cases hleads with
      | opened f hopens =>
        rcases hopens with hif | hregion'
        · exact absurd (hif ▸ by decide) hname
        · exact absurd hregion' hregion
      | closed =>
        simp only [DirectiveState.isActive, leave, List.all_eq_true] at hs ⊢
        exact fun f hf => hs f (List.mem_of_mem_tail hf)
      | revised g hf hstays hword =>
        rcases hword with hword | hword <;> exact absurd (hword ▸ by decide) hname
      | defined => exact hs
      | undefined => exact hs
      | unmoved => exact hs
  | group g hg hbodies =>
    have hbalanced : Balanced g.lines := Group.balanced_lines hg fun b hb => (hbodies b hb).balanced
    rw [DirectiveState.isActive, (hbalanced s).frames_eq]
    exact hs
  | append _ _ ihu ihv =>
    rw [through_append]
    exact ihv (ihu hs)

/-- Where text is not compiled, it is not compiled as long as the frames there are open. -/
theorem Runs.isActive_eq_false {floor frames : List Frame} {s : DirectiveState} {lines u : List Text}
    (h : Runs floor s lines frames) (hfloor : floor.all Frame.isActive = false) (hu : u <+: lines) :
    (s.through u).isActive = false := by
  obtain ⟨above, habove⟩ := h.floor_suffix u hu
  rw [isActive, ← habove, List.all_append, hfloor, Bool.and_false]

/-- **Which branch is compiled.** Behind a group the open frames are those in front of it. The text of a branch is
compiled just if text is compiled around the group, the branch holds in the state in front of its line, and none before
it did in the state in front of its own. Then text stays compiled through the whole body, but for the groups in it.
In any other branch no text is compiled at all. -/
theorem Group.compiles (g : Group) (hg : g.Named) (hbodies : ∀ b ∈ g.branches, Nested b.body) (s : DirectiveState) :
    (s.through g.lines).frames = s.frames ∧
      ∀ before b after, g.branches = before ++ b :: after →
        let inside := s.through (linesOf before ++ [b.opening])
        (inside.isActive = true ↔ s.isActive = true ∧ b.Holds (s.through (linesOf before)) ∧ ¬ Taken s before) ∧
          (inside.isActive = true → ∀ u, u <+: b.body → Clear u → (inside.through u).isActive = true) ∧
          (inside.isActive = false → ∀ u, u <+: b.body → (inside.through u).isActive = false) := by
  have hbalanced : ∀ b ∈ g.branches, Balanced b.body := fun b hb => (hbodies b hb).balanced
  refine ⟨(balanced_lines hg hbalanced s).frames_eq, ?_⟩
  intro before b after h inside
  obtain ⟨a, t, e, hopened, -⟩ := (exists_reached_opened (s := s) hg hbalanced before (b :: after) h).2 b after rfl
  refine ⟨hopened.isActive_iff, fun hactive u _ hclear => hclear.isActive hactive, ?_⟩
  intro hinactive u hu
  exact (hbalanced b (by simp [h]) inside).isActive_eq_false hinactive hu

/-- The second branch of a group in a region defines the symbol that the third one asks for, and the third one is not
compiled. -/
theorem Group.compiles_second :
    let s : DirectiveState := ⟨[.region], ["A".toList]⟩
    let first : Branch := ⟨"#if B".toList, ["#region".toList, "#endregion".toList]⟩
    let second : Branch := ⟨"# elif A || C".toList, ["#define B".toList, "#if B".toList, "#endif".toList]⟩
    let third : Branch := ⟨"#elif B".toList, ["#undef A".toList]⟩
    let g : Group := ⟨first, [second, third], some ⟨"#else".toList, []⟩, "#endif".toList⟩
    g.Named ∧ (∀ b ∈ g.branches, Nested b.body) ∧ (s.through g.lines).frames = s.frames ∧
      (s.through (linesOf [first] ++ [second.opening])).isActive = true ∧
      third.Holds (s.through (linesOf [first, second])) ∧
      ((s.through (linesOf [first, second] ++ [third.opening])).through third.body).isActive = false := by
  intro s first second third g
  have hregion : Nested ("#region".toList :: ([] ++ ["#endregion".toList])) := .region (by decide) (by decide) .nil
  have hdefine : Nested ["#define B".toList] := .line (by decide) (by decide)
  have hinner : Nested (Group.lines ⟨⟨"#if B".toList, []⟩, [], none, "#endif".toList⟩) := by
    refine .group _ ⟨by decide, nofun, nofun, by decide⟩ fun b hb => ?_
    rw [List.mem_singleton.1 hb]
    exact .nil
  have hnamed : g.Named := by
    refine ⟨by decide, ?_, ?_, by decide⟩
    · intro b hb
      rcases List.mem_cons.1 hb with rfl | hb
      · decide
      · rw [List.mem_singleton.1 hb]
        decide
    · rintro b ⟨⟩
      decide
  have hbodies : ∀ b ∈ g.branches, Nested b.body := by
    intro b hb
    simp only [g, branches, Option.toList_some, List.mem_cons, List.mem_append, List.not_mem_nil, or_false] at hb
    rcases hb with rfl | (rfl | rfl) | rfl
    · exact hregion
    · exact hdefine.append hinner
    · exact .line (by decide) (by decide)
    · exact .nil
  obtain ⟨hframes, hbranches⟩ := Group.compiles g hnamed hbodies s
  -- the first branch does not hold, the second one does, and so does the third one behind it
  have hif : Names "if" first.opening := by decide
  have helif : Names "elif" second.opening := by decide
  have helif' : Names "elif" third.opening := by decide
  have hnot : ¬ Taken s [first] := by
    rw [← List.nil_append [first], taken_concat, holds_iff hif (by decide)]
    rintro (h | h)
    · exact not_taken_nil h
    · exact absurd h (by decide +kernel)
  have hholds : second.Holds (s.through (linesOf [first])) := (holds_iff helif (by decide)).2 (by decide +kernel)
  have hholds' : third.Holds (s.through (linesOf [first, second])) :=
    (holds_iff helif' (by decide)).2 (by decide +kernel)
  refine ⟨hnamed, hbodies, hframes, ?_, hholds', ?_⟩
  · exact (hbranches [first] second _ rfl).1.2 ⟨rfl, hholds, hnot⟩
  · obtain ⟨hactive, -, hinactive⟩ := hbranches [first, second] third _ rfl
    refine hinactive ?_ _ (List.prefix_refl _)
    rw [Bool.eq_false_iff, ne_eq, hactive]
    rintro ⟨-, -, hnone⟩
    exact hnone (taken_concat.2 (.inr hholds))

end IncrementalSyntax

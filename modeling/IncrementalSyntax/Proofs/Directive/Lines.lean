import IncrementalSyntax.Directive.Line
import IncrementalSyntax.Proofs.Directive.Symbols

/-!
# What lines do to a state

A directive line opens a frame, changes or closes the innermost one, or leaves the frames alone. Apart from that
it can only define or undefine one symbol. So the state after any lines is canonical: the symbols are in order,
each of them once, and they are those that the lines have defined, whatever the order in which they did.

## Main definitions

* `DirectiveLine.Opens`, `DirectiveLine.Closes`: lines that open a frame, or close the innermost one
* `DirectiveLine.Leads`, `DirectiveLine.effect`: what a line makes of a state, and of the set of the defined symbols
* `DirectiveState.after`: the state behind some lines

## Main results

* `DirectiveLine.process_cases`: all that a line can do
* `DirectiveLine.depth_process`, `DirectiveLine.symbols_process`: open frames and symbols behind a line
* `DirectiveState.canonical`: states behind lines are canonical
-/

namespace IncrementalSyntax

namespace DirectiveLine

variable {line : Text} {s : DirectiveState}

/-! ## Lines by their names -/

theorem process_if (h : name line = "if".toList) : process line s = processIf line s := by
  simp [process, h]

theorem process_elif (h : name line = "elif".toList) : process line s = processElif line s := by
  simp [process, h]

theorem process_else (h : name line = "else".toList) : process line s = processElse line s := by
  simp [process, h]

theorem process_endif (h : name line = "endif".toList) : process line s = processEndif line s := by
  simp [process, h]

theorem process_region (h : name line = "region".toList) : process line s = ⟨.region, s.enter .region, []⟩ := by
  simp [process, h]

theorem process_endregion (h : name line = "endregion".toList) : process line s = processEndregion line s := by
  simp [process, h]

theorem process_define (h : name line = "define".toList) : process line s = processDefine line s := by
  simp [process, h]

theorem process_undef (h : name line = "undef".toList) : process line s = processUndef line s := by
  simp [process, h]

/-- The names of the lines that do something to frames or symbols. -/
def effectiveNames : List Text :=
  ["if", "elif", "else", "endif", "region", "endregion", "define", "undef"].map String.toList

/-- Any other line leaves the state as it is. -/
theorem state_process_of_not_mem (h : name line ∉ effectiveNames) : (process line s).state = s := by
  have hne : ∀ word : String, word.toList ∈ effectiveNames → (name line = word.toList) = False :=
    fun word hword => eq_false fun heq => h (heq ▸ hword)
  rw [process]
  simp only [hne _ (by decide : "if".toList ∈ effectiveNames), hne _ (by decide : "elif".toList ∈ effectiveNames),
    hne _ (by decide : "else".toList ∈ effectiveNames), hne _ (by decide : "endif".toList ∈ effectiveNames),
    hne _ (by decide : "region".toList ∈ effectiveNames), hne _ (by decide : "endregion".toList ∈ effectiveNames),
    hne _ (by decide : "define".toList ∈ effectiveNames), hne _ (by decide : "undef".toList ∈ effectiveNames)]
  simp only [decide_false, Bool.false_eq_true, if_false]
  split_ifs <;> rfl

/-! ## All that a line can do -/

/-- The line defines a symbol, if what it names is one. -/
def Defines (line : Text) (x : Text) : Prop :=
  name line = "define".toList ∧ isSymbol x = true ∧ symbolOf line = x

/-- The line undefines a symbol, if what it names is one. -/
def Undefines (line : Text) (x : Text) : Prop :=
  name line = "undef".toList ∧ isSymbol x = true ∧ symbolOf line = x

/-- The line opens a frame. -/
def Opens (line : Text) : Prop := name line = "if".toList ∨ name line = "region".toList

/-- The line closes the innermost frame: its name is the one that closes such a frame. -/
def Closes (line : Text) (s : DirectiveState) : Prop :=
  ∃ f, s.frames.head? = some f ∧ f.closer.toList = '#' :: name line

/-- The line leaves the number of open frames as it is. -/
def Stays (line : Text) (s : DirectiveState) : Prop := ¬ Opens line ∧ ¬ Closes line s

/-- **Leads.** What a line makes of a state. It does one thing at most, to the frames or to the symbols. -/
inductive Leads (line : Text) (s : DirectiveState) : DirectiveState → Prop
  | opened (f : Frame) (h : Opens line) : Leads line s (s.enter f)
  | closed (h : Closes line s) : Leads line s s.leave
  | revised {f : Frame} (g : Frame) (hf : s.frames.head? = some f) (hstays : Stays line s)
      (hname : name line = "elif".toList ∨ name line = "else".toList) : Leads line s (s.revise g)
  | defined {x : Text} (hstays : Stays line s) (h : Defines line x) : Leads line s (s.define x)
  | undefined {x : Text} (hstays : Stays line s) (h : Undefines line x) : Leads line s (s.undefine x)
  | unmoved (hstays : Stays line s) (hdefines : ∀ x, ¬ Defines line x) (hundefines : ∀ x, ¬ Undefines line x) :
      Leads line s s

theorem toList_closer_region : Frame.region.closer.toList = '#' :: "endregion".toList := by decide

theorem toList_closer_conditional (a t e : Bool) :
    (Frame.conditional a t e).closer.toList = '#' :: "endif".toList := by
  show "#endif".toList = _
  decide

theorem closes_iff : Closes line s ↔
    (name line = "endif".toList ∧ ∃ a t e, s.frames.head? = some (.conditional a t e)) ∨
      (name line = "endregion".toList ∧ s.frames.head? = some .region) := by
  constructor
  · rintro ⟨f, hf, hcloser⟩
    cases f with
    | region => exact .inr ⟨(List.cons.inj (toList_closer_region.symm.trans hcloser)).2.symm, hf⟩
    | conditional a t e =>
      exact .inl ⟨(List.cons.inj ((toList_closer_conditional a t e).symm.trans hcloser)).2.symm, a, t, e, hf⟩
  · rintro (⟨hname, a, t, e, hf⟩ | ⟨hname, hf⟩)
    · exact ⟨_, hf, hname ▸ toList_closer_conditional a t e⟩
    · exact ⟨_, hf, hname ▸ toList_closer_region⟩

theorem stays_of_not_mem (h : name line ∉ ["if", "region", "endif", "endregion"].map String.toList) : Stays line s := by
  simp only [List.map_cons, List.map_nil, List.mem_cons, List.not_mem_nil, or_false, not_or] at h
  obtain ⟨hif, hregion, hendif, hendregion⟩ := h
  constructor
  · rintro (heq | heq)
    · exact hif heq
    · exact hregion heq
  · rw [closes_iff]
    rintro (⟨heq, -⟩ | ⟨heq, -⟩)
    · exact hendif heq
    · exact hendregion heq

/-- A line that stands for something else than a definition. -/
theorem Leads.of_name {word : String} (h : name line = word.toList) (hstays : Stays line s)
    (hword : word.toList ≠ "define".toList ∧ word.toList ≠ "undef".toList) : Leads line s s :=
  .unmoved hstays (fun _ hd => hword.1 (h.symm.trans hd.1)) fun _ hu => hword.2 (h.symm.trans hu.1)

/-- **All that a line can do.** -/
theorem process_cases (line : Text) (s : DirectiveState) : Leads line s (process line s).state := by
  by_cases hmem : name line ∈ effectiveNames
  · simp only [effectiveNames, List.map_cons, List.map_nil, List.mem_cons, List.not_mem_nil, or_false] at hmem
    rcases hmem with h | h | h | h | h | h | h | h
    · rw [process_if h]
      exact .opened _ (.inl h)
    · have hstays : Stays line s := stays_of_not_mem (by rw [h]; decide)
      rw [process_elif h, processElif]
      split
      · next a t hf => exact .revised _ hf hstays (.inl h)
      · exact .of_name h hstays (by decide)
    · have hstays : Stays line s := stays_of_not_mem (by rw [h]; decide)
      rw [process_else h, processElse]
      split
      · next a t hf => exact .revised _ hf hstays (.inr h)
      · exact .of_name h hstays (by decide)
    · rw [process_endif h, processEndif]
      split
      · next a t e hf => exact .closed (closes_iff.2 (.inl ⟨h, a, t, e, hf⟩))
      · next hf => exact .of_name h ⟨by simp [Opens, h], by simp [closes_iff, h, hf]⟩ (by decide)
      · next hf => exact .of_name h ⟨by simp [Opens, h], by simp [closes_iff, h, hf]⟩ (by decide)
    · rw [process_region h]
      exact .opened _ (.inr h)
    · rw [process_endregion h, processEndregion]
      split
      · next hf => exact .closed (closes_iff.2 (.inr ⟨h, hf⟩))
      · next a t e hf => exact .of_name h ⟨by simp [Opens, h], by simp [closes_iff, h, hf]⟩ (by decide)
      · next hf => exact .of_name h ⟨by simp [Opens, h], by simp [closes_iff, h, hf]⟩ (by decide)
    · have hstays : Stays line s := stays_of_not_mem (by rw [h]; decide)
      rw [process_define h, processDefine]
      split_ifs with hsym
      · exact .defined hstays ⟨h, hsym, rfl⟩
      · refine .unmoved hstays ?_ (by simp [Undefines, h])
        rintro x ⟨-, hx, rfl⟩
        exact hsym hx
    · have hstays : Stays line s := stays_of_not_mem (by rw [h]; decide)
      rw [process_undef h, processUndef]
      split_ifs with hsym
      · exact .undefined hstays ⟨h, hsym, rfl⟩
      · refine .unmoved hstays (by simp [Defines, h]) ?_
        rintro x ⟨-, hx, rfl⟩
        exact hsym hx
  · rw [state_process_of_not_mem hmem]
    have hne : ∀ word : String, word.toList ∈ effectiveNames → name line ≠ word.toList :=
      fun word hword heq => hmem (heq ▸ hword)
    have hsubset : ∀ x ∈ ["if", "region", "endif", "endregion"].map String.toList, x ∈ effectiveNames := by decide
    refine .unmoved (stays_of_not_mem fun h => hmem (hsubset _ h)) ?_ ?_
    · rintro x ⟨h, -⟩
      exact hne _ (by decide) h
    · rintro x ⟨h, -⟩
      exact hne _ (by decide) h

/-! ## Frames and symbols behind a line -/

theorem Closes.not_opens (h : Closes line s) : ¬ Opens line := by
  rw [closes_iff] at h
  rintro (heq | heq) <;> simp [heq] at h

theorem Closes.frames_ne_nil (h : Closes line s) : s.frames ≠ [] := by
  obtain ⟨f, hf, -⟩ := h
  rintro hnil
  rw [hnil] at hf
  cases hf

/-- **Open frames.** A line opens one frame, closes the innermost one, or leaves their number alone. -/
theorem depth_process (line : Text) (s : DirectiveState) :
    (Opens line → (process line s).state.depth = s.depth + 1) ∧
      (Closes line s → (process line s).state.depth + 1 = s.depth) ∧
      (¬ Opens line → ¬ Closes line s → (process line s).state.depth = s.depth) := by
  generalize hs : (process line s).state = s'
  have hleads := process_cases line s
  rw [hs] at hleads
  cases hleads with
  | opened f h => exact ⟨fun _ => rfl, fun hc => absurd h hc.not_opens, fun ho => absurd h ho⟩
  | closed h =>
    refine ⟨fun ho => absurd ho h.not_opens, fun _ => ?_, fun _ hc => absurd h hc⟩
    have hpos := List.length_pos_of_ne_nil h.frames_ne_nil
    show s.frames.tail.length + 1 = s.frames.length
    rw [List.length_tail]
    omega
  | revised g hf hstays _ =>
    refine ⟨fun ho => absurd ho hstays.1, fun hc => absurd hc hstays.2, fun _ _ => ?_⟩
    obtain ⟨f', rest, hframes⟩ := List.exists_cons_of_ne_nil (l := s.frames) (by rintro hnil; simp [hnil] at hf)
    simp [DirectiveState.depth, DirectiveState.revise, hframes]
  | defined hstays _ => exact ⟨fun ho => absurd ho hstays.1, fun hc => absurd hc hstays.2, fun _ _ => rfl⟩
  | undefined hstays _ => exact ⟨fun ho => absurd ho hstays.1, fun hc => absurd hc hstays.2, fun _ _ => rfl⟩
  | unmoved hstays _ _ => exact ⟨fun ho => absurd ho hstays.1, fun hc => absurd hc hstays.2, fun _ _ => rfl⟩

/-- The symbols stay in order. -/
theorem pairwise_process (h : s.symbols.Pairwise (· < ·)) : (process line s).state.symbols.Pairwise (· < ·) := by
  generalize hs : (process line s).state = s'
  have hleads := process_cases line s
  rw [hs] at hleads
  cases hleads with
  | opened => exact h
  | closed => exact h
  | revised => exact h
  | defined => exact SymbolSet.pairwise_insert h
  | undefined => exact SymbolSet.pairwise_erase h
  | unmoved => exact h

/-- **Effect.** The set of the defined symbols behind a line. Only a well-formed line changes it. -/
def effect (line : Text) (set : Set Text) : Set Text :=
  {x | Defines line x ∨ x ∈ set ∧ ¬ Undefines line x}

theorem Defines.iff {x y : Text} (h : Defines line x) : Defines line y ↔ y = x := by
  constructor
  · rintro ⟨-, -, rfl⟩
    exact h.2.2
  · rintro rfl
    exact h

theorem Undefines.iff {x y : Text} (h : Undefines line x) : Undefines line y ↔ y = x := by
  constructor
  · rintro ⟨-, -, rfl⟩
    exact h.2.2
  · rintro rfl
    exact h

theorem effect_of_neither {set : Set Text} (hd : ∀ x, ¬ Defines line x) (hu : ∀ x, ¬ Undefines line x) :
    effect line set = set := by
  ext x
  simp [effect, hd x, hu x]

theorem symbols_process (line : Text) (s : DirectiveState) :
    {x | x ∈ (process line s).state.symbols} = effect line {x | x ∈ s.symbols} := by
  generalize hs : (process line s).state = s'
  have hleads := process_cases line s
  rw [hs] at hleads
  cases hleads with
  | opened f h =>
    refine (effect_of_neither (fun x hd => ?_) fun x hu => ?_).symm
    · rcases h with h | h <;> simp [Defines, h] at hd
    · rcases h with h | h <;> simp [Undefines, h] at hu
  | closed h =>
    rw [closes_iff] at h
    refine (effect_of_neither (fun x hd => ?_) fun x hu => ?_).symm
    · rcases h with ⟨h, -⟩ | ⟨h, -⟩ <;> simp [Defines, h] at hd
    · rcases h with ⟨h, -⟩ | ⟨h, -⟩ <;> simp [Undefines, h] at hu
  | revised g hf hstays h =>
    refine (effect_of_neither (fun x hd => ?_) fun x hu => ?_).symm
    · rcases h with h | h <;> simp [Defines, h] at hd
    · rcases h with h | h <;> simp [Undefines, h] at hu
  | @defined x hstays h =>
    ext y
    have hundef : ¬ Undefines line y := fun hu => by simp [Undefines, h.1] at hu
    show y ∈ SymbolSet.insert x s.symbols ↔ Defines line y ∨ y ∈ s.symbols ∧ ¬ Undefines line y
    rw [SymbolSet.mem_insert, h.iff]
    tauto
  | @undefined x hstays h =>
    ext y
    have hdef : ¬ Defines line y := fun hd => by simp [Defines, h.1] at hd
    show y ∈ SymbolSet.erase x s.symbols ↔ Defines line y ∨ y ∈ s.symbols ∧ ¬ Undefines line y
    rw [SymbolSet.mem_erase, h.iff]
    tauto
  | unmoved _ hd hu => exact (effect_of_neither hd hu).symm

end DirectiveLine

/-! ## States behind several lines -/

namespace DirectiveState

/-- The state behind some lines, each of which takes effect. -/
def after (s : DirectiveState) (lines : List Text) : DirectiveState :=
  lines.foldl (fun s line => (DirectiveLine.process line s).state) s

/-- The symbols that are defined behind some lines. -/
def definedAfter (set : Set Text) (lines : List Text) : Set Text :=
  lines.foldl (fun set line => DirectiveLine.effect line set) set

theorem eq_of_frames_of_symbols {s s' : DirectiveState} (hframes : s.frames = s'.frames)
    (hsymbols : s.symbols = s'.symbols) : s = s' := by
  cases s
  cases s'
  exact congr (congrArg mk hframes) hsymbols

theorem pairwise_after {s : DirectiveState} (h : s.symbols.Pairwise (· < ·)) (lines : List Text) :
    (s.after lines).symbols.Pairwise (· < ·) := by
  induction lines generalizing s with
  | nil => exact h
  | cons line lines ih => exact ih (DirectiveLine.pairwise_process h)

theorem symbols_after (s : DirectiveState) (lines : List Text) :
    {x | x ∈ (s.after lines).symbols} = definedAfter {x | x ∈ s.symbols} lines := by
  induction lines generalizing s with
  | nil => rfl
  | cons line lines ih =>
    show {x | x ∈ ((DirectiveLine.process line s).state.after lines).symbols} = _
    rw [ih, DirectiveLine.symbols_process]
    rfl

/-- Behind any lines the symbols are in order, and they are those that the lines have defined. -/
theorem ofSymbols_after (symbols lines : List Text) :
    ((ofSymbols symbols).after lines).symbols.Pairwise (· < ·) ∧
      {x | x ∈ ((ofSymbols symbols).after lines).symbols} = definedAfter {x | x ∈ symbols} lines := by
  refine ⟨pairwise_after (SymbolSet.pairwise_ofList symbols) lines, ?_⟩
  rw [symbols_after]
  congr 1
  ext x
  exact SymbolSet.mem_ofList

/-- **States are canonical.** Whatever the symbols at the start, behind any lines the symbols are in order, each of
them once. A symbol is defined just if it is in the set that the well-formed definitions among the lines make out of
the symbols at the start. A line opens one frame, closes the innermost one, or leaves their number alone. And two
states are the same just if they have the same open frames and the same set of symbols. -/
theorem canonical (symbols symbols' lines lines' : List Text) :
    let s := (ofSymbols symbols).after lines
    let s' := (ofSymbols symbols').after lines'
    s.symbols.Pairwise (· < ·) ∧
      (∀ x, s.isDefined x = true ↔ x ∈ definedAfter {x | x ∈ symbols} lines) ∧
      (∀ line, (DirectiveLine.Opens line → (s.after [line]).depth = s.depth + 1) ∧
        (DirectiveLine.Closes line s → (s.after [line]).depth + 1 = s.depth) ∧
        (¬ DirectiveLine.Opens line → ¬ DirectiveLine.Closes line s → (s.after [line]).depth = s.depth)) ∧
      (s = s' ↔ s.frames = s'.frames ∧
        definedAfter {x | x ∈ symbols} lines = definedAfter {x | x ∈ symbols'} lines') := by
  intro s s'
  obtain ⟨horder, hset⟩ := ofSymbols_after symbols lines
  obtain ⟨horder', hset'⟩ := ofSymbols_after symbols' lines'
  refine ⟨horder, fun x => ?_, fun line => DirectiveLine.depth_process line s, ?_⟩
  · rw [isDefined, SymbolSet.search_iff horder, ← hset]
    rfl
  · rw [← hset, ← hset']
    constructor
    · intro h
      exact ⟨congrArg frames h, congrArg (fun s : DirectiveState => {x | x ∈ s.symbols}) h⟩
    · rintro ⟨hframes, hsymbols⟩
      have hsame : s.symbols = s'.symbols := horder.eq_of_mem_iff horder' fun x => Set.ext_iff.1 hsymbols x
      exact eq_of_frames_of_symbols hframes hsame

end DirectiveState

end IncrementalSyntax

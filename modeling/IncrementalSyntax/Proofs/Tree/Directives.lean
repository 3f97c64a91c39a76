import IncrementalSyntax.Proofs.Tree.Session

/-!
# The directives of a text

The directives of a text can be read off its tokens: they are the pieces of trivia that are directives, each
processed in the state that the one before has left. The table of a parse holds just these, so that the
context at the end of every token can be told from the table and the character in front of it.

## Main definitions

* `Leaf.placeTrivia`: the trivia of leaves in a row with their offsets
* `DirectiveEntry.replay`: the directives among some pieces of trivia

## Main results

* `Scanned.entries_eq_replay`: the directives that a scan finds
* `Scanned.lineStart_iff`: where a line starts
* `SyntaxTree.directives_replay`: the table of a parse, and the contexts that can be told from it
-/

namespace IncrementalSyntax

/-! ## Directives among trivia -/

/-- Pieces of trivia in a row, each with its offset; the first one stands at `offset`. -/
def Trivia.place : Nat → List Trivia → List (Nat × Trivia)
  | _, [] => []
  | offset, p :: ps => (offset, p) :: place (offset + Text.width p.text) ps

/-- The trivia of leaves in a row, each piece with its offset; the first leaf stands at `offset`. -/
def Leaf.placeTrivia : Nat → List Leaf → List (Nat × Trivia)
  | _, [] => []
  | offset, l :: ls =>
    Trivia.place offset l.leading ++ Trivia.place (offset + l.leadingWidth + l.textWidth) l.trailing ++
      placeTrivia (offset + l.width) ls

/-- **Replay.** The directives among some pieces of trivia. Each has the kind and the range of its piece, and
the state after it is what its line, without the terminator, makes of the state after the one before. -/
def DirectiveEntry.replay : DirectiveState → List (Nat × Trivia) → List DirectiveEntry
  | _, [] => []
  | state, (offset, p) :: ps =>
    match p.kind with
    | .trivia (.directive kind) =>
      let after := (DirectiveLine.process p.text.line state).state
      ⟨kind, ⟨offset, Text.width p.text⟩, after⟩ :: replay after ps
    | _ => replay state ps

namespace Trivia

@[simp] theorem place_nil (offset : Nat) : place offset [] = [] := rfl

theorem place_append (offset : Nat) (ps qs : List Trivia) :
    place offset (ps ++ qs) = place offset ps ++ place (offset + widthAll ps) qs := by
  induction ps generalizing offset with
  | nil => simp [widthAll]
  | cons p ps ih => simp [place, ih, widthAll, Nat.add_assoc]

theorem place_add (offset amount : Nat) (ps : List Trivia) :
    place (offset + amount) ps = (place offset ps).map fun q => (q.1 + amount, q.2) := by
  induction ps generalizing offset with
  | nil => rfl
  | cons p ps ih => simp [place, ← ih, Nat.add_right_comm]

end Trivia

theorem Leaf.placeTrivia_add (offset amount : Nat) (ls : List Leaf) :
    placeTrivia (offset + amount) ls = (placeTrivia offset ls).map fun q => (q.1 + amount, q.2) := by
  induction ls generalizing offset with
  | nil => rfl
  | cons l ls ih => simp [placeTrivia, ← ih, ← Trivia.place_add, Nat.add_right_comm]

namespace DirectiveEntry

theorem stateBehind_cons (e : DirectiveEntry) (es : List DirectiveEntry) (state : DirectiveState) :
    stateBehind (e :: es) state = stateBehind es e.stateAfter :=
  stateBehind_append [e] es state

theorem replay_append (state : DirectiveState) (ps qs : List (Nat × Trivia)) :
    replay state (ps ++ qs) = replay state ps ++ replay (stateBehind (replay state ps) state) qs := by
  induction ps generalizing state with
  | nil => rfl
  | cons p ps ih =>
    obtain ⟨offset, p⟩ := p
    rw [List.cons_append, replay, replay]
    split
    · next kind hkind =>
      dsimp only
      rw [ih, List.cons_append, stateBehind_cons]
    · exact ih state

theorem replay_map_add (state : DirectiveState) (ps : List (Nat × Trivia)) (amount : Nat) :
    replay state (ps.map fun q => (q.1 + amount, q.2)) = (replay state ps).map (·.shift amount) := by
  induction ps generalizing state with
  | nil => rfl
  | cons p ps ih =>
    obtain ⟨offset, p⟩ := p
    rw [List.map_cons, replay, replay]
    dsimp only
    split
    · rw [ih, List.map_cons]
      rfl
    · exact ih state

/-- Pieces of trivia without a directive have nothing to replay. -/
theorem replay_eq_nil (state : DirectiveState) {offset : Nat} {ps : List Trivia}
    (h : ∀ p ∈ ps, p.isDirective = false) : replay state (Trivia.place offset ps) = [] := by
  induction ps generalizing offset with
  | nil => rfl
  | cons p ps ih =>
    have hp := h p List.mem_cons_self
    rw [Trivia.place, replay]
    split
    · next kind hkind => simp [Trivia.isDirective, hkind, Kind.isTriviaThat, TriviaKind.isDirective] at hp
    · exact ih fun q hq => h q (List.mem_cons_of_mem _ hq)

end DirectiveEntry

/-! ## The directives of a token -/

namespace Leading

variable {state : DirectiveState} {l l' : Leading}

/-- A line that is left out is no directive. -/
theorem replay_appendDisabled (state : DirectiveState) (offset : Nat) (text : Text) (ps : List Trivia) :
    DirectiveEntry.replay state (Trivia.place offset (appendDisabled text ps)) =
      DirectiveEntry.replay state (Trivia.place offset ps) := by
  fun_induction appendDisabled text ps generalizing state offset with
  | case1 => rfl
  | case2 p hp => simp [Trivia.place, DirectiveEntry.replay, hp]
  | case3 p hp =>
    rw [← List.singleton_append, Trivia.place_append, DirectiveEntry.replay_append]
    simp [Trivia.place, DirectiveEntry.replay]
  | case4 p q ps ih =>
    rw [← List.singleton_append, Trivia.place_append, DirectiveEntry.replay_append, ih,
      ← DirectiveEntry.replay_append, ← Trivia.place_append, List.singleton_append]

/-- A piece that is no directive adds none. -/
theorem entries_eq_of_push {p : Trivia} (h : l.entries = DirectiveEntry.replay state (Trivia.place 0 l.pieces))
    (hp : p.isDirective = false) :
    l.entries = DirectiveEntry.replay state (Trivia.place 0 (l.pieces ++ [p])) := by
  have hnone : ∀ (s : DirectiveState) (offset : Nat), DirectiveEntry.replay s (Trivia.place offset [p]) = [] :=
    fun s _ => DirectiveEntry.replay_eq_nil s (List.forall_mem_singleton.2 hp)
  rw [Trivia.place_append, DirectiveEntry.replay_append, hnone, List.append_nil, h]

/-- The directives read so far are those among the pieces. -/
theorem entries_eq_step (htraced : Traced state l)
    (h : l.entries = DirectiveEntry.replay state (Trivia.place 0 l.pieces)) (hstep : Step l l') :
    l'.entries = DirectiveEntry.replay state (Trivia.place 0 l'.pieces) := by
  cases hstep with
  | disable => exact h.trans (replay_appendDisabled state 0 _ l.pieces).symm
  | blank => exact entries_eq_of_push h rfl
  | endOfLine => exact entries_eq_of_push h rfl
  | lineComment => exact entries_eq_of_push h rfl
  | blockComment => exact entries_eq_of_push h rfl
  | directive =>
    show l.entries ++ _ = DirectiveEntry.replay state (Trivia.place 0 (l.pieces ++ [_]))
    rw [Trivia.place_append, DirectiveEntry.replay_append, ← h, ← htraced.state, Nat.zero_add]
    simp [Trivia.place, DirectiveEntry.replay, Text.line_fullLine, offset]

theorem entries_eq_run {fuel : Nat} (htraced : Traced state l)
    (h : l.entries = DirectiveEntry.replay state (Trivia.place 0 l.pieces)) :
    (run fuel l).entries = DirectiveEntry.replay state (Trivia.place 0 (run fuel l).pieces) := by
  induction fuel generalizing l with
  | zero => exact h
  | succ fuel ih =>
    unfold run
    split
    · next l' hs =>
      have hstep : Step l l' := .of_step? hs
      exact ih (htraced.step hstep) (entries_eq_step htraced h hstep)
    · exact h

/-- The directives in leading trivia are those among its pieces. -/
theorem entries_read (state : DirectiveState) (lineStart : Bool) (t : Text) :
    (read state lineStart t).entries =
      DirectiveEntry.replay state (Trivia.place 0 (read state lineStart t).pieces) :=
  entries_eq_run ⟨nofun, rfl, nofun⟩ rfl

end Leading

/-- No directive stands behind the text of a token. -/
theorem Trailing.isDirective_run {fuel offset : Nat} {t : Text} :
    ∀ p ∈ (run fuel offset t).pieces, p.isDirective = false := by
  fun_induction run fuel offset t with
  | case1 => simp
  | case2 => simp
  | case3 fuel offset c t hc text ih => exact List.forall_mem_cons.2 ⟨rfl, ih⟩
  | case4 fuel offset c t hc hl text ih => exact List.forall_mem_cons.2 ⟨rfl, ih⟩
  | case5 fuel offset c t hc hl hs comment ih => exact List.forall_mem_cons.2 ⟨rfl, ih⟩
  | case6 => exact List.forall_mem_singleton.2 rfl
  | case7 => simp

section Scans

variable (c : Context) (t : Text)

/-- The directives of a token are those among its trivia. -/
theorem entries_scan_eq_replay :
    (scan c t).entries = DirectiveEntry.replay c.directives (Leaf.placeTrivia 0 [(scan c t).leaf]) := by
  have hread := Leading.entries_read c.directives c.lineStart t
  have htrailing : ∀ (state : DirectiveState) (offset : Nat),
      DirectiveEntry.replay state (Trivia.place offset (scan c t).leaf.trailing) = [] := by
    intro state offset
    refine DirectiveEntry.replay_eq_nil state ?_
    rcases scan_cases c t with ⟨-, hs⟩ | ⟨d, z, -, hs⟩ <;> rw [hs]
    · nofun
    · exact Trailing.isDirective_run
  rw [Leaf.placeTrivia, Leaf.placeTrivia, List.append_nil, DirectiveEntry.replay_append, htrailing, List.append_nil]
  rcases scan_cases c t with ⟨-, hs⟩ | ⟨d, z, -, hs⟩ <;> rw [hs] <;> exact hread

/-- Where a line starts behind a token: one with a text tells it by its last character. -/
theorem lineStart_scan_eq : (scan c t).context.lineStart =
    if (scan c t).leaf.fullText = [] then c.lineStart else (scan c t).leaf.fullText.endsLine := by
  by_cases hkind : (scan c t).leaf.tokenKind = .eof
  · rcases scan_cases c t with ⟨hnil, hs⟩ | ⟨d, z, hrest, -⟩
    · have hpieces := Leading.read_append c.directives c.lineStart t
      rw [hnil, List.append_nil] at hpieces
      have hfull : (scan c t).leaf.fullText = t := by simp [hs, Scan.atEnd, Leaf.fullText, hpieces]
      have hiff : (Leading.read c.directives c.lineStart t).pieces = [] ↔ t = [] :=
        ⟨fun h => by rw [← hpieces, h, Trivia.textAll_nil], fun h => by subst h; rfl⟩
      show _ = if (scan c t).leaf.fullText = [] then _ else (scan c t).leaf.fullText.endsLine
      rw [hfull, hs]
      simp only [Scan.atEnd, hpieces, hiff]
    · rw [tokenKind_scan_eq_eof_iff, hrest] at hkind
      cases hkind
  · have hfull : (scan c t).leaf.fullText ≠ [] := by simp [Leaf.fullText, text_scan_ne_nil hkind]
    rw [if_neg hfull, lineStart_scan hkind]

end Scans

/-! ## The directives of a text -/

namespace Scanned

variable {c c' : Context} {t t' : Text} {ls : List Leaf} {es : List DirectiveEntry}

/-- The directives of scanned tokens are those among their trivia. -/
theorem entries_eq_replay (h : Scanned c t ls c' t' es) :
    es = DirectiveEntry.replay c.directives (Leaf.placeTrivia 0 ls) := by
  induction h with
  | nil => rfl
  | @cons c c' t t' ls es h ih =>
    have hsplit : Leaf.placeTrivia 0 ((scan c t).leaf :: ls) =
        Leaf.placeTrivia 0 [(scan c t).leaf] ++ Leaf.placeTrivia (0 + (scan c t).leaf.width) ls := by
      simp [Leaf.placeTrivia]
    rw [hsplit, Leaf.placeTrivia_add, DirectiveEntry.replay_append, DirectiveEntry.replay_map_add,
      ← entries_scan_eq_replay, ← directives_scan, ← ih]

theorem lineStart_eq_ite (h : Scanned c t ls c' t' es) :
    c'.lineStart = if Leaf.textAll ls = [] then c.lineStart else (Leaf.textAll ls).endsLine := by
  induction h with
  | nil => simp
  | @cons c c' t t' ls es h ih =>
    rw [ih, lineStart_scan_eq, Leaf.textAll_cons]
    by_cases hls : Leaf.textAll ls = []
    · simp [hls]
    · simp [hls, Text.endsLine_append hls]

/-- In a scan from the start of a text a line starts at the start and behind each line break. -/
theorem lineStart_iff {symbols : List Text} (h : Scanned (.initial symbols) t ls c' t' es) :
    c'.lineStart = true ↔ Leaf.widthAll ls = 0 ∨ (Leaf.textAll ls).endsLine = true := by
  rw [h.lineStart_eq_ite, Leaf.widthAll_eq, Text.width_eq_zero_iff]
  by_cases hls : Leaf.textAll ls = [] <;> simp [hls, Context.initial]

/-- A part of a scan from the start of a text leaves the context that the table of the whole scan tells. -/
theorem contextAt_eq {symbols : List Text} {old : OldTree} {ls' : List Leaf}
    (hall : Scanned (.initial symbols) old.text (ls ++ ls') c' t' old.directives.entries)
    (hinitial : old.directives.initial = .ofSymbols symbols) :
    ∃ c es, Scanned (.initial symbols) old.text ls c (Leaf.textAll ls' ++ t') es ∧
      old.directives.stateAt (Leaf.widthAll ls) = c.directives ∧
      ∀ spans, Reuse.contextAt ⟨old, spans⟩ (Leaf.widthAll ls) = c := by
  obtain ⟨c, r, es, fs, hs, hs', hentries⟩ := hall.split
  obtain rfl := hs'.text_eq
  have htable : old.directives = ⟨.ofSymbols symbols, es ++ fs.map (·.shift (Leaf.widthAll ls))⟩ :=
    DirectiveTable.eq_of hinitial hentries
  have hdirectives : old.directives.stateAt (Leaf.widthAll ls) = c.directives := by
    have hbehind := hs'.inside.shift (Leaf.widthAll ls)
    rw [Nat.zero_add] at hbehind
    rw [htable, DirectiveTable.stateAt_append hs.inside hbehind, hs.directives_eq]
    rfl
  have hline : (decide (Leaf.widthAll ls = 0) ||
      (old.text.splitAt? (Leaf.widthAll ls)).any fun p => Text.endsLine p.1) = c.lineStart := by
    rw [Bool.eq_iff_iff, hs.lineStart_iff, hs.text_eq, Leaf.widthAll_eq, Text.splitAt?_append]
    simp
  refine ⟨c, es, hs, hdirectives, fun spans => ?_⟩
  cases c
  rw [Reuse.contextAt]
  exact congr (congrArg Context.mk hdirectives) hline

end Scanned

namespace SyntaxTree

/-- **Directive replay.** The table of a parse holds the directives among the trivia of the tokens, and the
context at the end of any of the tokens can be told from the table and the text in front. -/
theorem directives_replay (w : Workspace) (text : Text) (options : Options) (entry : EntryPoint) :
    let t := (ofText w text options entry).1
    let tokens := tokenize options.symbols text
    t.directives.initial = .ofSymbols options.symbols ∧
      t.directives.entries = DirectiveEntry.replay (.ofSymbols options.symbols) (Leaf.placeTrivia 0 tokens) ∧
      ∀ ls rs, tokens = ls ++ rs → ∃ c es, Scanned (.initial options.symbols) text ls c (Leaf.textAll rs) es ∧
        text = Leaf.textAll ls ++ Leaf.textAll rs ∧
        t.directives.stateAt (Leaf.widthAll ls) = c.directives ∧
        (c.lineStart = true ↔ Leaf.widthAll ls = 0 ∨ (Leaf.textAll ls).endsLine = true) ∧
        ∀ spans, Reuse.contextAt ⟨t.asOld, spans⟩ (Leaf.widthAll ls) = c := by
  intro t tokens
  have hvalid : t.asOld.Valid options.symbols := (valid_ofText w text options entry).old
  obtain ⟨c', t', hall⟩ := hvalid.entries
  refine ⟨hvalid.initial, hall.entries_eq_replay, fun ls rs htokens => ?_⟩
  have htext : text = Leaf.textAll ls ++ Leaf.textAll rs := by
    rw [← Leaf.textAll_append, ← htokens]
    exact (textAll_tokenizeRest _ _).symm
  have hall' : Scanned (.initial options.symbols) t.asOld.text (ls ++ rs) c' t' t.asOld.directives.entries :=
    htokens ▸ hall
  obtain ⟨c, es, hs, hdirectives, hcontext⟩ := hall'.contextAt_eq hvalid.initial
  have hrest : Leaf.textAll rs ++ t' = Leaf.textAll rs :=
    List.append_cancel_left (hs.text_eq.symm.trans htext)
  exact ⟨c, es, hrest ▸ hs, htext, hdirectives, hs.lineStart_iff, hcontext⟩

/-- A branch that is left out, and a comment over two lines in front of the last token. -/
theorem directives_replay_branch :
    let text := "#define D\n#if A\ny\n#endif\r\nx; /*\n*/ z\r".toList
    let t := (ofText {} text {} .compilationUnit).1
    t.directives.entries = [⟨.define, ⟨0, 10⟩, ⟨[], [['D']]⟩⟩,
        ⟨.ifDir, ⟨10, 6⟩, ⟨[.conditional false false false], [['D']]⟩⟩, ⟨.endifDir, ⟨18, 8⟩, ⟨[], [['D']]⟩⟩] ∧
      ∃ ls rs c es, tokenize [] text = ls ++ rs ∧ ls.length = 3 ∧
        Scanned (.initial []) text ls c (Leaf.textAll rs) es ∧
        t.directives.stateAt (Leaf.widthAll ls) = c.directives ∧ c.lineStart = true := by
  intro text t
  obtain ⟨-, hentries, hbetween⟩ := directives_replay {} text {} .compilationUnit
  obtain ⟨c, es, hs, -, hstate, hline, -⟩ :=
    hbetween ((tokenize [] text).take 3) ((tokenize [] text).drop 3) (List.take_append_drop 3 _).symm
  exact ⟨hentries.trans (by decide +kernel), _, _, c, es, (List.take_append_drop 3 _).symm, by decide +kernel, hs,
    hstate, hline.2 (.inr (by decide +kernel))⟩

end SyntaxTree

end IncrementalSyntax

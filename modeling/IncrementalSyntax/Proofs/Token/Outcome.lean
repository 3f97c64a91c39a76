import IncrementalSyntax.Proofs.Directive.Complaints
import IncrementalSyntax.Proofs.Green.Leaves
import IncrementalSyntax.Proofs.Token.Lossless

/-!
# What a scan leaves behind

The directives of a token stand in its leading trivia, one after the other, and the last of them says what
the state is behind the token. The scanner reports no token as unexpected, so a scanned leaf is bare.

## Main definitions

* `Leading.Traced`: what the directives and the diagnostics of leading trivia say

## Main results

* `entries_scan`: the directives of a token have a width and lie inside it
* `directives_scan`, `lineStart_scan`: the context behind a token
* `bare_scan`, `missing_scan`: a scanned leaf carries nothing that the parser adds
-/

namespace IncrementalSyntax

/-- The state behind some directives: that after the last of them. -/
def DirectiveEntry.stateBehind (entries : List DirectiveEntry) (state : DirectiveState) : DirectiveState :=
  (entries.getLast?.map stateAfter).getD state

@[simp] theorem DirectiveEntry.stateBehind_nil (state : DirectiveState) : stateBehind [] state = state :=
  rfl

@[simp] theorem DirectiveEntry.stateBehind_append (as bs : List DirectiveEntry) (state : DirectiveState) :
    stateBehind (as ++ bs) state = stateBehind bs (stateBehind as state) := by
  cases h : bs.getLast? with
  | none => simp [stateBehind, List.getLast?_eq_none_iff.1 h]
  | some b => simp [stateBehind, List.getLast?_append, h]

@[simp] theorem DirectiveEntry.stateBehind_map_shift (es : List DirectiveEntry) (amount : Nat)
    (state : DirectiveState) : stateBehind (es.map (·.shift amount)) state = stateBehind es state := by
  cases h : es.getLast? <;> simp [stateBehind, List.getLast?_map, h, DirectiveEntry.shift]

/-- **Inside.** The directives have a width and lie in the range from `start` to `stop`. -/
def DirectiveEntry.Inside (start stop : Nat) (entries : List DirectiveEntry) : Prop :=
  ∀ e ∈ entries, start ≤ e.range.start ∧ 0 < e.range.length ∧ e.range.stop ≤ stop

/-- A directive line never complains of an unexpected token. -/
theorem DirectiveLine.code_ne_unexpectedToken {line : Text} {s : DirectiveState} {d : Diagnostic}
    (h : d ∈ (process line s).diagnostics) : d.code ≠ .unexpectedToken := by
  obtain ⟨-, hlexical | ⟨hident, -⟩⟩ := (complains_process line s).of_mem h
  · intro hcode
    rw [hcode] at hlexical
    cases hlexical
  · rw [hident]
    decide

namespace Leading

/-- **Traced.** The directives read so far have a width and lie in the trivia, the last of them tells the
state, and no token was called unexpected. -/
structure Traced (state : DirectiveState) (l : Leading) : Prop where
  entries : DirectiveEntry.Inside 0 l.offset l.entries
  state : l.state = DirectiveEntry.stateBehind l.entries state
  codes : ∀ d ∈ l.diagnostics, d.code ≠ .unexpectedToken

theorem Moves.offset_eq {l l' : Leading} {u : Text} (h : Moves l l' u) :
    l'.offset = l.offset + u.width := by
  simp [Leading.offset, Trivia.widthAll_eq, h.pieces_eq]

variable {state : DirectiveState} {l l' : Leading}

/-- A piece of trivia that is no directive leaves the directives and the state alone. -/
theorem Traced.of_entries (h : Traced state l) (hoffset : l.offset ≤ l'.offset) (hentries : l'.entries = l.entries)
    (hstate : l'.state = l.state) (hcodes : ∀ d ∈ l'.diagnostics, d ∈ l.diagnostics ∨ d.code ≠ .unexpectedToken) :
    Traced state l' where
  entries := hentries ▸ fun e he => ⟨(h.entries e he).1, (h.entries e he).2.1, (h.entries e he).2.2.trans hoffset⟩
  state := by rw [hstate, hentries, h.state]
  codes d hd := (hcodes d hd).elim (h.codes d) id

/-- Every piece of trivia keeps the trace. -/
theorem Traced.step (h : Traced state l) (hstep : Step l l') : Traced state l' := by
  obtain ⟨u, hu⟩ := hstep.exists_moves
  have hoffset : l.offset ≤ l'.offset := hu.offset_eq ▸ Nat.le_add_right _ _
  cases hstep with
  | disable hne hd => exact h.of_entries hoffset rfl rfl fun d => .inl
  | blank hd hrest hc => exact h.of_entries hoffset rfl rfl fun d => .inl
  | endOfLine hd hrest hc => exact h.of_entries hoffset rfl rfl fun d => .inl
  | lineComment hd hrest => exact h.of_entries hoffset rfl rfl fun d => .inl
  | @blockComment t hd hrest =>
    refine h.of_entries hoffset rfl rfl fun d hd => ?_
    refine (List.mem_append.1 hd).imp id fun hd => ?_
    unfold Comment.complain at hd
    split at hd
    · cases hd
    · exact List.mem_singleton.1 hd ▸ Code.noConfusion
  | @directive t hd hrest hstart =>
    have hne : l.rest ≠ [] := by simp [hrest]
    have hwidth := Text.width_pos_of_ne_nil (Text.fullLine_ne_nil hne)
    have hend : l.directive.offset = l.offset + Text.width l.rest.fullLine :=
      (moves_directive hne).offset_eq
    refine ⟨fun e he => ?_, by simp [directive, DirectiveEntry.stateBehind], fun d hd => ?_⟩
    · rcases List.mem_append.1 he with he | he
      · exact ⟨(h.entries e he).1, (h.entries e he).2.1, (h.entries e he).2.2.trans hoffset⟩
      · obtain rfl := List.mem_singleton.1 he
        exact ⟨Nat.zero_le _, hwidth, hend.ge⟩
    · rcases List.mem_append.1 hd with hd | hd
      · exact h.codes d hd
      · obtain ⟨d', hd', rfl⟩ := List.mem_map.1 hd
        show d'.code ≠ _
        exact DirectiveLine.code_ne_unexpectedToken hd'

theorem traced_run {fuel : Nat} (h : Traced state l) : Traced state (run fuel l) := by
  induction fuel generalizing l with
  | zero => exact h
  | succ fuel ih =>
    unfold run
    split
    · next l' hs => exact ih (h.step (.of_step? hs))
    · exact h

theorem traced_read (state : DirectiveState) (lineStart : Bool) (t : Text) :
    Traced state (read state lineStart t) :=
  traced_run ⟨nofun, rfl, nofun⟩

end Leading

/-- Trailing trivia complains of open comments only. -/
theorem Trailing.code_run {fuel offset : Nat} {t : Text} :
    ∀ d ∈ (run fuel offset t).diagnostics, d.code = .openComment := by
  fun_induction run fuel offset t with
  | case1 => simp
  | case2 => simp
  | case3 fuel offset c t hc text ih => simpa [cons] using ih
  | case4 fuel offset c t hc hl text ih => simpa [cons] using ih
  | case5 fuel offset c t hc hl hs comment ih =>
    intro d hd
    rcases List.mem_append.1 hd with hd | hd
    · unfold Comment.complain at hd
      split at hd
      · cases hd
      · rw [List.mem_singleton.1 hd]
        rfl
    · exact ih d hd
  | case6 => simp
  | case7 => simp

namespace RawToken

variable {c : Char} {t : Text} {code code' : Code}

/-- The codes about the text of a token. -/
def codes : List Code := [.invalidCharacter, .openString, .badCharLiteral]

theorem code_literal {k : Literal} {opening : Text} {cut : Cut}
    (h : (literal k opening cut code).code = some code') : code' = code := by
  unfold literal at h
  dsimp only at h
  split at h
  · cases h
  · exact (Option.some.inj h).symm

theorem code_number (c : Char) (t : Text) : (number c t).code = none := by
  unfold number
  split
  · split <;> rfl
  · rfl

theorem code_bad (h : (bad c t).code = some code) : code ∈ codes := by
  rw [← Option.some.inj h]
  decide

theorem code_afterAt (h : (afterAt t).code = some code) : code ∈ codes := by
  unfold afterAt at h
  split at h
  · rw [code_literal h]
    decide
  · split at h
    · cases h
    · exact code_bad h
  · exact code_bad h

theorem code_afterDollar (h : (afterDollar t).code = some code) : code ∈ codes := by
  unfold afterDollar at h
  split at h
  · rw [code_literal h]
    decide
  · exact code_bad h

theorem code_charLiteral (h : (charLiteral t).code = some code) : code = .badCharLiteral := by
  unfold charLiteral at h
  dsimp only at h
  split at h
  · exact (Option.some.inj h).symm
  · exact code_literal h

theorem code_read_mem (h : (read c t).code = some code) : code ∈ codes := by
  unfold read at h
  split at h
  · cases h
  split at h
  · rw [code_number] at h
    cases h
  split at h
  · rw [code_literal h]
    decide
  split at h
  · exact code_afterAt h
  split at h
  · exact code_afterDollar h
  split at h
  · rw [code_charLiteral h]
    decide
  split at h
  · cases h
  · exact code_bad h

theorem code_complain {raw : RawToken} {offset : Nat} {d : Diagnostic}
    (h : d ∈ raw.complain offset) : raw.code = some d.code := by
  unfold complain at h
  split at h
  · cases h
  · next hc => rw [List.mem_singleton.1 h, hc]; rfl
  · next code _ hc => rw [List.mem_singleton.1 h, hc]; rfl

end RawToken

section Scans

variable (context : Context) (t : Text)

/-- The leading trivia of a scanned token. -/
theorem scan_cases :
    ((Leading.read context.directives context.lineStart t).rest = [] ∧
      scan context t = .atEnd context (Leading.read context.directives context.lineStart t)) ∨
    ∃ c z, (Leading.read context.directives context.lineStart t).rest = c :: z ∧
      scan context t = .ofRaw (Leading.read context.directives context.lineStart t) (.read c z) := by
  unfold scan
  dsimp only
  split
  · next h => exact .inl ⟨h, rfl⟩
  · next c z h => exact .inr ⟨c, z, h, rfl⟩

/-- The directives of a token have a width and lie inside it. -/
theorem entries_scan : DirectiveEntry.Inside 0 (scan context t).leaf.width (scan context t).entries := by
  have htraced := Leading.traced_read context.directives context.lineStart t
  rcases scan_cases context t with ⟨-, hs⟩ | ⟨c, z, -, hs⟩ <;> rw [hs] <;> intro e he <;>
    refine ⟨(htraced.entries e he).1, (htraced.entries e he).2.1, (htraced.entries e he).2.2.trans ?_⟩ <;>
    simp [Scan.atEnd, Scan.ofRaw, Leaf.width, Leaf.leadingWidth, Leading.offset, Nat.add_assoc]

/-- The state behind a token is that after its last directive. -/
theorem directives_scan : (scan context t).context.directives =
    DirectiveEntry.stateBehind (scan context t).entries context.directives := by
  have htraced := Leading.traced_read context.directives context.lineStart t
  rcases scan_cases context t with ⟨-, hs⟩ | ⟨c, z, -, hs⟩ <;> rw [hs] <;> exact htraced.state

variable {context t}

/-- A line starts behind a token that ends one. -/
theorem lineStart_scan (h : (scan context t).leaf.tokenKind ≠ .eof) :
    (scan context t).context.lineStart = (scan context t).leaf.fullText.endsLine := by
  rcases scan_cases context t with ⟨hnil, -⟩ | ⟨c, z, -, hs⟩
  · exact absurd ((tokenKind_scan_eq_eof_iff context t).2 hnil) h
  · rw [hs]
    rfl

/-- Nothing is left behind the token that ends a text. -/
theorem rest_scan (h : (scan context t).leaf.tokenKind = .eof) : (scan context t).rest = [] := by
  rcases scan_cases context t with ⟨-, hs⟩ | ⟨c, z, hrest, -⟩
  · rw [hs]
    rfl
  · rw [tokenKind_scan_eq_eof_iff, hrest] at h
    cases h

variable (context t)

theorem missing_scan : (scan context t).leaf.missing = false := by
  rcases scan_cases context t with ⟨-, hs⟩ | ⟨c, z, -, hs⟩ <;> rw [hs] <;> rfl

/-- A scanned leaf carries nothing that the parser or a client adds. -/
theorem bare_scan : (scan context t).leaf.bare = (scan context t).leaf := by
  have htraced := Leading.traced_read context.directives context.lineStart t
  have hbare : ∀ l : Leaf, (∀ d ∈ l.diagnostics, d.code ≠ .unexpectedToken) → l.annotations = [] →
      l.bare = l := by
    intro l hd ha
    have hfilter : l.diagnostics.filter (·.code ≠ .unexpectedToken) = l.diagnostics :=
      List.filter_eq_self.2 fun d h => by simpa using hd d h
    rw [Leaf.bare, hfilter, ← ha]
  rcases scan_cases context t with ⟨-, hs⟩ | ⟨c, z, -, hs⟩ <;> rw [hs] <;> refine hbare _ (fun d hd => ?_) rfl
  · rcases List.mem_append.1 hd with hd | hd
    · exact htraced.codes d hd
    · split at hd
      · exact List.mem_singleton.1 hd ▸ Code.noConfusion
      · cases hd
  · rcases List.mem_append.1 hd with hd | hd
    · rcases List.mem_append.1 hd with hd | hd
      · exact htraced.codes d hd
      · intro hcode
        have := RawToken.code_complain hd
        rw [hcode] at this
        exact absurd (RawToken.code_read_mem this) (by decide)
    · rw [Trailing.code_run d hd]
      decide

end Scans

end IncrementalSyntax

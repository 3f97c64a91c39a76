import IncrementalSyntax.Directive.Line
import IncrementalSyntax.Proofs.Text.Split

/-!
# What a directive complains of

A directive line reports one thing at most: it is wrong as a whole, or its condition cannot be read. What is reported
covers whole characters of the line, without its terminator. All of it has a code of the scanner, except where a symbol
to define or to undefine cannot be read.

## Main definitions

* `Text.Marks`: a range that covers whole characters of a text
* `DirectiveLine.Complains`: what a directive line may report

## Main results

* `DirectiveLine.complains_process`: what is reported of a line
* `DirectiveLine.Complains.cases`: how much it is, where it stands, and its code
-/

namespace IncrementalSyntax

/-! ## Parts of a text -/

namespace Text

/-- **Marks.** A range covers whole characters of a text. -/
def Marks (t : Text) (offset length : Nat) : Prop :=
  ∃ a b c, t = a ++ b ++ c ∧ width a = offset ∧ width b = length

namespace Marks

variable {t : Text} {offset length : Nat}

theorem whole (t : Text) : t.Marks 0 (width t) := ⟨[], t, [], by simp, rfl, rfl⟩

/-- A part of a text marks a part of every text around it. -/
theorem inside (h : t.Marks offset length) (u v : Text) : (u ++ t ++ v).Marks (width u + offset) length := by
  obtain ⟨a, b, c, rfl, rfl, rfl⟩ := h
  exact ⟨u ++ a, b, c ++ v, by simp, by simp, rfl⟩

theorem append (h : t.Marks offset length) (v : Text) : (t ++ v).Marks offset length := by
  simpa using h.inside [] v

theorem le_width (h : t.Marks offset length) : offset + length ≤ width t := by
  obtain ⟨a, b, c, rfl, rfl, rfl⟩ := h
  simp

theorem isBoundary (h : t.Marks offset length) :
    t.isBoundary offset = true ∧ t.isBoundary (offset + length) = true := by
  obtain ⟨a, b, c, rfl, rfl, rfl⟩ := h
  exact ⟨isBoundary_iff.2 ⟨a, b ++ c, by simp, rfl⟩, isBoundary_iff.2 ⟨a ++ b, c, rfl, by simp⟩⟩

end Marks

theorem prefix_trimEnd (t : Text) : t.trimEnd <+: t := by
  have hsuffix := (List.dropWhile_suffix isBlank (l := t.reverse)).reverse
  rwa [List.reverse_reverse] at hsuffix

end Text

/-! ## Lines -/

namespace DirectiveLine

variable {line : Text} {s : DirectiveState} {o : Outcome} {d : Diagnostic}

theorem prefix_withoutComment (t : Text) : withoutComment t <+: t := by
  fun_induction withoutComment t with
  | case1 t => exact List.nil_prefix
  | case2 c t _ ih => exact List.cons_prefix_cons.2 ⟨rfl, ih⟩
  | case3 => exact List.nil_prefix

theorem suffix_rest (line : Text) : rest line <:+ line := by
  have hbody : body line <:+ line := by
    unfold body Condition.skipBlanks
    refine (List.dropWhile_suffix _).trans ?_
    split
    · exact List.suffix_cons _ _
    · exact List.suffix_refl _
  exact (List.dropWhile_suffix _).trans hbody

/-- The condition of a line, without the blanks behind it, is a part of the line. -/
theorem marks_condition (line : Text) :
    line.Marks (nameEnd line) (Text.width (withoutComment (rest line)).trimEnd) := by
  obtain ⟨before, hbefore⟩ := suffix_rest line
  obtain ⟨after, hafter⟩ := (Text.prefix_trimEnd (withoutComment (rest line))).trans (prefix_withoutComment (rest line))
  have hwidth : nameEnd line = Text.width before := by
    have hline := congrArg Text.width hbefore
    rw [Text.width_append] at hline
    rw [nameEnd, ← hline, Nat.add_sub_cancel]
  exact ⟨before, _, after, by rw [List.append_assoc, hafter, hbefore], hwidth.symm, rfl⟩

/-- The line has no symbol where it should define or undefine one. -/
def LacksSymbol (line : Text) (o : Outcome) : Prop :=
  (o.kind = .define ∨ o.kind = .undef) ∧ isSymbol (symbolOf line) = false

/-- **Complains.** What a line may report in a state: nothing, itself, or a condition that cannot be read. -/
inductive Complains (line : Text) (s : DirectiveState) (o : Outcome) : Prop
  | nothing (h : o.diagnostics = [])
  | line {code : Code} {args : List String} (h : o.diagnostics = complain line code args)
      (hcode : code.isLexical = true ∨ code = .identifierExpected ∧ LacksSymbol line o)
  | condition (h : o.diagnostics = (condition line s).2)

theorem complains_processElif : Complains line s (processElif line s) := by
  unfold processElif
  split
  · exact .condition rfl
  · exact .line rfl (.inl rfl)

theorem complains_processElse : Complains line s (processElse line s) := by
  unfold processElse
  split
  · exact .nothing rfl
  · exact .line rfl (.inl rfl)

theorem complains_processEndif : Complains line s (processEndif line s) := by
  unfold processEndif
  split
  · exact .nothing rfl
  · exact .line rfl (.inl rfl)
  · exact .line rfl (.inl rfl)

theorem complains_processEndregion : Complains line s (processEndregion line s) := by
  unfold processEndregion
  split
  · exact .nothing rfl
  · exact .line rfl (.inl rfl)
  · exact .line rfl (.inl rfl)

theorem complains_processDefine : Complains line s (processDefine line s) := by
  unfold processDefine
  split
  · exact .nothing rfl
  · next h => exact .line rfl (.inr ⟨rfl, .inl rfl, Bool.eq_false_iff.2 h⟩)

theorem complains_processUndef : Complains line s (processUndef line s) := by
  unfold processUndef
  split
  · exact .nothing rfl
  · next h => exact .line rfl (.inr ⟨rfl, .inr rfl, Bool.eq_false_iff.2 h⟩)

/-- **What a directive line reports.** -/
theorem complains_process (line : Text) (s : DirectiveState) : Complains line s (process line s) := by
  unfold process
  dsimp only
  split
  · exact .condition rfl
  split
  · exact complains_processElif
  split
  · exact complains_processElse
  split
  · exact complains_processEndif
  split
  · exact .nothing rfl
  split
  · exact complains_processEndregion
  split
  · exact complains_processDefine
  split
  · exact complains_processUndef
  split
  · exact .line rfl (.inl rfl)
  split
  · exact .line rfl (.inl rfl)
  · exact .line rfl (.inl rfl)

theorem condition_cases (line : Text) (s : DirectiveState) : (condition line s).2 = [] ∨
    (condition line s).2 =
      [.ofCode .badCondition (nameEnd line) (Text.width (withoutComment (rest line)).trimEnd) []] := by
  unfold condition
  dsimp only
  split
  · exact .inl rfl
  · exact .inr rfl

/-- A line reports one thing at most. It covers whole characters of the line, and it has a code of the scanner, unless
it says about the whole line that a symbol is missing. -/
theorem Complains.cases (h : Complains line s o) : o.diagnostics = [] ∨ ∃ d, o.diagnostics = [d] ∧
    line.Marks d.offset d.length ∧ (d.code.isLexical = true ∨
      d.code = .identifierExpected ∧ d.offset = 0 ∧ d.length = Text.width line ∧ LacksSymbol line o) := by
  cases h with
  | nothing h => exact .inl h
  | line h hcode =>
    exact .inr ⟨_, h, .whole line, hcode.imp_right fun ⟨hident, hlacks⟩ => ⟨hident, rfl, rfl, hlacks⟩⟩
  | condition h =>
    rcases condition_cases line s with hnone | hone
    · exact .inl (h.trans hnone)
    · exact .inr ⟨_, h.trans hone, marks_condition line, .inl rfl⟩

theorem Complains.length_le (h : Complains line s o) : o.diagnostics.length ≤ 1 := by
  obtain hnone | ⟨d, hone, -⟩ := h.cases
  · simp [hnone]
  · simp [hone]

theorem Complains.of_mem (h : Complains line s o) (hd : d ∈ o.diagnostics) :
    line.Marks d.offset d.length ∧ (d.code.isLexical = true ∨
      d.code = .identifierExpected ∧ d.offset = 0 ∧ d.length = Text.width line ∧ LacksSymbol line o) := by
  obtain hnone | ⟨e, hone, he⟩ := h.cases
  · rw [hnone] at hd
    cases hd
  · rw [hone] at hd
    rwa [List.mem_singleton.1 hd]

end DirectiveLine

end IncrementalSyntax

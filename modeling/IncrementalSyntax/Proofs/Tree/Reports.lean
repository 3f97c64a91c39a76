import IncrementalSyntax.Proofs.Tree.Origins

/-!
# The reports of a tree

A tree reports what its leaves carry, one leaf after the other. Each diagnostic covers whole characters of its leaf, so
each report covers whole characters of the text, and what a directive complains of stays in its line. The reports come
in the order of the text, except that the parser puts its own diagnostic of a skipped token behind those of a comment
which begins behind that token and is not closed.

## Main definitions

* `Leaf.reportAll`: the reports of leaves in a row
* `Code.directiveCodes`: the codes that a directive can have

## Main results

* `Leaf.pairwise_reportAll`: the reports are in order just if the diagnostics of each leaf are
* `Session.reports_inside`: where the reports of a tree stand
* `Session.reports_inOrder`: in which order they come
-/

namespace IncrementalSyntax

namespace Leaf

/-! ## Leaves in a row -/

/-- The reports of some diagnostics of each of some leaves, the first of which stands at an offset. -/
def reportAll (f : Leaf → List Diagnostic) : Nat → List Leaf → List Report
  | _, [] => []
  | start, l :: ls => (f l).map (·.reportAt start) ++ reportAll f (start + l.width) ls

variable {f : Leaf → List Diagnostic} {start : Nat} {ls : List Leaf} {r : Report}

/-- A report is one of a leaf where it stands. -/
theorem exists_of_mem_reportAll (h : r ∈ reportAll f start ls) :
    ∃ before l after d, ls = before ++ l :: after ∧ d ∈ f l ∧ r = d.reportAt (start + widthAll before) := by
  induction ls generalizing start with
  | nil => cases h
  | cons l ls ih =>
    rcases List.mem_append.1 h with h | h
    · obtain ⟨d, hd, rfl⟩ := List.mem_map.1 h
      exact ⟨[], l, ls, d, rfl, hd, rfl⟩
    · obtain ⟨before, k, after, d, rfl, hd, rfl⟩ := ih h
      refine ⟨l :: before, k, after, d, rfl, hd, ?_⟩
      rw [widthAll_cons, Nat.add_assoc]

/-- **Order.** If no diagnostic begins behind its leaf, the reports are in order just if those of each leaf are. -/
theorem pairwise_reportAll (hinside : ∀ l ∈ ls, ∀ d ∈ f l, d.offset ≤ l.width) :
    (reportAll f start ls).Pairwise (fun r r' => r.range.start ≤ r'.range.start) ↔
      ∀ l ∈ ls, Diagnostic.InOrder (f l) := by
  induction ls generalizing start with
  | nil => simp [reportAll]
  | cons l ls ih =>
    obtain ⟨hl, hls⟩ := List.forall_mem_cons.1 hinside
    have hhead : ((f l).map (·.reportAt start)).Pairwise (fun r r' => r.range.start ≤ r'.range.start) ↔
        Diagnostic.InOrder (f l) := by
      rw [List.pairwise_map, Diagnostic.InOrder]
      simp [Diagnostic.reportAt]
    -- all that is reported in this leaf begins no later than the next leaf
    have hcross : ∀ r ∈ (f l).map (·.reportAt start), ∀ r' ∈ reportAll f (start + l.width) ls,
        r.range.start ≤ r'.range.start := by
      intro r hr r' hr'
      obtain ⟨d, hd, rfl⟩ := List.mem_map.1 hr
      obtain ⟨before, k, after, d', -, -, rfl⟩ := exists_of_mem_reportAll hr'
      have hle := hl d hd
      show start + d.offset ≤ start + l.width + widthAll before + d'.offset
      omega
    rw [reportAll, List.pairwise_append, hhead, ih hls, List.forall_mem_cons]
    exact ⟨fun h => ⟨h.1, h.2.1⟩, fun h => ⟨h.1, h.2, hcross⟩⟩

theorem filter_reportAll (p : Code → Bool) : (reportAll f start ls).filter (fun r => p r.code) =
    reportAll (fun l => (f l).filter fun d => p d.code) start ls := by
  induction ls generalizing start with
  | nil => rfl
  | cons l ls ih =>
    rw [reportAll, reportAll, List.filter_append, ih, List.filter_map]
    rfl

end Leaf

/-- A tree reports what its leaves carry. -/
theorem Red.reports_ofRoot_eq {g : Green} (h : g.Exact) :
    (ofRoot g).reports = Leaf.reportAll Leaf.diagnostics 0 g.leaves := by
  have hall : ∀ (ts : List Token) (start : Nat), (Green.placeTokens start ts).flatMap (fun p => tokenReports p.1 p.2) =
      Leaf.reportAll Leaf.diagnostics start (ts.map Token.leaf) := by
    intro ts
    induction ts with
    | nil => exact fun _ => rfl
    | cons t ts ih =>
      intro start
      rw [Green.placeTokens, List.flatMap_cons, ih, List.map_cons, Leaf.reportAll, tokenReports]
  rw [reports_ofRoot h]
  exact hall g.tokens 0

/-! ## One leaf -/

/-- The codes that a directive can have. -/
def Code.directiveCodes : List Code :=
  [.identifierExpected, .closerExpected, .strayDirective, .badCondition, .unknownDirective, .reportedError,
    .reportedWarning]

/-- What a directive reports stands in its line; the missing end of one is reported at the end of the text. -/
theorem Leaf.Reports.in_line {s : DirectiveState} {l : Leaf} {own : List Diagnostic} (h : l.Reports s own)
    {d : Diagnostic} (hd : d ∈ l.diagnostics) (hcode : d.code ∈ Code.directiveCodes) :
    (l.kind = .token .eof ∧ ∃ closer, d = .ofCode .closerExpected l.leadingWidth 0 [closer]) ∨
      ∃ before p after s, l.leading = before ++ p :: after ∧ p.isDirective = true ∧
        d ∈ p.complaint s (Trivia.widthAll before) ∧ Trivia.widthAll before ≤ d.offset ∧
        d.offset + d.length ≤ Trivia.widthAll before + p.text.line.width := by
  rcases h.cases hd with ⟨before, p, after, hsplit, hdirective, hp⟩ | hopen | hown | hcloser
  · obtain ⟨n, hn, hmarks⟩ := Trivia.marks_line (h.signed_leading p (by simp [hsplit])) hdirective hp
    have hle := hmarks.le_width
    exact .inr ⟨before, p, after, _, hsplit, hdirective, hp, by omega, by omega⟩
  · rw [hopen] at hcode
    exact absurd hcode (by decide)
  · refine absurd hcode ?_
    revert hown
    cases d.code <;> decide
  · exact .inl hcloser

/-- The parser has not reported anything in a bare leaf. -/
theorem Leaf.code_ne_of_bare {l : Leaf} (h : l.bare = l) {d : Diagnostic} (hd : d ∈ l.diagnostics) :
    d.code ≠ .unexpectedToken := by
  rw [← h] at hd
  exact of_decide_eq_true (List.mem_filter.1 hd).2

namespace Leaf.Origin

variable {l : Leaf} {d : Diagnostic}

/-- What a leaf of a tree carries covers whole characters of it. -/
theorem marks (h : l.Origin) (hd : d ∈ l.diagnostics) : l.fullText.Marks d.offset d.length := by
  cases h with
  | absent h =>
    rw [h] at hd ⊢
    rw [List.mem_singleton.1 hd]
    exact .whole []
  | @scanned c t h =>
    obtain ⟨own, hreports⟩ := reports_scan c t
    exact (h ▸ hreports).marks hd
  | @skipped c t h =>
    obtain ⟨own, hreports⟩ := reports_scan c t
    rw [h] at hd ⊢
    rcases List.mem_append.1 hd with hd | hd
    · exact hreports.marks hd
    · rw [List.mem_singleton.1 hd]
      exact ⟨_, (scan c t).leaf.text, _, rfl, (Trivia.widthAll_eq _).symm, rfl⟩

/-- What was scanned is in order. -/
theorem inOrder_bare (h : l.Origin) : Diagnostic.InOrder l.bare.diagnostics := by
  cases h with
  | absent h =>
    rw [h]
    exact Diagnostic.inOrder_of_length_le (List.length_filter_le _ _)
  | @scanned c t h =>
    obtain ⟨own, hreports⟩ := reports_scan c t
    rw [h, bare_scan]
    exact hreports.inOrder
  | @skipped c t h =>
    obtain ⟨own, hreports⟩ := reports_scan c t
    rw [h, Parse.bare_unexpected, bare_scan]
    exact hreports.inOrder

/-- The diagnostic of the parser is the last one, so that a comment behind the text of the token must not be open. -/
theorem inOrder_iff (h : l.Origin) : Diagnostic.InOrder l.diagnostics ↔ ∀ d ∈ l.diagnostics, ∀ d' ∈ l.diagnostics,
    d.code = .unexpectedToken → d'.code = .openComment → d'.offset ≤ d.offset := by
  cases h with
  | @absent kind code args h =>
    have hone : l.diagnostics = [.ofCode code 0 0 args] := congrArg Leaf.diagnostics h
    refine iff_of_true (hone ▸ Diagnostic.inOrder_of_length_le le_rfl) fun d hd d' hd' _ _ => ?_
    rw [hone] at hd hd'
    rw [List.mem_singleton.1 hd, List.mem_singleton.1 hd']
  | @scanned c t h =>
    obtain ⟨own, hreports⟩ := reports_scan c t
    refine iff_of_true (h ▸ hreports.inOrder) fun d hd d' _ hcode _ => ?_
    rw [h] at hd
    exact absurd hcode (code_ne_of_bare (bare_scan c t) hd)
  | @skipped c t h =>
    obtain ⟨own, hreports⟩ := reports_scan c t
    let last : Diagnostic :=
      .ofCode .unexpectedToken (scan c t).leaf.leadingWidth (scan c t).leaf.textWidth [(scan c t).leaf.kind.describe]
    have hdiagnostics : l.diagnostics = (scan c t).leaf.diagnostics ++ [last] := congrArg Leaf.diagnostics h
    rw [hdiagnostics, Diagnostic.InOrder, List.pairwise_append]
    constructor
    · rintro ⟨-, -, hcross⟩ d hd d' hd' hcode hopen
      rcases List.mem_append.1 hd with hd | hd
      · exact absurd hcode (code_ne_of_bare (bare_scan c t) hd)
      · rw [List.mem_singleton.1 hd]
        rcases List.mem_append.1 hd' with hd' | hd'
        · exact hcross d' hd' last (List.mem_singleton_self last)
        · rw [List.mem_singleton.1 hd']
    · intro hcomments
      refine ⟨hreports.inOrder, List.pairwise_singleton _ _, fun d hd e he => ?_⟩
      obtain rfl := List.mem_singleton.1 he
      rcases hreports.offset_le_or hd with hle | hopen
      · exact hle
      · exact hcomments last (by simp) d (List.mem_append_left _ hd) rfl hopen

/-- What a directive reports stands in its line; the missing end of one is reported at the end of the text. -/
theorem in_line (h : l.Origin) (hpresent : l.missing = false) (hd : d ∈ l.diagnostics)
    (hcode : d.code ∈ Code.directiveCodes) :
    (l.kind = .token .eof ∧ ∃ closer, d = .ofCode .closerExpected l.leadingWidth 0 [closer]) ∨
      ∃ before p after s, l.leading = before ++ p :: after ∧ p.isDirective = true ∧
        d ∈ p.complaint s (Trivia.widthAll before) ∧ Trivia.widthAll before ≤ d.offset ∧
        d.offset + d.length ≤ Trivia.widthAll before + p.text.line.width := by
  cases h with
  | absent h =>
    rw [h] at hpresent
    cases hpresent
  | @scanned c t h =>
    obtain ⟨own, hreports⟩ := reports_scan c t
    exact (h ▸ hreports).in_line hd hcode
  | @skipped c t h =>
    obtain ⟨own, hreports⟩ := reports_scan c t
    subst h
    rcases List.mem_append.1 hd with hd | hd
    · exact hreports.in_line hd hcode
    · rw [List.mem_singleton.1 hd] at hcode
      exact absurd hcode (by show Code.unexpectedToken ∉ Code.directiveCodes; decide)

end Leaf.Origin

/-! ## Trees -/

namespace Session

variable {allowed : Text → ChangeSet → Prop} {w : Workspace} {trees : List SyntaxTree} {made : List Snapshot}
variable {t : SyntaxTree}

/-- What a leaf of a tree carries covers whole characters of it. -/
theorem marks_leaf (h : Session allowed w trees made) (ht : t ∈ trees) {l : Leaf} (hl : l ∈ t.root.leaves)
    {d : Diagnostic} (hd : d ∈ l.diagnostics) : l.fullText.Marks d.offset d.length :=
  (h.origins ht l hl).marks hd

theorem offset_le_width (h : Session allowed w trees made) (ht : t ∈ trees) {l : Leaf} (hl : l ∈ t.root.leaves)
    {d : Diagnostic} (hd : d ∈ l.diagnostics) : d.offset + d.length ≤ l.width :=
  l.width_eq ▸ (h.marks_leaf ht hl hd).le_width

theorem reports_eq (h : Session allowed w trees made) (ht : t ∈ trees) :
    t.reports = Leaf.reportAll Leaf.diagnostics 0 t.root.leaves :=
  Red.reports_ofRoot_eq (h.valid.2 t ht).1.old.fine.exact

/-- **Every diagnostic stays inside its token.** So every report lies in the text and covers whole characters of it.
What a directive reports stands in its line. -/
theorem reports_inside (h : Session allowed w trees made) (ht : t ∈ trees) :
    (∀ l ∈ t.root.leaves, ∀ d ∈ l.diagnostics, d.offset + d.length ≤ l.width) ∧
    (∀ r ∈ t.reports, r.range.stop ≤ t.text.width ∧ t.text.isBoundary r.range.start = true ∧
      t.text.isBoundary r.range.stop = true) ∧
    ∀ l ∈ t.root.leaves, l.missing = false → ∀ d ∈ l.diagnostics, d.code ∈ Code.directiveCodes →
      (l.kind = .token .eof ∧ ∃ closer, d = .ofCode .closerExpected l.leadingWidth 0 [closer]) ∨
      ∃ before p after s, l.leading = before ++ p :: after ∧ p.isDirective = true ∧
        d ∈ p.complaint s (Trivia.widthAll before) ∧ Trivia.widthAll before ≤ d.offset ∧
        d.offset + d.length ≤ Trivia.widthAll before + p.text.line.width := by
  refine ⟨fun l hl d hd => h.offset_le_width ht hl hd, fun r hr => ?_, fun l hl hpresent d hd hcode => ?_⟩
  · rw [h.reports_eq ht] at hr
    obtain ⟨before, l, after, d, hsplit, hd, rfl⟩ := Leaf.exists_of_mem_reportAll hr
    have htext : t.text = Leaf.textAll before ++ l.fullText ++ Leaf.textAll after := by
      have hroot : t.root.text = t.text := (h.valid.2 t ht).1.old.text_eq
      have hleaves : t.root.text = Leaf.textAll t.root.leaves := by
        rw [Green.text, Leaf.textAll, Green.leaves, List.flatMap_map]
      rw [← hroot, hleaves, hsplit]
      simp
    have hmarks : t.text.Marks (Leaf.widthAll before + d.offset) d.length := by
      rw [htext, Leaf.widthAll_eq]
      exact (h.marks_leaf ht (hsplit ▸ by simp) hd).inside _ _
    have hstart : (d.reportAt (0 + Leaf.widthAll before)).range = ⟨Leaf.widthAll before + d.offset, d.length⟩ := by
      rw [Nat.zero_add]
      rfl
    rw [hstart]
    exact ⟨hmarks.le_width, hmarks.isBoundary⟩
  · exact (h.origins ht l hl).in_line hpresent hd hcode

/-- A directive without an `#if`, and a comment behind a skipped token. -/
theorem reports_inside_stray : ∃ (w : Workspace) (trees : List SyntaxTree) (made : List Snapshot) (t : SyntaxTree),
    Session (fun _ _ => True) w trees made ∧ t ∈ trees ∧ t.text = "#else\n) /* é".toList ∧
      t.reports.map (fun r => (r.code, r.range)) =
        [(.strayDirective, ⟨0, 5⟩), (.openComment, ⟨8, 5⟩), (.unexpectedToken, ⟨6, 1⟩)] ∧
      (∀ l ∈ t.root.leaves, ∀ d ∈ l.diagnostics, d.offset + d.length ≤ l.width) ∧
      ∀ r ∈ t.reports, r.range.stop ≤ t.text.width ∧ t.text.isBoundary r.range.start = true ∧
        t.text.isBoundary r.range.stop = true := by
  let text : Text := "#else\n) /* é".toList
  let t : SyntaxTree := (SyntaxTree.ofText {} text {} .compilationUnit).1
  have h : Session (fun _ _ => True) _ [t] [t.snapshot] := .parse text {} .compilationUnit .start
  have ht : t ∈ [t] := List.mem_singleton_self t
  have hinside := h.reports_inside ht
  exact ⟨_, _, _, t, h, ht, rfl, by decide +kernel, hinside.1, hinside.2.1⟩

/-- **The order of the reports.** The reports of a tree come in the order of the text just if no token that was skipped
has an open comment behind its text. Those of the scanner and those of missing tokens always do. -/
theorem reports_inOrder (h : Session allowed w trees made) (ht : t ∈ trees) :
    (t.reports.Pairwise (fun r r' => r.range.start ≤ r'.range.start) ↔
      ∀ l ∈ t.root.leaves, ∀ d ∈ l.diagnostics, ∀ d' ∈ l.diagnostics,
        d.code = .unexpectedToken → d'.code = .openComment → d'.offset ≤ d.offset) ∧
    (t.reports.filter fun r => r.code ≠ .unexpectedToken).Pairwise fun r r' => r.range.start ≤ r'.range.start := by
  have hinside : ∀ l ∈ t.root.leaves, ∀ d ∈ l.diagnostics, d.offset ≤ l.width := fun l hl d hd =>
    (Nat.le_add_right _ _).trans (h.offset_le_width ht hl hd)
  rw [h.reports_eq ht]
  constructor
  · rw [Leaf.pairwise_reportAll hinside]
    exact forall₂_congr fun l hl => (h.origins ht l hl).inOrder_iff
  · rw [Leaf.filter_reportAll fun code => code ≠ .unexpectedToken]
    refine (Leaf.pairwise_reportAll fun l hl d hd => hinside l hl d (List.mem_filter.1 hd).1).2 fun l hl => ?_
    exact (h.origins ht l hl).inOrder_bare

/-- A comment in front of a token that is skipped, and a class without a name. -/
theorem reports_inOrder_skipped : ∃ (w : Workspace) (trees : List SyntaxTree) (made : List Snapshot) (t : SyntaxTree),
    Session (fun _ _ => True) w trees made ∧ t ∈ trees ∧ t.text = "#else\n) class { } /*".toList ∧
      t.reports.length = 4 ∧ t.reports.Pairwise fun r r' => r.range.start ≤ r'.range.start := by
  let text : Text := "#else\n) class { } /*".toList
  let t : SyntaxTree := (SyntaxTree.ofText {} text {} .compilationUnit).1
  have h : Session (fun _ _ => True) _ [t] [t.snapshot] := .parse text {} .compilationUnit .start
  have ht : t ∈ [t] := List.mem_singleton_self t
  exact ⟨_, _, _, t, h, ht, rfl, by decide +kernel, (h.reports_inOrder ht).1.2 (by decide +kernel)⟩

/-- The comment begins behind the token, but it is reported first. -/
theorem exists_reports_not_inOrder : ∃ (w : Workspace) (trees : List SyntaxTree) (made : List Snapshot)
    (t : SyntaxTree), Session (fun _ _ => True) w trees made ∧ t ∈ trees ∧ t.text = ") /* x".toList ∧
      t.reports.map (fun r => (r.code, r.range.start)) = [(.openComment, 2), (.unexpectedToken, 0)] ∧
      ¬t.reports.Pairwise fun r r' => r.range.start ≤ r'.range.start := by
  let text : Text := ") /* x".toList
  let t : SyntaxTree := (SyntaxTree.ofText {} text {} .compilationUnit).1
  have h : Session (fun _ _ => True) _ [t] [t.snapshot] := .parse text {} .compilationUnit .start
  exact ⟨_, _, _, t, h, List.mem_singleton_self t, rfl, by decide +kernel, by decide +kernel⟩

end Session

end IncrementalSyntax

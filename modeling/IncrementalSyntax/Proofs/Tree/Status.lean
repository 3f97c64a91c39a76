import IncrementalSyntax.Proofs.Grammar.StepsMembers
import IncrementalSyntax.Proofs.Red.Places
import IncrementalSyntax.Proofs.Tree.Session

/-!
# The status of a tree

A parse has come to an unexpected end if a token was missing when no tokens were left. From there on only missing
tokens are emitted, so the status can be read off the tree: behind some missing token no token of the text comes.

## Main definitions

* `Leaf.IsAbsent`: a missing token as the parser makes it up
* `EndsEarly`: leaves with a missing one behind which the text has ended
* `Parse.Tells`: what the leaves emitted between two states tell about the status

## Main results

* `Parse.Steps.tells`: steps tell the status
* `Session.status_spec`: the status of a tree and its missing tokens
-/

namespace IncrementalSyntax

open Green (leavesAll leavesAll_append scannedAll)

/-- A missing token as the parser makes it up: no text, and one diagnostic of no width at its start. -/
def Leaf.IsAbsent (l : Leaf) : Prop := ∃ kind code args, l = .absent kind (.ofCode code 0 0 args)

/-- **Ends early.** Behind some missing leaf all leaves are missing, but those that end the text. -/
def EndsEarly (ls : List Leaf) : Prop :=
  ∃ before l behind, ls = before ++ l :: behind ∧ l.missing = true ∧
    ∀ k ∈ behind, k.missing = false → k.tokenKind = .eof

/-- Whether the last of some leaves is missing. -/
def lastIsMissing (ls : List Leaf) : Bool := ls.getLast?.any Leaf.missing

theorem lastIsMissing_append {as bs : List Leaf} (h : bs ≠ []) : lastIsMissing (as ++ bs) = lastIsMissing bs := by
  obtain ⟨init, l, rfl⟩ := List.eq_nil_or_concat bs |>.resolve_left h
  simp [lastIsMissing, ← List.append_assoc]

theorem lastIsMissing_of_forall {ls : List Leaf} (hne : ls ≠ []) (h : ∀ l ∈ ls, l.missing = true) :
    lastIsMissing ls = true := by
  obtain ⟨init, l, rfl⟩ := List.eq_nil_or_concat ls |>.resolve_left hne
  simpa [lastIsMissing] using h l (by simp)

theorem lastIsMissing_eq_false {ls : List Leaf} (h : ∀ l ∈ ls, l.missing = false) : lastIsMissing ls = false := by
  rcases List.eq_nil_or_concat ls with rfl | ⟨init, l, rfl⟩
  · rfl
  · simpa [lastIsMissing] using h l (by simp)

/-- If none but the last leaf ends the text, and this one is not missing, the leaves end early just if the one in front
of it is missing. -/
theorem endsEarly_concat_iff {ls : List Leaf} {last : Leaf} (hlast : last.missing = false)
    (hkind : last.tokenKind = .eof)
    (hls : ∀ l ∈ ls, l.missing = false → l.tokenKind ≠ .eof) :
    EndsEarly (ls ++ [last]) ↔ lastIsMissing ls = true := by
  constructor
  · rintro ⟨before, l, behind, heq, hl, hbehind⟩
    rcases List.eq_nil_or_concat behind with rfl | ⟨init, k, rfl⟩
    · -- the last leaf is not the missing one
      obtain ⟨-, rfl⟩ : ls = before ∧ last = l := by simpa using heq
      rw [hlast] at hl
      cases hl
    · have hsplit : ls ++ [last] = (before ++ l :: init) ++ [k] := by rw [heq, List.concat_eq_append]; simp
      obtain ⟨rfl, -⟩ := List.append_inj' hsplit rfl
      rw [lastIsMissing_append (List.cons_ne_nil _ _)]
      refine lastIsMissing_of_forall (List.cons_ne_nil _ _) (List.forall_mem_cons.2 ⟨hl, fun k hk => ?_⟩)
      by_contra hm
      have hm := Bool.eq_false_iff.2 hm
      exact hls k (by simp [hk]) hm (hbehind k (by simp [hk]) hm)
  · intro h
    rcases List.eq_nil_or_concat ls with rfl | ⟨init, l, rfl⟩
    · cases h
    · refine ⟨init, l, [last], by simp, by simpa [lastIsMissing] using h, fun k hk _ => ?_⟩
      rw [List.mem_singleton.1 hk, hkind]

/-- Annotations do not matter. -/
theorem EndsEarly.of_unannotated {ls ks : List Leaf} (heq : ls.map Leaf.unannotated = ks.map Leaf.unannotated)
    (h : EndsEarly ls) : EndsEarly ks := by
  obtain ⟨before, l, behind, rfl, hl, hbehind⟩ := h
  rw [List.map_append, List.map_cons] at heq
  obtain ⟨before', rest, rfl, -, hrest⟩ := List.map_eq_append_iff.1 heq.symm
  obtain ⟨l', behind', rfl, hl', hbehind'⟩ := List.map_eq_cons_iff.1 hrest
  refine ⟨before', l', behind', rfl, (congrArg Leaf.missing hl').trans hl, fun k' hk' hm => ?_⟩
  have hmem : k'.unannotated ∈ behind.map Leaf.unannotated := hbehind' ▸ List.mem_map_of_mem hk'
  obtain ⟨k, hk, hsame⟩ := List.mem_map.1 hmem
  have hkind : k.unannotated.tokenKind = k'.unannotated.tokenKind := congrArg Leaf.tokenKind hsame
  have hmissing : k.unannotated.missing = k'.unannotated.missing := congrArg Leaf.missing hsame
  exact hkind.symm.trans (hbehind k hk (hmissing.trans hm))

namespace Parse

variable {version : LanguageVersion} {σ : Type} [TokenSource σ] {S : Supply version σ}
variable {p p' p'' : Parser σ} {lists lists' : List ListContext} {emitted emitted' : List Leaf}

/-! ## What steps tell -/

/-- What was emitted between two states stands for the tokens that were taken. -/
theorem Kept.exists_taken (h : Kept S p p') (hout : leavesAll p'.out = leavesAll p.out ++ emitted) :
    ∃ taken, S.upcoming p.source = taken ++ S.upcoming p'.source ∧
      (emitted.filter fun l => !l.missing).map Leaf.bare = taken.map Leaf.bare := by
  obtain ⟨taken, htaken, hscanned, -⟩ := h.taken
  refine ⟨taken, htaken, ?_⟩
  rw [scannedAll, scannedAll, hout, List.filter_append, List.map_append] at hscanned
  exact List.append_cancel_left hscanned

/-- Once the text has ended only missing tokens are emitted. -/
theorem Kept.ended (h : Kept S p p') (hp : Ready S p) (hout : leavesAll p'.out = leavesAll p.out ++ emitted)
    (hfront : front S p = .eof) : front S p' = .eof ∧ ∀ l ∈ emitted, l.missing = true := by
  obtain ⟨taken, htaken, hemitted⟩ := h.exists_taken hout
  -- only the token that ends the text is left, and it is never taken
  have hone : S.upcoming p.source = [(TokenSource.next p.source).1.leaf] :=
    S.next_of_eq hp.ok (by rwa [← S.frontKind_upcoming hp.ok])
  obtain rfl : taken = [] := by
    have hlength := congrArg List.length (htaken.symm.trans hone)
    have hpos := List.length_pos_of_ne_nil (S.upcoming_ne_nil h.ready.ok)
    rw [List.length_append, List.length_singleton] at hlength
    exact List.length_eq_zero_iff.1 (by omega)
  refine ⟨?_, fun l hl => ?_⟩
  · rw [front, ← List.nil_append (S.upcoming p'.source), ← htaken]
    exact hfront
  · by_contra hm
    have hmem : l ∈ emitted.filter fun l => !l.missing := List.mem_filter.2 ⟨hl, by simpa using hm⟩
    rw [List.map_nil, List.map_eq_nil_iff] at hemitted
    rw [hemitted] at hmem
    cases hmem

variable (S) in
/-- **Tells.** Between two states some leaves were emitted. Those that are missing are made up, and the text has ended
unexpectedly in between just if it has ended and the last of the leaves is missing. -/
structure Tells (p p' : Parser σ) (emitted : List Leaf) : Prop where
  out : leavesAll p'.out = leavesAll p.out ++ emitted
  absent : ∀ l ∈ emitted, l.missing = true → l.IsAbsent
  status : p'.status = .unexpectedEnd ↔
    p.status = .unexpectedEnd ∨ front S p' = .eof ∧ lastIsMissing emitted = true

namespace Tells

theorem trans (h : Tells S p p' emitted) (h' : Tells S p' p'' emitted') (hk : Kept S p p') (hk' : Kept S p' p'') :
    Tells S p p'' (emitted ++ emitted') where
  out := by rw [h'.out, h.out, List.append_assoc]
  absent l hl := (List.mem_append.1 hl).elim (h.absent l) (h'.absent l)
  status := by
    rw [h'.status, h.status]
    constructor
    · rintro ((hst | ⟨hfront, hlast⟩) | ⟨hfront, hlast⟩)
      · exact .inl hst
      · -- the text had ended in between, so only missing tokens were emitted since then
        obtain ⟨hfront', hmissing⟩ := hk'.ended hk.ready h'.out hfront
        refine .inr ⟨hfront', ?_⟩
        by_cases hnil : emitted' = []
        · rwa [hnil, List.append_nil]
        · rw [lastIsMissing_append hnil]
          exact lastIsMissing_of_forall hnil hmissing
      · have hnil : emitted' ≠ [] := by
          rintro rfl
          cases hlast
        exact .inr ⟨hfront, by rwa [lastIsMissing_append hnil]⟩
    · rintro (hst | ⟨hfront, hlast⟩)
      · exact .inl (.inl hst)
      -- the last leaf was emitted in the second part, or else no token was taken there
      by_cases hnil : emitted' = []
      · subst hnil
        obtain ⟨taken, htaken, hemitted⟩ := hk'.exists_taken h'.out
        obtain rfl : taken = [] := List.map_eq_nil_iff.1 hemitted.symm
        rw [List.append_nil] at hlast
        exact .inl (.inr ⟨(congrArg frontKind htaken).trans hfront, hlast⟩)
      · rw [lastIsMissing_append hnil] at hlast
        exact .inr ⟨hfront, hlast⟩

/-- Leaves that are not missing tell nothing. -/
theorem of_present (hout : leavesAll p'.out = leavesAll p.out ++ emitted) (hpresent : ∀ l ∈ emitted, l.missing = false)
    (hstatus : p'.status = p.status) : Tells S p p' emitted where
  out := hout
  absent l hl hm := by
    rw [hpresent l hl] at hm
    cases hm
  status := by simp [hstatus, lastIsMissing_eq_false hpresent]

theorem missing (hp : Ready S p) (kind : TokenKind) (code : Code) :
    Tells S p (missing kind code p).2
      [.absent kind (.ofCode code 0 0 (if code = .tokenExpected then [Kind.describe kind] else []))] := by
  rw [missing_apply]
  refine ⟨by simp, fun l hl _ => ?_, ?_⟩
  · exact ⟨_, _, _, List.mem_singleton.1 hl⟩
  · have hfront : frontKind (S.upcoming (TokenSource.fresh p.source).2) =
        (TokenSource.next p.source).1.leaf.tokenKind := by
      rw [(S.fresh hp.ok).2, S.frontKind_upcoming hp.ok]
    show (if _ then _ else _) = _ ↔ _ ∨ frontKind (S.upcoming (TokenSource.fresh p.source).2) = .eof ∧ _
    rw [hfront]
    split <;> simp_all [lastIsMissing, Leaf.absent]

theorem skipToRecovery (hp : Ready S p) : ∃ emitted, Tells S p (skipToRecovery p).2 emitted := by
  rcases skipToRecovery_spec hp with ⟨-, heq⟩ | ⟨id, id', l, rest, s, heq, hup, -, -⟩
  · exact ⟨[], heq ▸ of_present (by simp) (by simp) rfl⟩
  · have hpresent : ∀ k ∈ l :: rest.map Token.leaf, k.missing = false := fun k hk =>
      S.missing_eq_false hp.ok k (hup ▸ List.mem_append_left _ hk)
    refine ⟨unexpected l :: rest.map Token.leaf, heq ▸ of_present ?_ ?_ rfl⟩
    · simp
    · exact List.forall_mem_cons.2 ⟨(List.forall_mem_cons.1 hpresent).1, (List.forall_mem_cons.1 hpresent).2⟩

end Tells

/-- **The status.** What steps emit tells whether the text has ended unexpectedly on the way. -/
theorem Steps.tells (h : Steps S lists p lists' p') (hp : Ready S p) : ∃ emitted, Tells S p p' emitted := by
  induction h with
  | refl => exact ⟨[], .of_present (by simp) (by simp) rfl⟩
  | trans h h' ih ih' =>
    have hk := h.kept hp
    obtain ⟨emitted, htells⟩ := ih hp
    obtain ⟨emitted', htells'⟩ := ih' hk.ready
    exact ⟨_, htells.trans htells' hk (h'.kept hk.ready)⟩
  | @bump _ p h =>
    refine ⟨[(TokenSource.next p.source).1.leaf], .of_present ?_ ?_ rfl⟩
    · show leavesAll (p.out ++ [.token _]) = _
      simp
    · simpa using S.present hp.ok
  | missing kind => exact ⟨_, .missing hp kind _⟩
  | @reuse _ p kinds g s hkinds h =>
    obtain ⟨-, -, -, -, hflagged, -, -, hfine⟩ := S.reuse hp.ok h
    refine ⟨g.leaves, .of_present (by simp) (fun l hl => ?_) rfl⟩
    -- a missing token has a diagnostic, which no node that is used again has
    by_contra hm
    exact hflagged ⟨l, by simpa using hl, (hfine.missing l hl (Bool.eq_true_of_not_eq_false hm)).2⟩
  | skip => exact Tells.skipToRecovery hp
  | @enclose _ p kind hskipped hif hgrouped =>
    refine ⟨[], .of_present ?_ (by simp) rfl⟩
    show leavesAll [.ofChildren _ _ p.out] = _
    simp
  | scope _ ih =>
    obtain ⟨emitted, hout, habsent, hstatus⟩ := ih ⟨hp.ok, hp.version⟩
    exact ⟨emitted, by simpa using hout, habsent, hstatus⟩
  | within _ ih =>
    obtain ⟨emitted, hout, habsent, hstatus⟩ := ih ⟨hp.ok, hp.version⟩
    exact ⟨emitted, hout, habsent, hstatus⟩

end Parse

/-! ## Whole trees -/

section Root

variable {version : LanguageVersion} {σ : Type} [TokenSource σ] {S : Supply version σ} {s : σ}

/-- The status of a parse can be read off its tree, and the missing tokens in it are made up. -/
theorem parse_status (h : S.Ok s) (entry : EntryPoint) :
    ((parse version entry s).status = .unexpectedEnd ↔ EndsEarly (parse version entry s).root.leaves) ∧
      ∀ l ∈ (parse version entry s).root.leaves, l.missing = true → l.IsAbsent := by
  obtain ⟨emitted, hout, habsent, hstatus⟩ := (Parse.steps_atEnd h entry).tells (ready_start h)
  have hk := kept_atEnd h entry
  have hlast : (TokenSource.next (Parser.atEnd version entry s).source).1.leaf.missing = false := S.present hk.ready.ok
  have hnil : leavesAll (Parser.atEnd version entry s).out = emitted := hout
  have hleaves : (parse version entry s).root.leaves =
      emitted ++ [(TokenSource.next (Parser.atEnd version entry s).source).1.leaf] := by
    rw [parse_eq]
    simp [hnil]
  -- the tokens that were taken do not end the text
  have hne : ∀ l ∈ emitted, l.missing = false → l.tokenKind ≠ .eof := by
    obtain ⟨taken, htaken, hemitted⟩ := hk.exists_taken hout
    intro l hl hm
    have hmem : l.bare ∈ taken.map Leaf.bare := hemitted ▸ List.mem_map_of_mem (List.mem_filter.2 ⟨hl, by simp [hm]⟩)
    obtain ⟨k, hk', hbare⟩ := List.mem_map.1 hmem
    rw [← Leaf.tokenKind_bare, ← hbare, Leaf.tokenKind_bare]
    exact S.tokenKind_ne_eof h (htaken.trans (congrArg _ (upcoming_atEnd h entry))) k hk'
  refine ⟨?_, fun l hl hm => ?_⟩
  · rw [hleaves, endsEarly_concat_iff hlast (tokenKind_next_atEnd h entry) hne, parse_eq, hstatus, front_atEnd h entry]
    simp [Parser.start]
  · rw [hleaves] at hl
    rcases List.mem_append.1 hl with hl | hl
    · exact habsent l hl hm
    · rw [List.mem_singleton.1 hl, hlast] at hm
      cases hm

end Root

/-- **Readable.** The status of a tree can be read off its leaves, and its missing tokens are made up. -/
structure SyntaxTree.Readable (t : SyntaxTree) : Prop where
  status : t.status = .unexpectedEnd ↔ EndsEarly t.root.leaves
  absent : ∀ l ∈ t.root.leaves, l.missing = true → l.unannotated.IsAbsent

namespace Leaf.IsAbsent

variable {l : Leaf}

theorem unannotated (h : l.IsAbsent) : l.unannotated.IsAbsent := by
  obtain ⟨kind, code, args, rfl⟩ := h
  exact ⟨kind, code, args, rfl⟩

theorem width_eq (h : l.unannotated.IsAbsent) : l.width = 0 := by
  obtain ⟨kind, code, args, heq⟩ := h
  have hwidth : l.unannotated.width = l.width := rfl
  rw [← hwidth, heq]
  rfl

theorem diagnostics_eq (h : l.unannotated.IsAbsent) : ∃ code args, l.diagnostics = [.ofCode code 0 0 args] := by
  obtain ⟨kind, code, args, heq⟩ := h
  exact ⟨code, args, congrArg Leaf.diagnostics heq⟩

end Leaf.IsAbsent

namespace SyntaxTree

theorem readable_ofCursor (snapshot : Snapshot) {options : Options} (entry : EntryPoint) {set : ChangeSet}
    {reuse : Option Reuse} {cursor : Cursor} (hat : cursor.At options.symbols snapshot.text set reuse [])
    (hsound : ∀ r, reuse = some r → r.old.root.SoundWherePlain options.version) :
    (ofCursor snapshot options entry cursor).1.Readable := by
  obtain ⟨hstatus, habsent⟩ := parse_status
    (S := Supply.ofCursor options.version options.symbols snapshot.text set reuse hsound) ⟨[], hat⟩ entry
  exact ⟨hstatus, fun l hl hm => (habsent l hl hm).unannotated⟩

/-- An annotated copy can be read like the original. -/
theorem Readable.of_annotated {t : SyntaxTree} {g : Green} (h : t.Readable) (hcopy : Green.Annotated t.root g) :
    ({ t with root := g } : SyntaxTree).Readable where
  status := h.status.trans ⟨.of_unannotated hcopy.leaves_eq.symm, .of_unannotated hcopy.leaves_eq⟩
  absent l hl hm := by
    have hmem : l.unannotated ∈ t.root.leaves.map Leaf.unannotated := hcopy.leaves_eq ▸ List.mem_map_of_mem hl
    obtain ⟨k, hk, hsame⟩ := List.mem_map.1 hmem
    have hmissing : k.unannotated.missing = l.unannotated.missing := congrArg Leaf.missing hsame
    exact hsame ▸ h.absent k hk (hmissing.trans hm)

end SyntaxTree

namespace Session

variable {allowed : Text → ChangeSet → Prop} {w : Workspace} {trees : List SyntaxTree} {made : List Snapshot}

theorem readable (h : Session allowed w trees made) : ∀ t ∈ trees, t.Readable :=
  h.forall_trees (fun snapshot _ entry _ _ _ hat hsound _ => SyntaxTree.readable_ofCursor snapshot entry hat hsound)
    fun _ _ _ ht hcopy => ht.of_annotated hcopy

/-- **The status of a tree.** A tree of a session has come to an unexpected end just if behind some missing token no
token comes but missing ones and the end of the text. A missing token has no width, and it carries one diagnostic,
which is reported where the token stands. -/
theorem status_spec (h : Session allowed w trees made) {t : SyntaxTree} (ht : t ∈ trees) :
    (t.status = .unexpectedEnd ↔ ∃ before l behind, t.root.leaves = before ++ l :: behind ∧ l.missing = true ∧
      ∀ k ∈ behind, k.missing = false → k.tokenKind = .eof) ∧
    ∀ r ∈ t.red.descendants, ∀ token, r.green = .token token → token.leaf.missing = true →
      r.fullRange = ⟨r.offset, 0⟩ ∧ ∃ d report, token.leaf.diagnostics = [d] ∧ r.reports = [report] ∧
        report.range = ⟨r.offset, 0⟩ := by
  obtain ⟨hstatus, habsent⟩ := h.readable t ht
  refine ⟨hstatus, fun r hr token htoken hm => ?_⟩
  have hmem : token.leaf ∈ t.root.leaves := by
    obtain ⟨before, heq⟩ := Red.exists_leaves_eq hr
    rw [heq, htoken]
    simp
  have hleaf := habsent _ hmem hm
  obtain ⟨code, args, hdiagnostics⟩ := hleaf.diagnostics_eq
  have hreports : r.reports = [(Diagnostic.ofCode code 0 0 args).reportAt r.offset] := by
    rw [Red.reports, htoken, if_pos (by simp [Green.flags, Leaf.flags, hdiagnostics])]
    simp [Green.tokensFrom, Green.tokens, Green.placeTokens, Red.tokenReports, hdiagnostics]
  refine ⟨?_, _, _, hdiagnostics, hreports, rfl⟩
  rw [Red.fullRange, htoken]
  exact congrArg (Range.mk r.offset) hleaf.width_eq

/-- The right side of an assignment is missing, in a tree that is made by an edit and annotated. -/
theorem status_spec_assignment : ∃ (w : Workspace) (trees : List SyntaxTree) (made : List Snapshot) (t : SyntaxTree),
    Session (fun _ _ => True) w trees made ∧ t ∈ trees ∧ t.text = ['a', '='] ∧ t.root.flags.annotations = true ∧
      t.status = .unexpectedEnd ∧ EndsEarly t.root.leaves := by
  let changes : ChangeSet := .single ⟨⟨1, 0⟩, ['=']⟩
  let w₀ : Workspace := (SyntaxTree.ofText {} ['a'] {} .statement).2
  let t₀ : SyntaxTree := (SyntaxTree.ofText {} ['a'] {} .statement).1
  have h₀ : Session (fun _ _ => True) w₀ [t₀] [t₀.snapshot] := .parse ['a'] {} .statement .start
  obtain ⟨t₁, w₁, hedit, htext, hstatus⟩ : ∃ t₁ w₁, t₀.edit w₀ changes = .ok (t₁, w₁) ∧ t₁.text = ['a', '='] ∧
      t₁.status = .unexpectedEnd :=
    ⟨(t₀.reparse ⟨['a', '='], 2, 1, some ⟨1, changes⟩⟩ changes w₀.pool).1, _, rfl, rfl, by decide +kernel⟩
  have h₁ := h₀.reparse (List.mem_singleton_self _) trivial (.edit hedit)
  obtain ⟨g, w₂, hannotate⟩ := t₁.exists_annotate_red w₁ ⟨0, "m", none⟩
  have hroot : t₁.red.follow? [] = some t₁.red := rfl
  have h₂ := h₁.annotate List.mem_cons_self hroot hannotate
  have hvalid := (h₁.valid.2 t₁ List.mem_cons_self).1
  have hcopy := (SyntaxTree.valid_annotate hvalid hroot hannotate).2.2.1
  exact ⟨_, _, _, _, h₂, List.mem_cons_self, htext, hcopy.annotations_eq_true hvalid.old.fine.exact, hstatus,
    (h₂.status_spec List.mem_cons_self).1.1 hstatus⟩

end Session

end IncrementalSyntax

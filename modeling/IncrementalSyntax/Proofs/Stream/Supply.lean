import IncrementalSyntax.Proofs.Grammar.Root
import IncrementalSyntax.Proofs.Stream.Cursor

/-!
# Cursors feed the parser

A cursor with a sound old tree is a supply: it feeds the tokens of the text from where it stands on, and a
node that it offers is one that the parser would build again out of its tokens. It is careful, so that no
`else` gets lost, if none got lost in the old tree and no text was added at the end of a line.

## Main definitions

* `Green.SoundWherePlain`: a tree whose statements and members are good where they carry no annotation
* `Supply.ofCursor`: the supply of a cursor

## Main results

* `Green.Good.missesElse_eq_false`: a node that is not open-ended misses no `else`
-/

namespace IncrementalSyntax

open Green hiding id

namespace Green

variable {version : LanguageVersion} {g : Green}

/-- All statements and members of a tree are good, but those with an annotation. -/
def SoundWherePlain (version : LanguageVersion) (g : Green) : Prop :=
  ∀ s, Sub s g → s.isUnit = true → s.flags.annotations = false → Good version s

theorem Sound.soundWherePlain (h : g.Sound version) : g.SoundWherePlain version := fun s hs hu _ => h s hs hu

/-- Below an element without annotations there are none. -/
theorem Exact.annotations_of_sub {root : Green} (h : root.Exact) (hsub : Sub g root)
    (ha : root.flags.annotations = false) : g.flags.annotations = false := by
  induction hsub with
  | self => exact ha
  | @child c hd cs hc _ ih =>
    refine ih (h.of_mem hc) ?_
    have hflags : (node hd cs).flags = hd.flags := rfl
    rw [hflags, h.1.flags] at ha
    have hall : (flagsAll cs).annotations = false := (Bool.or_eq_false_iff.1 ha).2
    rw [flagsAll_annotations, List.any_eq_false] at hall
    simpa using hall c hc

theorem SoundWherePlain.sound_of_sub {root : Green} (h : root.SoundWherePlain version) (hexact : root.Exact)
    (hsub : Sub g root) (ha : g.flags.annotations = false) : g.Sound version := by
  intro s hs hu
  have hg : g.Exact := by
    clear hs ha
    induction hsub with
    | self => exact hexact
    | child hc _ ih => exact ih (fun s hs => h s (.child hc hs)) (hexact.of_mem hc)
  exact h s (hs.trans hsub) hu (hg.annotations_of_sub hs ha)

/-- A node that its production builds again in front of an `else` has not missed it. -/
theorem missesElse_eq_false_of_replays {production : Nat → Parse TokenList Unit}
    (h : Replays version production g) (hopen : g.isOpenEnded = false)
    (hkinds : ∀ l ∈ g.leaves, l.tokenKind ≠ .eof ∧ l.missing = false)
    (hkept : ∀ p, Parse.Ready (.ofTokenList version) p →
      Parse.Kept (.ofTokenList version) p (production g.leaves.length p).2) :
    g.missesElse (.keyword .elseKw) = false := by
  let behind : Leaf := { kind := .token (.keyword .elseKw), text := [] }
  let last : Leaf := { kind := .token .eof, text := [] }
  let p : Parser TokenList :=
    { source := ⟨g.leaves.map (⟨0, ·⟩) ++ [⟨0, behind⟩], ⟨0, last⟩, 0⟩, version := version }
  have hup : p.source.upcoming = g.leaves ++ [behind, last] := by
    simp [TokenList.upcoming, p, Function.comp_def]
  have hwf : p.source.WellFormed := by
    refine ⟨rfl, fun t ht => ?_, fun l hl => ?_⟩
    · rcases List.mem_append.1 ht with ht | ht
      · obtain ⟨l, hl, rfl⟩ := List.mem_map.1 ht
        exact (hkinds l hl).1
      · rw [List.mem_singleton.1 ht]
        exact TokenKind.noConfusion
    · rw [hup] at hl
      rcases List.mem_append.1 hl with hl | hl
      · exact (hkinds l hl).2
      · rcases List.mem_pair.1 hl with rfl | rfl <;> rfl
  obtain ⟨g', s', happly, hshape, hwf', hup'⟩ :=
    h g.leaves.length p [behind, last] hwf rfl hup le_rfl (fun ho => absurd ho (by simp [hopen]))
  have hk := hkept p ⟨hwf, rfl⟩
  rw [happly] at hk
  -- what is built again is not torn, so nothing in it misses the `else`
  by_contra hm
  have htorn : Parse.Torn (.ofTokenList version) 0 { p with source := s', out := p.out ++ [g'] } := by
    have hfront : Parse.frontUpTo (.ofTokenList version) 0 { p with source := s', out := p.out ++ [g'] } =
        .keyword .elseKw := by
      have hs' : (Supply.ofTokenList version).upcoming s' = [behind, last] := hup'
      simp [Parse.frontUpTo, Parse.front, hs', behind, Leaf.tokenKind]
    rw [Parse.Torn, hfront]
    show missesElseAll ([] ++ [g']) _ = true
    rw [List.nil_append, missesElseAll_singleton, missesElse_eq_of_shape hshape]
    exact Bool.eq_true_of_not_eq_false hm
  have hnone : Parse.Torn (.ofTokenList version) 0 p := hk.untorn trivial htorn
  simp [Parse.Torn, p] at hnone

/-- A good node that is not open-ended misses no `else` behind it. -/
theorem Good.missesElse_eq_false (h : Good version g) (hunit : g.isUnit = true) (hflag : ¬ Flagged [g])
    (hmiss : g.missesElse .eof = false) (hopen : g.isOpenEnded = false)
    (hkinds : ∀ l ∈ g.leaves, l.tokenKind ≠ .eof ∧ l.missing = false) :
    g.missesElse (.keyword .elseKw) = false := by
  obtain ⟨k, hk, hkind⟩ := (Option.any_eq_true _ _).1 hunit
  rcases Bool.or_eq_true_iff.1 hkind with hs | hm
  · exact missesElse_eq_false_of_replays (h.statement hflag hmiss (by simp [hk, hs])) hopen hkinds
      fun p hp => Parse.statementUpTo_kept _ hp
  · exact missesElse_eq_false_of_replays (h.member hflag hmiss (by simp [hk, hm])) hopen hkinds
      fun p hp => Parse.memberUpTo_kept _ hp

end Green

/-! ## The supply of a cursor -/

namespace Supply

variable {version : LanguageVersion} {symbols : List Text} {text : Text} {set : ChangeSet} {reuse : Option Reuse}

/-- **The supply of a cursor.** It feeds the tokens of the text from where the cursor stands on. -/
def ofCursor (version : LanguageVersion) (symbols : List Text) (text : Text) (set : ChangeSet)
    (reuse : Option Reuse) (hsound : ∀ r, reuse = some r → r.old.root.SoundWherePlain version) :
    Supply version Cursor where
  Ok c := ∃ ls, c.At symbols text set reuse ls
  upcoming c := tokenizeRest c.context c.rest
  Careful := ∀ r, reuse = some r → ¬ Reuse.AddsBehindLine r.old.text set ∧ r.old.root.missesElse .eof = false
  present := by
    rintro c ⟨ls, h⟩
    exact (congrArg Leaf.missing h.next.1).trans (missing_scan _ _)
  next_of_ne := by
    rintro c ⟨ls, h⟩ hk
    obtain ⟨hleaf, hp⟩ := h.next
    have hne : (scan c.context c.rest).leaf.tokenKind ≠ .eof := hleaf ▸ hk
    refine ⟨⟨_, h.passes hp (by simpa using hne)⟩, ?_⟩
    obtain ⟨es, hs, -⟩ := hp
    show tokenizeRest c.context c.rest = c.next.1.leaf :: tokenizeRest c.next.2.2.context c.next.2.2.rest
    rw [hs.tokenizeRest_eq (by simpa using hne), hleaf]
    rfl
  next_of_eq := by
    rintro c ⟨ls, h⟩ hk
    obtain ⟨hleaf, -⟩ := h.next
    show tokenizeRest c.context c.rest = [c.next.1.leaf]
    rw [hleaf]
    exact tokenizeRest_of_eq (hleaf ▸ hk)
  fresh := by
    rintro c ⟨ls, h⟩
    exact ⟨⟨ls, h.kinds, h.scanned, h.initial, h.offset, h.reuse_eq, h.serves⟩, rfl⟩
  remaining := by
    rintro c -
    exact length_tokenizeRest_le _ _
  reuse := by
    rintro c kinds g c' ⟨ls, h⟩ hg
    obtain ⟨r, hr, ⟨hk, hsub, hne, hd, ha⟩, hkinds, hp, -⟩ := h.reuseNode? hg
    have hfine := (h.serves r hr).valid.fine
    have hplain := (hfine.of_sub hsub).plain hd ha
    refine ⟨⟨_, h.passes hp hkinds⟩, ?_, hne, hk, hplain.1, hplain.2,
      (hsound r hr).sound_of_sub hfine.exact hsub ha, hfine.of_sub hsub⟩
    obtain ⟨es, hs, -⟩ := hp
    exact hs.tokenizeRest_eq hkinds
  offered := by
    intro c kinds g c' hg
    obtain ⟨r, start, -, hnode, -⟩ := Cursor.reuseNode?_eq_some_iff.1 hg
    exact accept_of_nodeStarting? (Reuse.node?_eq_some_iff.1 hnode).2.1
  careful := by
    rintro hcareful c kinds g c' ⟨ls, h⟩ hg hunit
    obtain ⟨r, hr, ⟨-, hsub, -, hd, ha⟩, hkinds, hp, helse⟩ := h.reuseNode? hg
    obtain ⟨hadds, hroot⟩ := hcareful r hr
    have hfine := (h.serves r hr).valid.fine
    have hplain := (hfine.of_sub hsub).plain hd ha
    have hmiss : g.missesElse .eof = false := by
      by_contra hm
      have := hsub.missesElse_of_eof (Bool.eq_true_of_not_eq_false hm)
      rw [hroot] at this
      cases this
    have hpresent : ∀ l ∈ g.leaves, l.tokenKind ≠ .eof ∧ l.missing = false := by
      obtain ⟨es, hs, -⟩ := hp
      exact fun l hl => ⟨hkinds l hl, hs.missing_eq l hl⟩
    have hfront : frontKind (tokenizeRest c'.context c'.rest) = (scan c'.context c'.rest).leaf.tokenKind := by
      rw [frontKind, head?_tokenizeRest]
      rfl
    by_contra hm
    have hm := Bool.eq_true_of_not_eq_false hm
    by_cases hnext : frontKind (tokenizeRest c'.context c'.rest) = .keyword .elseKw
    · by_cases hopen : g.isOpenEnded = true
      · exact helse hadds hroot hopen (hfront ▸ hnext)
      · have hgood := (hsound r hr) g hsub hunit ha
        rw [hnext, hgood.missesElse_eq_false hunit hplain.1 hmiss (by simpa using hopen) hpresent] at hm
        cases hm
    · rw [missesElse_eof_of_ne hnext hm] at hmiss
      cases hmiss

end Supply

end IncrementalSyntax

import IncrementalSyntax.Proofs.Text.Edits
import IncrementalSyntax.Text.Snapshot

/-!
# The changes between two snapshots

Whatever is held and let go of in a history, the changes that it finds between two snapshots lead from the
text of one to the text of the other. A box that covers several changes, one set after the other, is put
together from the left: the text in front of it and the text behind it are the same before and after.

## Main definitions

* `Box.Covers`: a box around all that differs between two texts
* `Applied`: change sets made one after the other
* `History.Run`: a history with all snapshots ever made in it
* `History.Derived`: a snapshot that comes from another one

## Main results

* `Box.Covers.followedBy`: the box of one replacement after another
* `Box.applyTo_toChangeSet`: a box around all that differs is a change set that leads from one text to the
  other
* `History.changesBetween_spec`: what the changes between two held snapshots are
-/

namespace IncrementalSyntax

/-! ## Boxes -/

/-- The changes of a set end somewhere in the text, and what comes behind stays. -/
theorem Edits.exists_suffix {oldEnd : Nat} {cs : List Change} {r r' : Text} (h : Edits oldEnd cs r r') :
    ∃ m m' q : Text, r = m ++ q ∧ r' = m' ++ q ∧
      (cs.getLast?.map fun c => c.range.stop).getD oldEnd = oldEnd + m.width ∧
      (m'.width : Int) = m.width + cs.foldr (fun c rest => c.delta + rest) 0 := by
  induction h with
  | done oldEnd t => exact ⟨[], [], t, rfl, rfl, rfl, rfl⟩
  | @change oldEnd c cs r r' gap cut hstart hlength h ih =>
    obtain ⟨m, m', q, rfl, rfl, hlast, hdelta⟩ := ih
    refine ⟨gap ++ (cut ++ m), gap ++ (c.newText ++ m'), q, by simp, by simp, ?_, ?_⟩
    · have hlast' : ((c :: cs).getLast?.map fun c => c.range.stop).getD oldEnd =
          (cs.getLast?.map fun c => c.range.stop).getD c.range.stop := by
        cases hcs : cs.getLast? <;> simp [List.getLast?_cons, hcs]
      rw [hlast', hlast, Range.stop, hstart, hlength]
      simp only [Text.width_append]
      omega
    · have hchange : c.delta = (c.newText.width : Int) - c.range.length := rfl
      simp only [Text.width_append, List.foldr_cons, hchange]
      omega

namespace Box

/-- **Covers.** The two texts are the same in front of the box and behind it. -/
def Covers (b : Box) (t t' : Text) : Prop :=
  ∃ p m m' q : Text, t = p ++ (m ++ q) ∧ t' = p ++ (m' ++ q) ∧ b.start = p.width ∧
    b.oldEnd = p.width + m.width ∧ b.newEnd = p.width + m'.width

/-- A box that may be absent covers all that differs; without a box nothing does. -/
def CoversAll : Option Box → Text → Text → Prop
  | none, t, t' => t = t'
  | some b, t, t' => b.Covers t t'

/-- The box of a change set covers all that it changes. -/
theorem coversAll_ofChanges? {set : ChangeSet} {t t' : Text} (h : set.applyTo t = .ok t') :
    CoversAll (ofChanges? set) t t' := by
  rw [ChangeSet.applyTo_eq_ok_iff] at h
  unfold ofChanges?
  cases hcs : set.changes with
  | nil =>
    rw [hcs] at h
    cases h
    rfl
  | cons c cs =>
    rw [hcs] at h
    cases h with
    | change gap cut hstart hlength h =>
      obtain ⟨m, m', q, rfl, rfl, hlast, hdelta⟩ := h.exists_suffix
      obtain ⟨l, hl⟩ : ∃ l, (c :: cs).getLast? = some l := ⟨_, List.getLast?_cons⟩
      have hstop : l.range.stop = gap.width + cut.width + m.width := by
        have hc : c.range.stop = gap.width + cut.width := by
          rw [Range.stop, hstart, hlength, Nat.zero_add]
        rw [← hc, ← hlast]
        cases hcs : cs.getLast? <;> simp [List.getLast?_cons, hcs] at hl ⊢ <;> rw [hl]
      rw [hl]
      refine ⟨gap, cut ++ m, c.newText ++ m', q, by simp, by simp, ?_, ?_, ?_⟩
      · simp [hstart]
      · simp only [hstop, Text.width_append]
        omega
      · have hchange : c.delta = (c.newText.width : Int) - c.range.length := rfl
        simp only [hstop, Text.width_append, List.foldr_cons, hchange, hlength]
        omega

/-- Two prefixes of a text have the narrower one in common. -/
theorem exists_common_prefix {p p' r r' : Text} (h : p ++ r = p' ++ r') :
    ∃ c x x' : Text, p = c ++ x ∧ p' = c ++ x' ∧ min p.width p'.width = c.width := by
  rcases Nat.le_total p.width p'.width with hle | hle
  · obtain ⟨x, rfl⟩ := Text.prefix_of_width_le ⟨r, rfl⟩ ⟨r', h.symm⟩ hle
    exact ⟨p, [], x, by simp, rfl, Nat.min_eq_left hle⟩
  · obtain ⟨x, rfl⟩ := Text.prefix_of_width_le ⟨r', rfl⟩ ⟨r, h⟩ hle
    exact ⟨p', x, [], rfl, by simp, Nat.min_eq_right hle⟩

/-- Two suffixes of a text have the narrower one in common. -/
theorem exists_common_suffix {p p' q q' : Text} (h : p ++ q = p' ++ q') :
    ∃ c y y' : Text, q = y ++ c ∧ q' = y' ++ c ∧ min q.width q'.width = c.width := by
  rcases List.append_eq_append_iff.1 h with ⟨y, -, rfl⟩ | ⟨y, -, rfl⟩
  · exact ⟨q', y, [], rfl, by simp, by simp⟩
  · exact ⟨q, [], y, by simp, rfl, by simp⟩

/-- The box of one replacement after another covers what both of them change. -/
theorem Covers.followedBy {a b : Box} {t t' t'' : Text} (ha : a.Covers t t') (hb : b.Covers t' t'') :
    (a.followedBy b).Covers t t'' := by
  obtain ⟨p, m, m', q, rfl, ht', hs, ho, hn⟩ := ha
  obtain ⟨p₂, n, n', q₂, ht'₂, rfl, hs₂, ho₂, hn₂⟩ := hb
  have hsame : p ++ (m' ++ q) = p₂ ++ (n ++ q₂) := ht'.symm.trans ht'₂
  have hwidth : p.width + (m'.width + q.width) = p₂.width + (n.width + q₂.width) := by
    simpa using congrArg Text.width hsame
  obtain ⟨c, x, x₂, rfl, rfl, hc⟩ := exists_common_prefix hsame
  rw [← List.append_assoc, ← List.append_assoc] at hsame
  obtain ⟨d, y, y₂, rfl, rfl, hd⟩ := exists_common_suffix hsame
  refine ⟨c, x ++ (m ++ y), x₂ ++ (n' ++ y₂), d, by simp, by simp, ?_, ?_, ?_⟩ <;>
    simp only [Box.followedBy, hs, hs₂, ho, ho₂, hn, hn₂, Text.width_append] at hwidth hc hd ⊢
  · omega
  · split <;> omega
  · split <;> omega

/-- A box around all that differs leads from one text to the other. -/
theorem applyTo_toChangeSet {b : Box} {t t' : Text} (h : b.Covers t t') :
    (b.toChangeSet t').applyTo t = .ok t' := by
  obtain ⟨p, m, m', q, rfl, rfl, hs, ho, hn⟩ := h
  have hnew : Text.between (p ++ (m' ++ q)) b.start.toNat b.newEnd.toNat = m' := by
    have hwidth : b.newEnd.toNat - b.start.toNat = m'.width := by omega
    rw [Text.between, hwidth, hs, Int.toNat_natCast, Text.after_append, Text.before_append]
  rw [ChangeSet.applyTo_eq_ok_iff]
  show Edits 0 [⟨_, _⟩] _ _
  rw [hnew]
  refine .change p m ?_ ?_ (.done _ _)
  · simp [Range.between, hs]
  · simp only [Range.between]
    omega

end Box

/-- **Applied.** Change sets made one after the other, the first one first. -/
inductive Applied : List ChangeSet → Text → Text → Prop
  | nil (t : Text) : Applied [] t t
  | cons {set : ChangeSet} {sets : List ChangeSet} {t t' t'' : Text} (hset : set.applyTo t = .ok t')
      (h : Applied sets t' t'') : Applied (set :: sets) t t''

theorem Applied.append {as bs : List ChangeSet} {t t' t'' : Text} (ha : Applied as t t')
    (hb : Applied bs t' t'') : Applied (as ++ bs) t t'' := by
  induction ha with
  | nil => exact hb
  | cons hset _ ih => exact .cons hset (ih hb)

theorem Applied.single {set : ChangeSet} {t t' : Text} (h : set.applyTo t = .ok t') :
    Applied [set] t t' :=
  .cons h (.nil _)

/-- The box of several change sets covers all that they change. -/
theorem Box.coversAll_ofHops {hops : List ChangeSet} {t t' : Text} (h : Applied hops t t') :
    CoversAll (ofHops hops) t t' := by
  have hfold : ∀ {hops : List ChangeSet} {box : Option Box} {s t t' : Text}, CoversAll box s t →
      Applied hops t t' → CoversAll ((hops.filterMap ofChanges?).foldl
        (fun box b => some ((box.map (followedBy · b)).getD b)) box) s t' := by
    intro hops box s t t' hbox h
    induction h generalizing box with
    | nil => exact hbox
    | @cons set sets t t₁ t' hset h ih =>
      have hone := coversAll_ofChanges? hset
      cases hb : ofChanges? set with
      | none =>
        rw [hb] at hone
        rw [List.filterMap_cons_none hb]
        exact ih (hone ▸ hbox)
      | some b =>
        rw [hb] at hone
        rw [List.filterMap_cons_some hb, List.foldl_cons]
        refine ih ?_
        cases box with
        | none => exact (show s = t from hbox) ▸ hone
        | some a => exact Covers.followedBy hbox hone
  exact @hfold hops none t t t' rfl h

namespace History

/-! ## Runs -/

/-- **Run.** The histories that come up when snapshots are made, held and let go of, each with all the
snapshots ever made. -/
inductive Run : History → List Snapshot → Prop
  | start : Run {} []
  | begin {h : History} {made : List Snapshot} (text : Text) (hrun : Run h made) :
      Run (h.begin text).2 ((h.begin text).1 :: made)
  | derive {h h' : History} {made : List Snapshot} {base s : Snapshot} (changes : ChangeSet)
      (hrun : Run h made) (hbase : base ∈ h.held) (hs : h.derive base changes = .ok (s, h')) :
      Run h' (s :: made)
  | hold {h : History} {made : List Snapshot} {s : Snapshot} (hrun : Run h made) (hs : s ∈ h.held) :
      Run (h.hold s) made
  | release {h : History} {made : List Snapshot} (s : Snapshot) (hrun : Run h made) :
      Run (h.release s) made

/-- **Derived.** The second snapshot is the first one, or comes from it by changes. -/
inductive Derived (made : List Snapshot) (old : Snapshot) : Snapshot → Prop
  | refl : Derived made old old
  | step {base new : Snapshot} {changes : ChangeSet} (h : Derived made old base) (hbase : base ∈ made)
      (hnew : new ∈ made) (horigin : new.origin = some ⟨base.version, changes⟩) : Derived made old new

theorem Derived.trans {made : List Snapshot} {a b c : Snapshot} (h : Derived made a b)
    (h' : Derived made b c) : Derived made a c := by
  induction h' with
  | refl => exact h
  | step _ hbase hnew horigin ih => exact .step ih hbase hnew horigin

/-- The snapshot `s` was made by the changes of `o` out of one of the others. -/
def ComesFrom (made : List Snapshot) (s : Snapshot) (o : Origin) : Prop :=
  ∃ base ∈ made, base.version = o.base ∧ base.version < s.version ∧ base.lineage = s.lineage ∧
    o.changes.applyTo base.text = .ok s.text

/-- **Orderly.** Versions tell the snapshots apart, and every snapshot with an origin comes from there. -/
structure Orderly (h : History) (made : List Snapshot) : Prop where
  held : ∀ s ∈ h.held, s ∈ made
  version_lt : ∀ s ∈ made, s.version < h.nextVersion
  version_inj : ∀ a ∈ made, ∀ b ∈ made, a.version = b.version → a = b
  origin : ∀ s ∈ made, ∀ o, s.origin = some o → ComesFrom made s o

variable {h : History} {made : List Snapshot}

/-- One more snapshot of the next version. -/
theorem Orderly.push (ho : Orderly h made) {s : Snapshot} {nextLineage : Nat}
    (hversion : s.version = h.nextVersion) (horigin : ∀ o, s.origin = some o → ComesFrom made s o) :
    Orderly ⟨s :: h.held, h.nextVersion + 1, nextLineage⟩ (s :: made) where
  held := by
    intro a ha
    rcases List.mem_cons.1 ha with rfl | ha
    · exact List.mem_cons_self
    · exact List.mem_cons_of_mem _ (ho.held a ha)
  version_lt := by
    intro a ha
    rcases List.mem_cons.1 ha with rfl | ha
    · exact hversion ▸ Nat.lt_succ_self _
    · exact (ho.version_lt a ha).trans (Nat.lt_succ_self _)
  version_inj := by
    have hne : ∀ b ∈ made, b.version ≠ s.version := fun b hb =>
      hversion ▸ (ho.version_lt b hb).ne
    intro a ha b hb hab
    rcases List.mem_cons.1 ha with rfl | ha'
    · rcases List.mem_cons.1 hb with rfl | hb'
      · rfl
      · exact absurd hab.symm (hne b hb')
    · rcases List.mem_cons.1 hb with rfl | hb'
      · exact absurd hab (hne a ha')
      · exact ho.version_inj a ha' b hb' hab
  origin := by
    intro a ha o hao
    have hmade : ComesFrom made a o := by
      rcases List.mem_cons.1 ha with rfl | ha
      · exact horigin o hao
      · exact ho.origin a ha o hao
    obtain ⟨base, hbase, hrest⟩ := hmade
    exact ⟨base, List.mem_cons_of_mem _ hbase, hrest⟩

theorem Orderly.begin (ho : Orderly h made) (text : Text) :
    Orderly (h.begin text).2 ((h.begin text).1 :: made) := ho.push rfl nofun

theorem Orderly.derive (ho : Orderly h made) {base s : Snapshot} {changes : ChangeSet} {h' : History}
    (hbase : base ∈ made) (hs : h.derive base changes = .ok (s, h')) :
    Orderly h' (s :: made) ∧ changes.applyTo base.text = .ok s.text := by
  unfold History.derive at hs
  cases happly : changes.applyTo base.text with
  | error e =>
    rw [happly] at hs
    cases hs
  | ok text =>
    rw [happly] at hs
    cases hs
    refine ⟨ho.push rfl fun o horigin => ?_, rfl⟩
    cases horigin
    exact ⟨base, hbase, rfl, ho.version_lt base hbase, rfl, happly⟩

theorem Orderly.hold (ho : Orderly h made) {s : Snapshot} (hs : s ∈ made) : Orderly (h.hold s) made := by
  refine ⟨fun a ha => ?_, ho.version_lt, ho.version_inj, ho.origin⟩
  rcases List.mem_cons.1 ha with rfl | ha
  · exact hs
  · exact ho.held a ha

theorem Orderly.release (ho : Orderly h made) (s : Snapshot) : Orderly (h.release s) made :=
  ⟨fun a ha => ho.held a (List.mem_of_mem_eraseP ha), ho.version_lt, ho.version_inj, ho.origin⟩


/-- Every history that comes up is orderly. -/
theorem Run.orderly (hrun : Run h made) : Orderly h made := by
  induction hrun with
  | start => exact ⟨by simp, by simp, by simp, by simp⟩
  | begin text _ ih => exact ih.begin text
  | derive changes _ hbase hs ih => exact (ih.derive (ih.held _ hbase) hs).1
  | hold _ hs ih => exact ih.hold (ih.held _ hs)
  | release s _ ih => exact ih.release s

/-! ## The way back to an older snapshot -/

namespace Orderly

variable {old new : Snapshot} (ho : Orderly h made)
include ho

/-- A snapshot that comes from another one has its lineage, and a later version. -/
theorem of_derived (hd : Derived made old new) :
    old.lineage = new.lineage ∧ old.version ≤ new.version := by
  induction hd with
  | refl => exact ⟨rfl, le_rfl⟩
  | step hd hbase hnew horigin ih =>
    obtain ⟨base', hbase', hversion, hlt, hlineage, -⟩ := ho.origin _ hnew _ horigin
    obtain rfl := ho.version_inj _ hbase' _ hbase hversion
    exact ⟨ih.1.trans hlineage, ih.2.trans hlt.le⟩

/-- A held snapshot is found by its version. -/
theorem find?_eq {s : Snapshot} (hs : s ∈ h.held) : h.find? s.version = some s := by
  obtain ⟨a, ha⟩ : ∃ a, h.find? s.version = some a :=
    Option.isSome_iff_exists.1 (List.find?_isSome.2 ⟨s, hs, by simp⟩)
  have hversion : a.version = s.version := by simpa using List.find?_some ha
  rw [ha, ho.version_inj a (ho.held a (List.mem_of_find?_eq_some ha)) s (ho.held s hs) hversion]

/-- What is found by a version is the snapshot of that version. -/
theorem eq_of_find? {s a : Snapshot} (hs : s ∈ made) (ha : h.find? s.version = some a) : a = s := by
  have hversion : a.version = s.version := by simpa using List.find?_some ha
  exact ho.version_inj a (ho.held a (List.mem_of_find?_eq_some ha)) s hs hversion

/-- The hops of a trail, made one after the other, lead from the old text to the new one. -/
theorem applied_of_trail {fuel : Nat} {later hops : List ChangeSet} (hold : old ∈ made)
    (hnew : new ∈ made) (h : h.trail old.version fuel new later = .found hops) :
    ∃ first, hops = first ++ later ∧ Applied first old.text new.text := by
  induction fuel generalizing new later with
  | zero => cases h
  | succ fuel ih =>
    unfold trail at h
    split at h
    · cases h
    · next o horigin =>
      obtain ⟨base, hbase, hversion, -, -, happly⟩ := ho.origin new hnew o horigin
      split at h
      · cases h
      · split at h
        · next heq =>
          cases h
          obtain rfl := ho.version_inj base hbase old hold (hversion.trans heq)
          exact ⟨[o.changes], rfl, .single happly⟩
        · split at h
          · next a ha =>
            rw [← hversion] at ha
            obtain rfl := ho.eq_of_find? hbase ha
            obtain ⟨first, rfl, hfirst⟩ := ih hbase h
            exact ⟨first ++ [o.changes], by simp, hfirst.append (.single happly)⟩
          · cases h

/-- The trail back to a snapshot that the new one comes from does not lead past it. -/
theorem trail_ne_unrelated {fuel : Nat} {later : List ChangeSet}
    (hd : Derived made old new) (hne : old ≠ new) (hfuel : new.version ≤ fuel) :
    h.trail old.version fuel new later ≠ .unrelated := by
  induction fuel generalizing new later with
  | zero =>
    cases hd with
    | refl => exact absurd rfl hne
    | step hd hbase hnew horigin =>
      obtain ⟨_, _, _, hlt, _⟩ := ho.origin _ hnew _ horigin
      omega
  | succ fuel ih =>
    cases hd with
    | refl => exact absurd rfl hne
    | @step base _ changes hd hbase hnew horigin =>
      obtain ⟨base', hbase', hversion, hlt, -, -⟩ := ho.origin _ hnew _ horigin
      obtain rfl := ho.version_inj _ hbase' _ hbase hversion
      have hle := (ho.of_derived hd).2
      unfold trail
      simp only [horigin]
      rw [if_neg (by omega)]
      split
      · nofun
      · next hneq =>
        split
        · next a ha =>
          obtain rfl := ho.eq_of_find? hbase ha
          exact ih hd (fun he => hneq (congrArg Snapshot.version he.symm)) (by omega)
        · nofun

/-- If all later snapshots on the way are held, the trail of a snapshot that does not come from the old one
leads past it. -/
theorem trail_eq_unrelated {fuel : Nat} {later : List ChangeSet} (hold : old ∈ made) (hnew : new ∈ made)
    (hd : ¬ Derived made old new)
    (hheld : ∀ b, Derived made b new → old.version < b.version → b ∈ h.held) :
    h.trail old.version fuel new later = .unrelated := by
  induction fuel generalizing new later with
  | zero => rfl
  | succ fuel ih =>
    unfold trail
    split
    · rfl
    · next o horigin =>
      obtain ⟨base, hbase, hversion, -, -, -⟩ := ho.origin new hnew o horigin
      have hstep : Derived made base new := .step .refl hbase hnew (by rw [horigin, hversion])
      split
      · rfl
      · split
        · next heq =>
          obtain rfl := ho.version_inj base hbase old hold (hversion.trans heq)
          exact absurd hstep hd
        · have hfind := ho.find?_eq (hheld base hstep (by omega))
          rw [hversion] at hfind
          simp only [hfind]
          exact ih hbase (fun hd' => hd (hd'.trans hstep)) fun b hb => hheld b (hb.trans hstep)

/-- Changes between two snapshots lead from the text of one to the text of the other. -/
theorem applyTo_changesBetween {set : ChangeSet} (hold : old ∈ made) (hnew : new ∈ made)
    (hset : h.changesBetween old new = .ok set) : set.applyTo old.text = .ok new.text := by
  unfold changesBetween at hset
  split at hset
  · cases hset
  split at hset
  · next hsame =>
    cases hset
    obtain rfl := ho.version_inj old hold new hnew (by simpa [Snapshot.isSame] using hsame)
    exact ChangeSet.applyTo_eq_ok_iff.2 (.done _ _)
  split at hset
  · next single htrail =>
    cases hset
    obtain ⟨first, hfirst, happ⟩ := ho.applied_of_trail hold hnew htrail
    rw [List.append_nil] at hfirst
    subst hfirst
    cases happ with
    | cons hone hnil =>
      cases hnil
      exact hone
  · next hops _ htrail =>
    obtain ⟨first, hfirst, happ⟩ := ho.applied_of_trail hold hnew htrail
    rw [List.append_nil] at hfirst
    subst hfirst
    have hbox := Box.coversAll_ofHops happ
    split at hset
    · next box hb =>
      cases hset
      rw [hb] at hbox
      exact Box.applyTo_toChangeSet hbox
    · next hb =>
      cases hset
      rw [hb] at hbox
      exact ChangeSet.applyTo_eq_ok_iff.2 ((show old.text = new.text from hbox) ▸ .done _ _)
  · cases hset
    refine ChangeSet.applyTo_eq_ok_iff.2 ?_
    simpa [ChangeSet.single] using Edits.change (c := ⟨⟨0, Text.width old.text⟩, new.text⟩) (r := []) [] old.text rfl rfl
      (.done _ _)
  · cases hset

/-- There are changes that lead to every snapshot that comes from the old one. -/
theorem exists_changesBetween (hd : Derived made old new) :
    ∃ set, h.changesBetween old new = .ok set := by
  obtain ⟨hlineage, hle⟩ := ho.of_derived hd
  unfold changesBetween
  rw [if_neg (by simp [hlineage, hle])]
  split
  · exact ⟨_, rfl⟩
  · next hsame =>
    have hne : old ≠ new := by
      rintro rfl
      simp [Snapshot.isSame] at hsame
    have htrail : h.trail old.version new.version new [] ≠ .unrelated :=
      ho.trail_ne_unrelated hd hne le_rfl
    cases ht : h.trail old.version new.version new [] with
    | found hops =>
      split
      · exact ⟨_, rfl⟩
      · split <;> exact ⟨_, rfl⟩
      · exact ⟨_, rfl⟩
      · next h' => cases h'
    | broken => exact ⟨_, rfl⟩
    | unrelated => exact absurd ht htrail

/-- No changes lead to a snapshot that does not come from the old one, if all later snapshots on the way are
held. -/
theorem changesBetween_eq_error (hold : old ∈ made) (hnew : new ∈ made) (hd : ¬ Derived made old new)
    (hheld : ∀ b, Derived made b new → old.version < b.version → b ∈ h.held) :
    h.changesBetween old new = .error (.stale old.version new.version) := by
  unfold changesBetween
  split
  · rfl
  · rw [if_neg, ho.trail_eq_unrelated hold hnew hd hheld]
    intro hsame
    obtain rfl := ho.version_inj old hold new hnew (by simpa [Snapshot.isSame] using hsame)
    exact hd .refl

end Orderly

/-- **The changes between two snapshots.** In every history that comes up and for any two snapshots that are
held there: the changes that are found lead from the old text to the new one; changes are found if the
new snapshot is the old one or comes from it, whatever was let go of in between; and the new snapshot is
stale if it does not come from the old one and all later snapshots on its way back are held. -/
theorem changesBetween_spec (hrun : Run h made) {old new : Snapshot} (hold : old ∈ h.held)
    (hnew : new ∈ h.held) :
    (∀ set, h.changesBetween old new = .ok set → set.applyTo old.text = .ok new.text) ∧
      (Derived made old new → ∃ set, h.changesBetween old new = .ok set) ∧
      (¬ Derived made old new → (∀ b, Derived made b new → old.version < b.version → b ∈ h.held) →
        h.changesBetween old new = .error (.stale old.version new.version)) := by
  have ho := hrun.orderly
  have hold' := ho.held old hold
  have hnew' := ho.held new hnew
  exact ⟨fun set => ho.applyTo_changesBetween hold' hnew', ho.exists_changesBetween,
    ho.changesBetween_eq_error hold' hnew'⟩

/-- Two hops from `abc` to `axc`, the snapshot between which is gone. -/
theorem changesBetween_spec_released :
    ∃ (h : History) (old new : Snapshot), old ∈ h.held ∧ new ∈ h.held ∧ old.text = ['a', 'b', 'c'] ∧
      new.text = ['a', 'x', 'c'] ∧ new.origin.map Origin.base = some 2 ∧ h.find? 2 = none ∧
      ∃ set, h.changesBetween old new = .ok set ∧ set.applyTo old.text = .ok new.text := by
  let insertion : ChangeSet := .single ⟨⟨1, 0⟩, ['x', 'y']⟩
  let deletion : ChangeSet := .single ⟨⟨2, 2⟩, []⟩
  let a : Snapshot := ⟨['a', 'b', 'c'], 1, 1, none⟩
  let b : Snapshot := ⟨['a', 'x', 'y', 'b', 'c'], 2, 1, some ⟨1, insertion⟩⟩
  let c : Snapshot := ⟨['a', 'x', 'c'], 3, 1, some ⟨2, deletion⟩⟩
  have hfirst : Run ⟨[a], 2, 2⟩ [a] := .begin ['a', 'b', 'c'] .start
  have hsecond : Run ⟨[b, a], 3, 2⟩ [b, a] := @Run.derive _ _ _ a b insertion hfirst (by decide) rfl
  have hthird : Run ⟨[c, b, a], 4, 2⟩ [c, b, a] :=
    @Run.derive _ _ _ b c deletion hsecond (by decide) rfl
  have hrun : Run ⟨[c, a], 4, 2⟩ [c, b, a] := .release b hthird
  have hb : Derived [c, b, a] a b := .step .refl (by decide) (by decide) rfl
  have hc : Derived [c, b, a] a c := .step hb (by decide) (by decide) rfl
  obtain ⟨hleads, hfound, -⟩ := @changesBetween_spec _ _ hrun a c (by decide) (by decide)
  obtain ⟨set, hset⟩ := hfound hc
  exact ⟨_, a, c, by decide, by decide, rfl, rfl, rfl, rfl, set, hset, hleads set hset⟩

end History

end IncrementalSyntax

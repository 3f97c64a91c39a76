import IncrementalSyntax.Proofs.Grammar.Supply

/-!
# What every production keeps

Whatever the parser does, it takes tokens off the front of the supply and emits them in order, with
nothing between them but missing tokens. What was wrong with the elements emitted before stays wrong. The
relation between the states before and behind an action is closed under all ways to put actions together.

## Main definitions

* `Parse.Ready`: a good state of the parser
* `Parse.Torn`: a state in which an `if` has missed its `else`
* `Parse.Kept`: what holds between the states before and behind an action

## Main results

* `Parse.Kept.trans`, `Parse.Kept.scope`, `Parse.Kept.within`: actions in a row and actions inside others
* `Parse.Kept.take`, `Parse.Kept.missing`, `Parse.Kept.enclose`, `Parse.Kept.reuse`: what can be emitted
-/

namespace IncrementalSyntax

namespace Parse

open Green hiding id

variable {version : LanguageVersion} {σ : Type} [TokenSource σ] (S : Supply version σ)

/-- **Ready.** The source is in a good state, and the language is the one of the supply. -/
structure Ready (p : Parser σ) : Prop where
  ok : S.Ok p.source
  version : p.version = version

/-- The kind of the token at the front. -/
def front (p : Parser σ) : TokenKind := frontKind (S.upcoming p.source)

/-- The kind of the token at the front, where the text ends in front of the last `behind` tokens. -/
def frontUpTo (behind : Nat) (p : Parser σ) : TokenKind :=
  if (S.upcoming p.source).length ≤ behind then .eof else front S p

/-- **Torn.** An `if` has been emitted without its `else`, which is not one of the last `behind` tokens. -/
def Torn (behind : Nat) (p : Parser σ) : Prop := missesElseAll p.out (frontUpTo S behind p) = true

/-- **Kept.** The tokens between two states have been emitted in order, and what was wrong before is
wrong behind. The status shows only a token that is missing. -/
structure Kept (p p' : Parser σ) : Prop where
  ready : Ready S p'
  contexts : p'.contexts = p.contexts
  taken : ∃ taken, S.upcoming p.source = taken ++ S.upcoming p'.source ∧
    scannedAll p'.out = scannedAll p.out ++ taken.map Leaf.bare ∧
    (¬ Flagged p'.out → leavesAll p'.out = leavesAll p.out ++ taken)
  torn : ∀ behind ≤ (S.upcoming p'.source).length, Torn S behind p → Torn S behind p'
  flagged : Flagged p.out → Flagged p'.out
  status : p'.status = p.status ∨ Flagged p'.out
  untorn : S.Careful → Torn S 0 p' → Torn S 0 p
  fine : (∀ g ∈ p.out, g.Fine) → ∀ g ∈ p'.out, g.Fine

variable {S} {p p' p'' : Parser σ}

/-! ## Actions put together -/

theorem Kept.refl (h : Ready S p) : Kept S p p where
  ready := h
  contexts := rfl
  taken := ⟨[], by simp⟩
  torn _ _ := id
  flagged := id
  status := .inl rfl
  untorn _ := id
  fine := id

theorem Kept.length_le (h : Kept S p p') :
    (S.upcoming p'.source).length ≤ (S.upcoming p.source).length := by
  obtain ⟨taken, htaken, -⟩ := h.taken
  simp [htaken]

theorem Kept.trans (h : Kept S p p') (h' : Kept S p' p'') : Kept S p p'' where
  ready := h'.ready
  contexts := h'.contexts.trans h.contexts
  taken := by
    obtain ⟨as, has, hs, hp⟩ := h.taken
    obtain ⟨bs, hbs, hs', hp'⟩ := h'.taken
    refine ⟨as ++ bs, by rw [has, hbs, List.append_assoc], by rw [hs', hs]; simp, fun hf => ?_⟩
    rw [hp' hf, hp fun hf' => hf (h'.flagged hf'), List.append_assoc]
  torn behind hle := h'.torn behind hle ∘ h.torn behind (hle.trans h'.length_le)
  flagged := h'.flagged ∘ h.flagged
  status := by
    rcases h'.status with hst | hst
    · rcases h.status with hst' | hst'
      · exact .inl (hst.trans hst')
      · exact .inr (h'.flagged hst')
    · exact .inr hst
  untorn hs := h.untorn hs ∘ h'.untorn hs
  fine := h'.fine ∘ h.fine

/-- What is emitted begins with the token that was at the front before. -/
theorem firstKind_frontUpTo {out : List Green} {taken : List Leaf} {behind : Nat}
    (htaken : S.upcoming p.source = taken ++ S.upcoming p'.source)
    (hout : scannedAll out = taken.map Leaf.bare) (hle : behind ≤ (S.upcoming p'.source).length) :
    firstKind out (frontUpTo S behind p') = frontUpTo S behind p := by
  unfold firstKind
  rw [hout]
  cases taken with
  | nil =>
    simp only [List.nil_append] at htaken
    simp [frontUpTo, front, htaken]
  | cons l ls =>
    have hlt : ¬ (S.upcoming p.source).length ≤ behind := by
      rw [htaken, List.length_append, List.length_cons]
      omega
    have hfront : frontUpTo S behind p = l.tokenKind := by
      rw [frontUpTo, if_neg hlt, front, htaken]
      rfl
    rw [hfront]
    rfl

/-- What an action does in a scope of its own it does behind the elements emitted before. -/
theorem Kept.scope (h : Kept S { p with out := [] } p') :
    Kept S p { p' with out := p.out ++ p'.out } := by
  obtain ⟨taken, htaken, hout, hplain⟩ := h.taken
  have htorn : ∀ behind ≤ (S.upcoming p'.source).length,
      (Torn S behind { p' with out := p.out ++ p'.out } ↔ Torn S behind p ∨ Torn S behind p') := by
    intro behind hle
    have hfirst : firstKind p'.out (frontUpTo S behind p') = frontUpTo S behind p :=
      firstKind_frontUpTo htaken hout hle
    show missesElseAll (p.out ++ p'.out) (frontUpTo S behind p') = true ↔ _
    rw [missesElseAll_append, hfirst, Bool.or_eq_true]
    rfl
  refine ⟨⟨h.ready.ok, h.ready.version⟩, h.contexts, ⟨taken, htaken, ?_, ?_⟩, ?_, ?_, ?_, ?_, ?_⟩
  · simpa using hout
  · intro hf
    have hnil : leavesAll p'.out = taken := hplain fun hf' => hf (flagged_append.2 (.inr hf'))
    rw [leavesAll_append, hnil]
  · exact fun behind hle ht => (htorn behind hle).2 (.inl ht)
  · exact fun hf => flagged_append.2 (.inl hf)
  · exact h.status.imp id fun hf => flagged_append.2 (.inr hf)
  · intro hs ht
    rcases (htorn 0 (Nat.zero_le _)).1 ht with ht | ht
    · exact ht
    · have hnil : Torn S 0 { p with out := [] } := h.untorn hs ht
      simp [Torn] at hnil
  · intro hp g hg
    rcases List.mem_append.1 hg with hg | hg
    · exact hp g hg
    · exact h.fine (by simp) g hg

/-- The open lists matter only while they are open. -/
theorem Kept.within {context : ListContext} (h : Kept S { p with contexts := context :: p.contexts } p') :
    Kept S p { p' with contexts := p.contexts } where
  ready := ⟨h.ready.ok, h.ready.version⟩
  contexts := rfl
  taken := h.taken
  torn := h.torn
  flagged := h.flagged
  status := h.status
  untorn := h.untorn
  fine := h.fine

/-! ## Elements emitted -/

/-- A state in which the source has moved on and elements stand behind those of another state. -/
theorem Kept.of_emit {p : Parser σ} {s : σ} {es : List Green} (taken : List Leaf) (status : ParseStatus)
    (hp : Ready S p) (hs : S.Ok s) (htaken : S.upcoming p.source = taken ++ S.upcoming s)
    (hes : scannedAll es = taken.map Leaf.bare) (hplain : ¬ Flagged es → leavesAll es = taken)
    (hmisses : S.Careful → missesElseAll es (frontKind (S.upcoming s)) = false)
    (hstatus : status = p.status ∨ Flagged es) (hfine : ∀ g ∈ es, g.Fine) :
    Kept S p { p with source := s, out := p.out ++ es, status := status } := by
  refine Kept.scope (?_ : Kept S { p with out := [] } { p with source := s, out := es, status := status })
  refine ⟨⟨hs, hp.version⟩, rfl, ⟨taken, htaken, by simpa using hes, hplain⟩, ?_, ?_, hstatus, ?_,
      fun _ => hfine⟩
  · intro behind _ ht
    simp [Torn] at ht
  · exact fun hf => absurd hf not_flagged_nil
  · intro hsc ht
    have : missesElseAll es (frontKind (S.upcoming s)) = true := by
      simpa [Torn, frontUpTo, front, S.not_length_le_zero hs] using ht
    rw [hmisses hsc] at this
    cases this

/-- A token is taken and emitted, perhaps with one more diagnostic on it. -/
theorem Kept.take {s : σ} {t : Token} (hp : Ready S p) (hne : front S p ≠ .eof)
    (hs : S.Ok (TokenSource.next p.source).2 → S.Ok s ∧
      S.upcoming s = S.upcoming (TokenSource.next p.source).2)
    (hmissing : t.leaf.missing = (TokenSource.next p.source).1.leaf.missing)
    (hbare : t.leaf.bare = (TokenSource.next p.source).1.leaf.bare)
    (hplain : t.leaf.diagnostics = [] → t.leaf = (TokenSource.next p.source).1.leaf) :
    Kept S p { p with source := s, out := p.out ++ [.token t] } := by
  rw [front, S.frontKind_upcoming hp.ok] at hne
  obtain ⟨hok, hcons⟩ := S.next_of_ne hp.ok hne
  have hpresent := S.present hp.ok
  rw [← hmissing] at hpresent
  refine Kept.of_emit [(TokenSource.next p.source).1.leaf] p.status hp (hs hok).1
    ?_ ?_ ?_ ?_ (.inl rfl) ?_
  · rw [(hs hok).2, hcons]
    rfl
  · simp [scannedAll, hpresent, hbare]
  · intro hf
    have hd : t.leaf.diagnostics = [] := by
      by_contra hd
      exact hf ⟨t.leaf, by simp, hd⟩
    simp [hplain hd]
  · simp
  · intro g hg
    obtain rfl := List.mem_singleton.1 hg
    exact fine_token fun h => by simp [hpresent] at h

/-- A missing token is emitted. -/
theorem Kept.missing {s : σ} {id : Id} {kind : Kind} {d : Diagnostic} {status : ParseStatus}
    (hp : Ready S p) (hs : S.Ok s ∧ S.upcoming s = S.upcoming p.source) :
    Kept S p { p with source := s, out := p.out ++ [.token ⟨id, .absent kind d⟩], status := status } := by
  have hf : Flagged [.token ⟨id, .absent kind d⟩] := ⟨.absent kind d, by simp, by simp [Leaf.absent]⟩
  refine Kept.of_emit [] status hp hs.1 (by rw [hs.2]; rfl) ?_ (absurd hf) (by simp) (.inr hf) ?_
  · simp [scannedAll, Leaf.absent]
  · intro g hg
    obtain rfl := List.mem_singleton.1 hg
    exact fine_token fun _ => ⟨rfl, by simp [Leaf.absent]⟩

/-- A node is made of all that was emitted. -/
theorem Kept.enclose {s : σ} {id : Id} {kind : NodeKind} (hp : Ready S p)
    (hs : S.Ok s ∧ S.upcoming s = S.upcoming p.source)
    (hif : kind = .ifStmt → (p.out.getLast?.bind nodeKind?) = some .elseClause ∨
      front S p ≠ .keyword .elseKw) :
    Kept S p { p with source := s, out := [.ofChildren id (.node kind) p.out] } := by
  have hfront : ∀ behind, frontUpTo S behind { p with
      source := s
      out := [.ofChildren id (.node kind) p.out] } = frontUpTo S behind p := by
    intro behind
    rw [frontUpTo, frontUpTo, front, front, hs.2]
  refine ⟨⟨hs.1, hp.version⟩, rfl, ⟨[], by simp [hs.2], by simp, by simp⟩, ?_, ?_, .inl rfl, ?_, ?_⟩
  · intro behind _ ht
    simp only [Torn, hfront, missesElseAll_singleton]
    exact missesElse_ofChildren_of_all ht
  · exact fun hf => flagged_ofChildren.2 hf
  · intro _ ht
    simp only [Torn, hfront, missesElseAll_singleton] at ht ⊢
    by_cases hk : kind = .ifStmt
    · subst hk
      rcases hif rfl with hlast | hne
      · simpa [ofChildren, missesElse, hlast] using ht
      · simpa [ofChildren, missesElse, frontUpTo, S.not_length_le_zero hp.ok, hne] using ht
    · rwa [missesElse_ofChildren (by simpa using hk)] at ht
  · intro hfine g hg
    obtain rfl := List.mem_singleton.1 hg
    exact fine_ofChildren hfine

/-- A node of the source is emitted in place of its tokens. -/
theorem Kept.reuse {kinds : NodeKind → Bool} {g : Green} {s : σ} (hp : Ready S p)
    (hkinds : ∀ k, kinds k = true → k.isStatement || k.isMember)
    (h : TokenSource.reuse? kinds p.source = some (g, s)) :
    Kept S p { p with source := s, out := p.out ++ [g] } := by
  obtain ⟨hok, hup, -, hkind, -, hscan, -, hfine⟩ := S.reuse hp.ok h
  refine Kept.of_emit g.leaves p.status hp hok hup ?_ (fun _ => by simp) ?_
    (.inl rfl) ?_
  · conv_rhs => rw [← hscan]
    simp [scannedAll]
  · intro hcareful
    obtain ⟨k, hk, hkind⟩ := (Option.any_eq_true _ _).1 hkind
    rw [missesElseAll_singleton]
    exact S.careful hcareful hp.ok h (by simp [isUnit, hk, hkinds k hkind])
  · intro c hc
    obtain rfl := List.mem_singleton.1 hc
    exact hfine

end Parse

end IncrementalSyntax

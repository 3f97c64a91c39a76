import IncrementalSyntax.Proofs.Token.Locality
import IncrementalSyntax.Proofs.Token.Outcome

/-!
# Scanning several tokens

Tokens are scanned one after the other, each in the context that the one before has left. What is behind
them depends on their own texts only, and so does every single one of them, up to two characters further
than the last one.

## Main definitions

* `Scanned`: leaves scanned one after the other, with the context, the text and the directives behind them
* `tokenizeRest`: all tokens from a place on

## Main results

* `Scanned.split`, `Scanned.functional`: parts of a scan, and its outcome
* `Scanned.tokenizeRest_eq`: the tokens from a place on begin with those that are scanned there
* `Scanned.directives_eq`, `Scanned.lineStart_eq`: the context behind scanned tokens
* `Scanned.local`: tokens without complaints are scanned again from their own texts
-/

namespace IncrementalSyntax

/-! ## Scanning one token after the other -/

/-- **Scanned.** Leaves scanned one after the other from a context and a text, with the context and the
text behind them and their directives, whose ranges count from the start of the first leaf. -/
inductive Scanned : Context → Text → List Leaf → Context → Text → List DirectiveEntry → Prop
  | nil (c : Context) (t : Text) : Scanned c t [] c t []
  | cons {c c' : Context} {t t' : Text} {ls : List Leaf} {es : List DirectiveEntry}
      (h : Scanned (scan c t).context (scan c t).rest ls c' t' es) :
      Scanned c t ((scan c t).leaf :: ls) c' t'
        ((scan c t).entries ++ es.map (·.shift (scan c t).leaf.width))

theorem DirectiveEntry.map_shift_shift (es : List DirectiveEntry) (m n : Nat) :
    (es.map (·.shift m)).map (·.shift n) = es.map (·.shift (n + m)) := by
  simp [DirectiveEntry.shift, Range.shift, Function.comp_def, Nat.add_assoc, Nat.add_comm m n]

@[simp] theorem DirectiveEntry.map_shift_zero (es : List DirectiveEntry) : es.map (·.shift 0) = es := by
  simp [DirectiveEntry.shift, Range.shift]

theorem DirectiveEntry.Inside.shift {start stop : Nat} {es : List DirectiveEntry} (h : Inside start stop es)
    (n : Nat) : Inside (start + n) (stop + n) (es.map (·.shift n)) := by
  intro e' he'
  obtain ⟨e, he, rfl⟩ := List.mem_map.1 he'
  obtain ⟨h₁, h₂, h₃⟩ := h e he
  refine ⟨Nat.add_le_add_right h₁ n, h₂, ?_⟩
  show e.range.start + n + e.range.length ≤ stop + n
  rw [Range.stop] at h₃
  omega

theorem DirectiveEntry.Inside.mono {start stop start' stop' : Nat} {es : List DirectiveEntry}
    (h : Inside start stop es) (hstart : start' ≤ start) (hstop : stop ≤ stop') : Inside start' stop' es :=
  fun e he => ⟨hstart.trans (h e he).1, (h e he).2.1, (h e he).2.2.trans hstop⟩

theorem DirectiveEntry.Inside.append {start stop : Nat} {es fs : List DirectiveEntry}
    (h : Inside start stop es) (h' : Inside start stop fs) : Inside start stop (es ++ fs) :=
  fun e he => (List.mem_append.1 he).elim (h e) (h' e)

namespace Scanned

variable {c c' c'' : Context} {t t' t'' : Text} {ls ls' : List Leaf} {es es' : List DirectiveEntry}

theorem single (c : Context) (t : Text) :
    Scanned c t [(scan c t).leaf] (scan c t).context (scan c t).rest (scan c t).entries := by
  simpa using cons (nil (scan c t).context (scan c t).rest)

theorem append (h : Scanned c t ls c' t' es) (h' : Scanned c' t' ls' c'' t'' es') :
    Scanned c t (ls ++ ls') c'' t'' (es ++ es'.map (·.shift (Leaf.widthAll ls))) := by
  induction h with
  | nil c t => simpa using h'
  | @cons c c' t t' ls es h ih =>
    have := cons (ih h')
    rw [List.map_append, DirectiveEntry.map_shift_shift, ← List.append_assoc] at this
    simpa using this

/-- A scan of two rows of leaves consists of two scans. -/
theorem split (h : Scanned c t (ls ++ ls') c'' t'' es) :
    ∃ c' t' es₁ es₂, Scanned c t ls c' t' es₁ ∧ Scanned c' t' ls' c'' t'' es₂ ∧
      es = es₁ ++ es₂.map (·.shift (Leaf.widthAll ls)) := by
  induction ls generalizing c t es with
  | nil => exact ⟨c, t, [], es, .nil c t, h, by simp⟩
  | cons l ls ih =>
    rw [List.cons_append] at h
    cases h with
    | cons h =>
      obtain ⟨c', t', es₁, es₂, h₁, h₂, rfl⟩ := ih h
      refine ⟨c', t', _, es₂, .cons h₁, h₂, ?_⟩
      rw [List.map_append, DirectiveEntry.map_shift_shift, ← List.append_assoc, Leaf.widthAll_cons]

/-- The leaves say what is behind them. -/
theorem functional (h : Scanned c t ls c' t' es) (h' : Scanned c t ls c'' t'' es') :
    c' = c'' ∧ t' = t'' ∧ es = es' := by
  induction h generalizing es' with
  | nil c t =>
    cases h'
    exact ⟨rfl, rfl, rfl⟩
  | cons h ih =>
    cases h' with
    | cons h' =>
      obtain ⟨rfl, rfl, rfl⟩ := ih h'
      exact ⟨rfl, rfl, rfl⟩

theorem head_eq {l : Leaf} (h : Scanned c t (l :: ls) c' t' es) : l = (scan c t).leaf := by
  cases h
  rfl

theorem text_eq (h : Scanned c t ls c' t' es) : t = Leaf.textAll ls ++ t' := by
  induction h with
  | nil c t => rfl
  | cons h ih => rw [Leaf.textAll_cons, List.append_assoc, ← ih, scan_append]

theorem missing_eq (h : Scanned c t ls c' t' es) : ∀ l ∈ ls, l.missing = false := by
  induction h with
  | nil c t => nofun
  | cons h ih => exact List.forall_mem_cons.2 ⟨missing_scan _ _, ih⟩

theorem bare_eq (h : Scanned c t ls c' t' es) : ∀ l ∈ ls, l.bare = l := by
  induction h with
  | nil c t => nofun
  | cons h ih => exact List.forall_mem_cons.2 ⟨bare_scan _ _, ih⟩

/-- Every directive has a width and lies inside the leaves. -/
theorem inside (h : Scanned c t ls c' t' es) : DirectiveEntry.Inside 0 (Leaf.widthAll ls) es := by
  induction h with
  | nil c t => nofun
  | cons h ih =>
    rw [Leaf.widthAll_cons]
    refine ((entries_scan _ _).mono le_rfl (Nat.le_add_right _ _)).append ?_
    exact (ih.shift _).mono (Nat.zero_le _) (Nat.add_comm _ _).le

theorem directives_eq (h : Scanned c t ls c' t' es) :
    c'.directives = DirectiveEntry.stateBehind es c.directives := by
  induction h with
  | nil c t => rfl
  | cons h ih => rw [DirectiveEntry.stateBehind_append, DirectiveEntry.stateBehind_map_shift, ih, directives_scan]

/-- No leaf but that of the end of a text is without text. -/
theorem textAll_ne_nil (h : Scanned c t ls c' t' es) (hne : ls ≠ []) (hkind : ∀ l ∈ ls, l.tokenKind ≠ .eof) :
    Leaf.textAll ls ≠ [] := by
  cases h with
  | nil => exact absurd rfl hne
  | cons h =>
    have htext := text_scan_ne_nil (hkind _ List.mem_cons_self)
    simp [Leaf.fullText, htext]

/-- Behind some tokens a line starts if the text of the tokens ends one. -/
theorem lineStart_eq (h : Scanned c t ls c' t' es) (hne : ls ≠ []) (hkind : ∀ l ∈ ls, l.tokenKind ≠ .eof) :
    c'.lineStart = (Leaf.textAll ls).endsLine := by
  induction h with
  | nil => exact absurd rfl hne
  | @cons c c' t t' ls es h ih =>
    have hkind' : ∀ l ∈ ls, l.tokenKind ≠ .eof := fun l hl => hkind l (List.mem_cons_of_mem _ hl)
    by_cases hls : ls = []
    · subst hls
      cases h
      rw [lineStart_scan (hkind _ (List.mem_singleton_self _))]
      simp
    · rw [Leaf.textAll_cons, Text.endsLine_append (h.textAll_ne_nil hls hkind'), ih hls hkind']

end Scanned

/-! ## All tokens from a place on -/

/-- All tokens of a text from a context on, the last of which ends the text. -/
def tokenizeRest (c : Context) (t : Text) : List Leaf := tokenizeFrom t.length c t

/-- As many tokens as the text has characters are enough. -/
theorem tokenizeFrom_eq {fuel : Nat} {c : Context} {t : Text} (h : t.length ≤ fuel) :
    tokenizeFrom fuel c t = tokenizeRest c t := by
  induction fuel using Nat.strong_induction_on generalizing c t with
  | _ fuel ih =>
    obtain rfl | hlt := h.eq_or_lt
    · rfl
    obtain ⟨fuel, rfl⟩ := Nat.exists_eq_succ_of_ne_zero (Nat.ne_zero_of_lt hlt)
    by_cases hk : (scan c t).leaf.tokenKind = .eof
    · rw [tokenizeRest]
      cases t <;> simp [tokenizeFrom, hk]
    · have hrest := length_rest_scan_lt hk
      obtain ⟨n, hn⟩ := Nat.exists_eq_succ_of_ne_zero (Nat.ne_zero_of_lt hrest)
      rw [tokenizeRest, hn, Nat.succ_eq_add_one, Nat.succ_eq_add_one]
      simp only [tokenizeFrom, hk, if_false]
      rw [ih fuel (by omega) (by omega), ih n (by omega) (by omega)]

theorem tokenize_eq (symbols : List Text) (t : Text) :
    tokenize symbols t = tokenizeRest (.initial symbols) t := rfl

theorem tokenizeRest_of_eq {c : Context} {t : Text} (h : (scan c t).leaf.tokenKind = .eof) :
    tokenizeRest c t = [(scan c t).leaf] := by
  rw [tokenizeRest]
  cases t <;> simp [tokenizeFrom, h]

theorem tokenizeRest_of_ne {c : Context} {t : Text} (h : (scan c t).leaf.tokenKind ≠ .eof) :
    tokenizeRest c t = (scan c t).leaf :: tokenizeRest (scan c t).context (scan c t).rest := by
  have hrest := length_rest_scan_lt h
  obtain ⟨n, hn⟩ := Nat.exists_eq_succ_of_ne_zero (Nat.ne_zero_of_lt hrest)
  rw [tokenizeRest, hn, Nat.succ_eq_add_one]
  simp only [tokenizeFrom, h, if_false]
  rw [tokenizeFrom_eq (by omega)]

theorem head?_tokenizeRest (c : Context) (t : Text) :
    (tokenizeRest c t).head? = some (scan c t).leaf := by
  by_cases h : (scan c t).leaf.tokenKind = .eof
  · rw [tokenizeRest_of_eq h, List.head?_cons]
  · rw [tokenizeRest_of_ne h, List.head?_cons]

/-- Each token takes a character but the one that ends the text. -/
theorem length_tokenizeRest_le (c : Context) (t : Text) : (tokenizeRest c t).length ≤ t.length + 1 := by
  induction hn : t.length using Nat.strong_induction_on generalizing c t with
  | _ n ih =>
    by_cases h : (scan c t).leaf.tokenKind = .eof
    · simp [tokenizeRest_of_eq h]
    · have hrest := length_rest_scan_lt h
      have := ih _ (hn ▸ hrest) (scan c t).context _ rfl
      rw [tokenizeRest_of_ne h, List.length_cons]
      omega

namespace Scanned

variable {c c' : Context} {t t' : Text} {ls : List Leaf} {es : List DirectiveEntry}

/-- The tokens from a place on begin with the ones that are scanned there. -/
theorem tokenizeRest_eq (h : Scanned c t ls c' t' es) (hkind : ∀ l ∈ ls, l.tokenKind ≠ .eof) :
    tokenizeRest c t = ls ++ tokenizeRest c' t' := by
  induction h with
  | nil c t => rfl
  | cons h ih =>
    rw [tokenizeRest_of_ne (hkind _ (by simp)), ih fun l hl => hkind l (List.mem_cons_of_mem _ hl),
      List.cons_append]

/-- The tokens from a place on are scanned one after the other, up to the end of the text. -/
theorem exists_eof (c : Context) (t : Text) : ∃ ls c' t' es, Scanned c t ls c' t' es ∧
    (∀ l ∈ ls, l.tokenKind ≠ .eof) ∧ (scan c' t').leaf.tokenKind = .eof := by
  induction hn : t.length using Nat.strong_induction_on generalizing c t with
  | _ n ih =>
    by_cases h : (scan c t).leaf.tokenKind = .eof
    · exact ⟨[], c, t, [], .nil c t, nofun, h⟩
    · obtain ⟨ls, c', t', es, hs, hkind, hend⟩ :=
        ih _ (hn ▸ length_rest_scan_lt h) (scan c t).context (scan c t).rest rfl
      exact ⟨_, c', t', _, .cons hs, List.forall_mem_cons.2 ⟨h, hkind⟩, hend⟩

/-- The first tokens from a place on are scanned there. -/
theorem of_prefix {as bs : List Leaf} (h : tokenizeRest c t = as ++ bs) (hbs : bs ≠ []) :
    ∃ c' t' es, Scanned c t as c' t' es ∧ (∀ l ∈ as, l.tokenKind ≠ .eof) ∧
      bs = tokenizeRest c' t' := by
  induction as generalizing c t with
  | nil => exact ⟨c, t, [], .nil c t, nofun, h.symm⟩
  | cons a as ih =>
    by_cases hk : (scan c t).leaf.tokenKind = .eof
    · rw [tokenizeRest_of_eq hk] at h
      have := (List.cons.inj h).2
      simp [hbs] at this
    · rw [tokenizeRest_of_ne hk, List.cons_append] at h
      obtain ⟨rfl, htail⟩ := List.cons.inj h
      obtain ⟨c', t', es, hs, hkind, rfl⟩ := ih htail
      exact ⟨c', t', _, .cons hs, List.forall_mem_cons.2 ⟨hk, hkind⟩, rfl⟩

end Scanned

/-- Every token from a place on is the scan of a rest of the text. -/
theorem exists_scan_of_mem_tokenizeRest {c : Context} {t : Text} {l : Leaf} (h : l ∈ tokenizeRest c t) :
    ∃ c' t', l = (scan c' t').leaf := by
  obtain ⟨as, bs, happ⟩ := List.append_of_mem h
  obtain ⟨c', t', es, -, -, hbs⟩ := Scanned.of_prefix happ (List.cons_ne_nil _ _)
  have hhead := head?_tokenizeRest c' t'
  rw [← hbs, List.head?_cons] at hhead
  exact ⟨c', t', Option.some.inj hhead⟩

/-- The tokens from a place on are the text from there on. -/
theorem textAll_tokenizeRest (c : Context) (t : Text) : Leaf.textAll (tokenizeRest c t) = t := by
  obtain ⟨ls, c', t', es, hs, hkind, heof⟩ := Scanned.exists_eof c t
  have happ := scan_append c' t'
  rw [rest_scan heof, List.append_nil] at happ
  rw [hs.tokenizeRest_eq hkind, tokenizeRest_of_eq heof, Leaf.textAll_append, Leaf.textAll_cons, Leaf.textAll_nil,
    List.append_nil, happ, ← hs.text_eq]

/-! ## Locality -/

/-- Where a text stands between another one and what is behind that, two characters behind the first one
are seen alike, unless a lone line feed stands there. -/
theorem Text.Behind.append_left {a b r r' : Text} (h : Behind (a ++ b) r r') (hb : b ≠ []) (hlf : b ≠ ['\n']) :
    Behind a (b ++ r) (b ++ r') := by
  refine .inr ?_
  match b with
  | [] => exact absurd rfl hb
  | [c] =>
    rcases h with h | h
    · exact absurd (by simpa using h) hlf
    · have : r.take 1 = r'.take 1 := by simpa [List.take_take] using congrArg (List.take 1) h
      simp [this]
  | c :: d :: b => rfl

/-- A token that is scanned without a complaint is more than a line feed. -/
theorem fullText_scan_ne {c : Context} {t : Text} (hkind : (scan c t).leaf.tokenKind ≠ .eof)
    (hdiag : (scan c t).leaf.diagnostics = []) : (scan c t).leaf.fullText ≠ ['\n'] := by
  intro hfull
  have htext := text_scan_ne_nil hkind
  rcases scan_cases c t with ⟨-, hs⟩ | ⟨d, z, -, hs⟩
  · rw [hs] at hkind
    exact hkind rfl
  · have hcode : (RawToken.read d z).code = none := by
      rw [hs] at hdiag
      simp only [Scan.ofRaw, List.append_eq_nil_iff] at hdiag
      exact code_eq_none_of_complain hdiag.1.2
    have hlast : (scan c t).leaf.text.getLast? ≠ some '\n' := by
      rw [hs]
      exact RawToken.getLast?_read_ne hcode
    -- the text itself takes at least one of the characters, so it takes the line feed
    have hlone : (scan c t).leaf.text = ['\n'] := by
      rw [Leaf.fullText, List.append_eq_singleton_iff] at hfull
      rcases hfull with ⟨hleft, -⟩ | ⟨hleft, -⟩
      · exact absurd (List.append_eq_nil_iff.1 hleft).2 htext
      · rcases List.append_eq_singleton_iff.1 hleft with ⟨-, h⟩ | ⟨-, h⟩
        · exact h
        · exact absurd h htext
    exact hlast (by rw [hlone]; rfl)

theorem Scanned.textAll_ne {c c' : Context} {t t' : Text} {ls : List Leaf} {es : List DirectiveEntry}
    (h : Scanned c t ls c' t' es) (hkind : ∀ l ∈ ls, l.tokenKind ≠ .eof) (hdiag : ∀ l ∈ ls, l.diagnostics = []) :
    Leaf.textAll ls ≠ ['\n'] := by
  cases h with
  | nil => simp
  | cons h =>
    have htext := text_scan_ne_nil (hkind _ List.mem_cons_self)
    intro hlf
    rcases List.append_eq_singleton_iff.1 ((Leaf.textAll_cons _ _).symm.trans hlf) with ⟨hnil, -⟩ | ⟨hlone, -⟩
    · simp [Leaf.fullText, htext] at hnil
    · exact fullText_scan_ne (hkind _ List.mem_cons_self) (hdiag _ List.mem_cons_self) hlone

/-- **Locality of scanning several tokens.** Tokens that are scanned without a complaint are scanned again
from their own texts, whatever stood before them, if the text behind begins with the same two characters
or the last token ends with a line feed. -/
theorem Scanned.local {c c' : Context} {t r r' : Text} {ls : List Leaf} {es : List DirectiveEntry}
    (h : Scanned c t ls c' r es) (hkind : ∀ l ∈ ls, l.tokenKind ≠ .eof) (hdiag : ∀ l ∈ ls, l.diagnostics = [])
    (hb : Text.Behind (Leaf.textAll ls) r r') : Scanned c (Leaf.textAll ls ++ r') ls c' r' es := by
  induction h with
  | nil c t => exact .nil c r'
  | @cons c c' t r ls es h ih =>
    have hkind' : ∀ l ∈ ls, l.tokenKind ≠ .eof := fun l hl => hkind l (List.mem_cons_of_mem _ hl)
    have hdiag' : ∀ l ∈ ls, l.diagnostics = [] := fun l hl => hdiag l (List.mem_cons_of_mem _ hl)
    have hk := hkind _ List.mem_cons_self
    have hd := hdiag _ List.mem_cons_self
    -- what stands behind the first token looks the same from there
    have hfirst : Text.Behind (scan c t).leaf.fullText (scan c t).rest (Leaf.textAll ls ++ r') := by
      rw [h.text_eq]
      cases ls with
      | nil => simpa using hb
      | cons l ls => exact hb.append_left (h.textAll_ne_nil (by simp) hkind') (h.textAll_ne hkind' hdiag')
    have hscan := scan_local hk hd hfirst
    have hrest : Scanned (scan c t).context (Leaf.textAll ls ++ r') ls c' r' es := by
      by_cases hls : ls = []
      · subst hls
        cases h
        exact .nil _ _
      · refine ih hkind' hdiag' ?_
        exact hb.of_append (h.textAll_ne_nil hls hkind')
    have hall : Scanned c ((scan c t).leaf.fullText ++ (Leaf.textAll ls ++ r')) _ c' r' _ :=
      .cons (by rw [hscan]; exact hrest)
    rw [hscan] at hall
    rwa [Leaf.textAll_cons, List.append_assoc]

end IncrementalSyntax

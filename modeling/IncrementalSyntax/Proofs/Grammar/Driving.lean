import IncrementalSyntax.Proofs.Grammar.Events
import IncrementalSyntax.Proofs.Grammar.Lists

/-!
# A machine beside the parser

An action of the machine that builds by events does what an action of the parser does: it does not fail, has the
same result, and stands beside the parser again. Below the elements that the parser has emitted in its scope the
builder has those of the scopes around it, so a mark at the start of the scope lies inside the innermost open
node.

## Main definitions

* `Events.Beside`: a state of the machine beside a state of the parser
* `Events.Drives`: an action of the machine that does what an action of the parser does

## Main results

* `Events.Drives.bind`, `Events.Drives.scope`, `Events.Drives.node`: actions put together
* `Events.Drives.fix`, `Events.Drives.loop`: recursion and repetition, which never fail
* `Events.Drives.skipToRecovery`: skipped tokens
-/

namespace IncrementalSyntax

open Green (leavesAll)
open Parse (Ready)

namespace Events

variable {version : LanguageVersion} {σ : Type} [TokenSource σ] (S : Supply version σ)

/-! ## Side by side -/

/-- No element has the token that ends the text. -/
def Inner (gs : List Green) : Prop := ∀ l ∈ leavesAll gs, l.tokenKind ≠ .eof

/-- Every mark from `start` on lies inside the innermost of some open nodes. -/
def Inside (start : Nat) (opened : List (Kind × Nat)) : Prop := ∀ o ∈ opened.head?, o.2 ≤ start

/-- **Beside.** The machine stands where the parser does. The elements emitted in the scope stand behind `base`,
of which there are `start`, and the machine looks ahead `ahead` times. -/
structure Beside (start ahead : Nat) (opened : List (Kind × Nat)) (base : List Green) (p : Parser σ)
    (m : Machine σ) : Prop where
  ready : Ready S p
  inner : Inner p.out
  length : base.length = start
  source : m.source = p.source
  opened : m.builder.opened = opened
  elements : m.builder.elements = base ++ p.out
  contexts : m.contexts = p.contexts
  lookahead : m.lookahead = ahead
  status : m.status = p.status
  version : m.version = p.version

/-- **Moved.** The machine has passed no slot back, and if it stands still then so does the parser. The same
lists are open. While the machine looks ahead nothing but the source of the parser changes. -/
structure Moved (ahead : Nat) (p p' : Parser σ) (m m' : Machine σ) : Prop where
  contexts : p'.contexts = p.contexts
  position : m.position ≤ m'.position
  still : m'.position = m.position → S.upcoming p'.source = S.upcoming p.source
  quiet : ahead ≠ 0 → p' = { p with source := p'.source }

/-- The node that is open around a scope from its start on, if there is one. -/
def around (start : Nat) (o : Option NodeKind) : List (Kind × Nat) := o.toList.map fun k => (.node k, start)

/-- **Drives.** Where at most `n` tokens are to come, which meet `pre`, the action of the machine has the result
of the action of the parser, and stands beside it behind it. It takes at least `taken` tokens. The node `o` is
open around the scope before, and the node `o'` behind. -/
def Drives {α : Type} (start n ahead : Nat) (o o' : Option NodeKind) (pre : List Leaf → Prop) (taken : α → Nat)
    (a : Parse σ α) (e : Events σ α) : Prop :=
  ∀ (p : Parser σ) (m : Machine σ) (base : List Green) (opened : List (Kind × Nat)), Inside start opened →
    Beside S start ahead (around start o ++ opened) base p m → pre (S.upcoming p.source) →
    (S.upcoming p.source).length ≤ n →
    (S.upcoming (a p).2.source).length + taken (a p).1 ≤ (S.upcoming p.source).length ∧
      ∃ m', e m = some ((a p).1, m') ∧ Beside S start ahead (around start o' ++ opened) base (a p).2 m' ∧
        Moved S ahead p (a p).2 m m'

variable {S}

theorem Moved.refl (ahead : Nat) (p : Parser σ) (m : Machine σ) : Moved S ahead p p m m :=
  ⟨rfl, le_rfl, fun _ => rfl, fun _ => rfl⟩

theorem Moved.trans {ahead : Nat} {p p' p'' : Parser σ} {m m' m'' : Machine σ} (h : Moved S ahead p p' m m')
    (h' : Moved S ahead p' p'' m' m'') : Moved S ahead p p'' m m'' where
  contexts := h'.contexts.trans h.contexts
  position := h.position.trans h'.position
  still hstill := by
    have hfirst : m'.position = m.position := le_antisymm (hstill ▸ h'.position) h.position
    rw [h'.still (hstill.trans hfirst.symm), h.still hfirst]
  quiet hahead := by
    rw [h'.quiet hahead, h.quiet hahead]

/-- Where a slot is passed nothing is said about the tokens. -/
theorem Moved.of_lt {p p' : Parser σ} {m m' : Machine σ} (hcontexts : p'.contexts = p.contexts)
    (h : m.position < m'.position) : Moved S 0 p p' m m' :=
  ⟨hcontexts, h.le, fun hstill => absurd hstill h.ne', fun hahead => absurd rfl hahead⟩

/-- Where no slot is passed the tokens are the same. -/
theorem Moved.of_eq {p p' : Parser σ} {m m' : Machine σ} (hcontexts : p'.contexts = p.contexts)
    (h : m'.position = m.position) (hup : S.upcoming p'.source = S.upcoming p.source) : Moved S 0 p p' m m' :=
  ⟨hcontexts, h.ge, fun _ => hup, fun hahead => absurd rfl hahead⟩

theorem inner_append {gs hs : List Green} : Inner (gs ++ hs) ↔ Inner gs ∧ Inner hs := by
  simp only [Inner, Green.leavesAll_append, List.mem_append]
  exact ⟨fun h => ⟨fun l hl => h l (.inl hl), fun l hl => h l (.inr hl)⟩,
    fun h l hl => hl.elim (h.1 l) (h.2 l)⟩

theorem inner_token {t : Token} : Inner [.token t] ↔ t.leaf.tokenKind ≠ .eof := by
  simp [Inner]

theorem inside_around {start : Nat} {opened : List (Kind × Nat)} (h : Inside start opened) (o : Option NodeKind) :
    Inside start (around start o ++ opened) := by
  cases o with
  | none => exact h
  | some k =>
    rintro b hb
    obtain rfl : (Kind.node k, start) = b := by simpa [around] using hb
    exact le_rfl

namespace Drives

variable {α β : Type} {start n ahead : Nat} {o o' o'' : Option NodeKind} {pre : List Leaf → Prop}
variable {taken : α → Nat} {a : Parse σ α} {e : Events σ α}

/-! ## Actions in a row -/

theorem mono {pre' : List Leaf → Prop} {taken' : α → Nat} {n' : Nat}
    (h : Drives S start n ahead o o' pre taken a e) (hpre : ∀ L, pre' L → pre L) (htaken : ∀ r, taken' r ≤ taken r)
    (hn : n' ≤ n) : Drives S start n' ahead o o' pre' taken' a e := by
  intro p m base opened hopened hbeside hP hlen
  obtain ⟨htake, hrest⟩ := h p m base opened hopened hbeside (hpre _ hP) (hlen.trans hn)
  exact ⟨(Nat.add_le_add_left (htaken _) _).trans htake, hrest⟩

theorem pure {r : α} (htaken : taken r = 0) :
    Drives S start n ahead o o pre taken (Pure.pure r) (Pure.pure r) := by
  intro p m base opened _ hbeside _ _
  refine ⟨?_, m, rfl, hbeside, .refl _ p m⟩
  show _ + taken r ≤ _
  rw [htaken, Nat.add_zero]
  exact le_rfl

theorem nothing {r : α} : Drives S start n ahead o o pre (fun _ => 0) (Pure.pure r) (Pure.pure r) := pure rfl

/-- Actions in a row. There are fewer tokens to come for the second one. -/
theorem bind {f : α → Parse σ β} {g : α → Events σ β} {taken' : α → β → Nat} {total : β → Nat}
    (h : Drives S start n ahead o o' pre taken a e)
    (hf : ∀ r, Drives S start (n - taken r) ahead o' o'' (fun _ => True) (taken' r) (f r) (g r))
    (htotal : ∀ r b, total b ≤ taken r + taken' r b) :
    Drives S start n ahead o o'' pre total (a >>= f) (e >>= g) := by
  intro p m base opened hopened hbeside hP hlen
  obtain ⟨htake, m', hrun, hbeside', hmoved⟩ := h p m base opened hopened hbeside hP hlen
  obtain ⟨htake', m'', hrun', hbeside'', hmoved'⟩ :=
    hf (a p).1 (a p).2 m' base opened hopened hbeside' trivial (by omega)
  refine ⟨?_, m'', ?_, hbeside'', hmoved.trans hmoved'⟩
  · have := htotal (a p).1 (f (a p).1 (a p).2).1
    show (S.upcoming (f (a p).1 (a p).2).2.source).length + total (f (a p).1 (a p).2).1 ≤ _
    omega
  · show (e m).bind (fun r => g r.1 r.2) = _
    rw [hrun]
    exact hrun'

/-- An action, and another one whose tokens do not count. -/
theorem bind_rest {f : α → Parse σ β} {g : α → Events σ β} {total : β → Nat}
    (h : Drives S start n ahead o o' pre taken a e)
    (hf : ∀ r, Drives S start (n - taken r) ahead o' o'' (fun _ => True) (fun _ => 0) (f r) (g r))
    (htotal : ∀ r b, total b ≤ taken r) : Drives S start n ahead o o'' pre total (a >>= f) (e >>= g) :=
  bind h hf htotal

/-- An action whose tokens do not count, and another one. -/
theorem seq {f : Parse σ β} {g : Events σ β} {taken' : β → Nat} {k : Unit → Nat} {a : Parse σ Unit}
    {e : Events σ Unit} (h : Drives S start n ahead o o' pre k a e)
    (hf : Drives S start n ahead o' o'' (fun _ => True) taken' f g) :
    Drives S start n ahead o o'' pre taken' (do a; f) (do e; g) :=
  bind h (fun _ => hf.mono (fun _ => id) (fun _ => le_rfl) (Nat.sub_le _ _)) fun _ _ => Nat.le_add_left _ _

/-- An action that takes a token ends a round. -/
theorem take_round {f : Parse σ Bool} {g : Events σ Bool} {a : Parse σ Unit} {e : Events σ Unit}
    (h : Drives S start n ahead o o' pre (fun _ => 1) a e)
    (hf : Drives S start (n - 1) ahead o' o'' (fun _ => True) (fun _ => 0) f g) :
    Drives S start n ahead o o'' pre (fun b => b.toNat) (do a; f) (do e; g) :=
  bind_rest h (fun _ => hf) fun _ b => Bool.toNat_le b

/-- A result is read off the state. -/
theorem look {c : Parse σ β} {d : Events σ β} {f : β → Parse σ α} {g : β → Events σ α} (fact : β → List Leaf → Prop)
    (hc : ∀ p m, Ready S p → m.source = p.source → m.contexts = p.contexts → m.version = p.version →
      (c p).2 = p ∧ d m = some ((c p).1, m) ∧ fact (c p).1 (S.upcoming p.source))
    (h : ∀ b, Drives S start n ahead o o' (fun L => pre L ∧ fact b L) taken (f b) (g b)) :
    Drives S start n ahead o o' pre taken (c >>= f) (d >>= g) := by
  intro p m base opened hopened hbeside hP hlen
  obtain ⟨hsame, hrun, hfact⟩ := hc p m hbeside.ready hbeside.source hbeside.contexts hbeside.version
  have hbind : (c >>= f) p = f (c p).1 p := congrArg (f (c p).1) hsame
  have hbind' : (d >>= g) m = g (c p).1 m := by
    show (d m).bind (fun r => g r.1 r.2) = _
    rw [hrun]
    rfl
  rw [hbind, hbind']
  exact h _ p m base opened hopened hbeside ⟨hP, hfact⟩ hlen

theorem peek_bind {f : TokenKind → Parse σ α} {g : TokenKind → Events σ α}
    (h : ∀ k, Drives S start n ahead o o' (fun L => pre L ∧ frontKind L = k) taken (f k) (g k)) :
    Drives S start n ahead o o' pre taken (Parse.peek >>= f) (peek >>= g) := by
  refine look _ (fun p m hp hsource _ _ => ⟨rfl, ?_, S.frontKind_upcoming hp.ok⟩) h
  rw [peek, hsource]
  rfl

theorem isAt_bind {k : TokenKind} {f : Bool → Parse σ α} {g : Bool → Events σ α}
    (h : ∀ b, Drives S start n ahead o o' (fun L => pre L ∧ decide (frontKind L = k) = b) taken (f b) (g b)) :
    Drives S start n ahead o o' pre taken (Parse.isAt k >>= f) (isAt k >>= g) := by
  have hpeek : ∀ k', Drives S start n ahead o o' (fun L => pre L ∧ frontKind L = k') taken (f (decide (k' = k)))
      (g (decide (k' = k))) := fun k' =>
    (h (decide (k' = k))).mono (fun L hL => ⟨hL.1, by rw [hL.2]⟩) (fun _ => le_rfl) le_rfl
  exact peek_bind hpeek

/-- Whether two tokens come. -/
theorem atPair_bind {k₁ k₂ : TokenKind} (hk : k₁ ≠ .eof) {f : Bool → Parse σ α} {g : Bool → Events σ α}
    (h : ∀ b, Drives S start n ahead o o'
      (fun L => pre L ∧ (b = true → frontKind L = k₁ ∧ frontKind L.tail = k₂)) taken (f b) (g b)) :
    Drives S start n ahead o o' pre taken (Parse.atPair k₁ k₂ >>= f) (atPair k₁ k₂ >>= g) := by
  refine look _ (fun p m hp hsource _ _ => ⟨rfl, ?_, fun hb => ?_⟩) h
  · show some (decide ((TokenSource.next m.source).1.leaf.tokenKind = k₁) &&
      decide ((TokenSource.next (TokenSource.next m.source).2).1.leaf.tokenKind = k₂), m) = _
    rw [hsource]
    rfl
  · have hpair : (decide ((Parse.peek p).1 = k₁) && decide ((Parse.peekSecond p).1 = k₂)) = true := hb
    simp only [Bool.and_eq_true, decide_eq_true_eq] at hpair
    have hfront : frontKind (S.upcoming p.source) = k₁ := (S.frontKind_upcoming hp.ok).trans hpair.1
    exact ⟨hfront, (Parse.peekSecond_eq S hp (hfront ▸ hk)).symm.trans hpair.2⟩

/-! ## Tokens -/

end Drives

section Tokens

variable {start : Nat} {opened : List (Kind × Nat)} {base : List Green} {p : Parser σ} {m : Machine σ}

theorem Beside.front (h : Beside S start 0 opened base p m) :
    frontKind (S.upcoming p.source) = (TokenSource.next m.source).1.leaf.tokenKind := by
  rw [S.frontKind_upcoming h.ready.ok, h.source]

/-- An element is emitted, and the source moves on or gives an identity. -/
theorem Beside.emit (h : Beside S start 0 opened base p m) {s : σ} (hs : S.Ok s) {g : Green} (hg : Inner [g])
    (position : Nat) : Beside S start 0 opened base { p with source := s, out := p.out ++ [g] }
      { m with source := s, position := position, builder := m.builder.push g } where
  ready := ⟨hs, h.ready.version⟩
  inner := inner_append.2 ⟨h.inner, hg⟩
  length := h.length
  source := rfl
  opened := h.opened
  elements := by
    show m.builder.elements ++ [g] = base ++ (p.out ++ [g])
    rw [h.elements, List.append_assoc]
  contexts := h.contexts
  lookahead := h.lookahead
  status := h.status
  version := h.version

end Tokens

variable (S) in
/-- **Passes.** Both actions take the token at the front, if that does not end the text. -/
def Passes (ahead : Nat) (a : Parse σ Unit) (e : Events σ Unit) : Prop :=
  ∀ (start : Nat) (p : Parser σ) (m : Machine σ) (base : List Green) (opened : List (Kind × Nat)),
    Beside S start ahead opened base p m → frontKind (S.upcoming p.source) ≠ .eof →
    (∃ l, S.upcoming p.source = l :: S.upcoming (a p).2.source) ∧
      ∃ m', e m = some ((), m') ∧ Beside S start ahead opened base (a p).2 m' ∧ Moved S ahead p (a p).2 m m'

theorem passes_bump : Passes S 0 Parse.bump bump := by
  intro start p m base opened hbeside hne
  have hkind : (TokenSource.next p.source).1.leaf.tokenKind ≠ .eof := by rwa [← S.frontKind_upcoming hbeside.ready.ok]
  obtain ⟨hok, hcons⟩ := S.next_of_ne hbeside.ready.ok hkind
  refine ⟨⟨_, hcons⟩, { m with
    source := (TokenSource.next p.source).2
    position := m.position + 1
    builder := m.builder.push (.token (TokenSource.next p.source).1) }, ?_, ?_, .of_lt rfl (Nat.lt_succ_self _)⟩
  · rw [bump_eq hbeside.lookahead, hbeside.source]
  · exact hbeside.emit hok (inner_token.2 hkind) _

theorem passes_skip {ahead : Nat} : Passes S ahead Parse.skip skip := by
  intro start p m base opened hbeside hne
  have hkind : (TokenSource.next p.source).1.leaf.tokenKind ≠ .eof := by rwa [← S.frontKind_upcoming hbeside.ready.ok]
  obtain ⟨hok, hcons⟩ := S.next_of_ne hbeside.ready.ok hkind
  have hparser : Parse.skip p = ((), { p with source := (TokenSource.next p.source).2 }) := by
    show (if (TokenSource.next p.source).1.leaf.tokenKind = .eof then Pure.pure () else do
      let _ ← Parse.take
      Pure.pure () : Parse σ Unit) p = _
    rw [if_neg hkind]
    rfl
  have hmachine : Events.skip m =
      some ((), { m with source := (TokenSource.next p.source).2, position := m.position + 1 }) := by
    show (if (TokenSource.next m.source).1.leaf.tokenKind = .eof then Pure.pure () else do
      let _ ← take
      Pure.pure () : Events σ Unit) m = _
    rw [hbeside.source, if_neg hkind, ← hbeside.source]
    rfl
  rw [hparser, hmachine]
  exact ⟨⟨_, hcons⟩, _, rfl, { hbeside with ready := ⟨hok, hbeside.ready.version⟩, source := rfl },
    rfl, Nat.le_succ _, fun hstill => absurd hstill (Nat.succ_ne_self _), fun _ => rfl⟩

namespace Drives

variable {α β : Type} {start n ahead : Nat} {o o' o'' : Option NodeKind} {pre : List Leaf → Prop}
variable {taken : α → Nat} {a : Parse σ α} {e : Events σ α}

/-- A token is taken, of which it is known that it does not end the text. -/
theorem of_passes {a : Parse σ Unit} {e : Events σ Unit} (h : Passes S ahead a e)
    (hne : ∀ L, pre L → frontKind L ≠ .eof) : Drives S start n ahead o o pre (fun _ => 1) a e := by
  intro p m base opened hopened hbeside hP hlen
  obtain ⟨⟨l, hl⟩, hrest⟩ := h start p m base _ hbeside (hne _ hP)
  exact ⟨by rw [hl]; exact le_rfl, hrest⟩

/-- A token is taken, and what comes behind it is known. -/
theorem passes_then {Q : List Leaf → Prop} {a : Parse σ Unit} {e : Events σ Unit} {f : Parse σ α} {g : Events σ α}
    {total : α → Nat} (h : Passes S ahead a e) (hne : ∀ L, pre L → frontKind L ≠ .eof)
    (hpre : ∀ l L, pre (l :: L) → Q L) (hf : Drives S start (n - 1) ahead o o' Q taken f g)
    (htotal : ∀ r, total r ≤ taken r + 1) : Drives S start n ahead o o' pre total (do a; f) (do e; g) := by
  intro p m base opened hopened hbeside hP hlen
  obtain ⟨⟨l, hl⟩, m', hrun, hbeside', hmoved⟩ := h start p m base _ hbeside (hne _ hP)
  rw [hl, List.length_cons] at hlen
  obtain ⟨htake, m'', hrun', hbeside'', hmoved'⟩ :=
    hf (a p).2 m' base opened hopened hbeside' (hpre l _ (hl ▸ hP)) (by omega)
  refine ⟨?_, m'', ?_, hbeside'', hmoved.trans hmoved'⟩
  · have := htotal (f (a p).2).1
    show (S.upcoming (f (a p).2).2.source).length + total (f (a p).2).1 ≤ _
    rw [hl, List.length_cons]
    omega
  · show (e m).bind (fun r => g r.2) = _
    rw [hrun]
    exact hrun'

/-- Some token is taken, and an action follows whose tokens do not count. -/
theorem bump_seq {f : Parse σ α} {g : Events σ α} (hne : ∀ L, pre L → frontKind L ≠ .eof)
    (hf : Drives S start (n - 1) 0 o o' (fun _ => True) (fun _ => 0) f g) :
    Drives S start n 0 o o' pre (fun _ => 0) (do Parse.bump; f) (do Events.bump; g) :=
  bind_rest (of_passes passes_bump hne) (fun _ => hf) fun _ _ => Nat.zero_le _

/-- A token that is taken ends a round. -/
theorem bump_round {f : Parse σ Bool} {g : Events σ Bool} (hne : ∀ L, pre L → frontKind L ≠ .eof)
    (hf : Drives S start (n - 1) 0 o o' (fun _ => True) (fun _ => 0) f g) :
    Drives S start n 0 o o' pre (fun b => b.toNat) (do Parse.bump; f) (do Events.bump; g) :=
  take_round (of_passes passes_bump hne) hf

theorem eat {k : TokenKind} (hk : k ≠ .eof) :
    Drives S start n 0 o o pre (fun b => b.toNat) (Parse.eat k) (eat k) := by
  refine isAt_bind fun b => ?_
  cases b with
  | false => exact pure rfl
  | true =>
    have hne : ∀ L, pre L ∧ decide (frontKind L = k) = true → frontKind L ≠ .eof := fun L hL =>
      of_decide_eq_true hL.2 ▸ hk
    exact bump_round hne nothing

theorem noteMissing : Drives S start n 0 o o pre (fun _ => 0) Parse.noteMissing noteMissing := by
  intro p m base opened hopened hbeside hP hlen
  have hparser : Parse.noteMissing p = ((), if frontKind (S.upcoming p.source) = .eof
      then { p with status := .unexpectedEnd } else p) := by
    rw [S.frontKind_upcoming hbeside.ready.ok]
    rfl
  have hmachine : Events.noteMissing m = some ((), if frontKind (S.upcoming p.source) = .eof
      then { m with status := .unexpectedEnd } else m) := by
    rw [hbeside.front]
    rfl
  rw [hparser, hmachine]
  by_cases hend : frontKind (S.upcoming p.source) = .eof
  · rw [if_pos hend, if_pos hend]
    exact ⟨le_rfl, _, rfl, { hbeside with ready := ⟨hbeside.ready.ok, hbeside.ready.version⟩, status := rfl },
      .of_eq rfl rfl rfl⟩
  · rw [if_neg hend, if_neg hend]
    exact ⟨le_rfl, _, rfl, hbeside, .refl _ p m⟩

/-- A token that the source does not feed is emitted. -/
theorem emit_token {l : Leaf} (hl : l.tokenKind ≠ .eof) :
    Drives S start n 0 o o pre (fun _ => 0) (do Parse.emit (.token ⟨← Parse.fresh, l⟩))
      (do push (.token ⟨← fresh, l⟩)) := by
  intro p m base opened hopened hbeside hP hlen
  obtain ⟨hok, hup⟩ := S.fresh hbeside.ready.ok
  refine ⟨(congrArg List.length hup).le, { m with
    source := (TokenSource.fresh p.source).2
    builder := m.builder.push (.token ⟨(TokenSource.fresh p.source).1, l⟩) }, ?_, ?_, .of_eq rfl rfl hup⟩
  · rw [← hbeside.source]
    rfl
  · exact hbeside.emit hok (inner_token.2 hl) m.position

theorem missing {k : TokenKind} (hk : k ≠ .eof) (code : Code) :
    Drives S start n 0 o o pre (fun _ => 0) (Parse.missing k code) (missing k code) := by
  have hbuild : Drives S start n 0 o o pre (fun _ => 0) (Parse.missing k code) (do
      Events.noteMissing
      push (.token ⟨← fresh, .absent k (.ofCode code 0 0 (if code = Code.tokenExpected then [Kind.describe k] else []))⟩)) :=
    seq noteMissing (emit_token hk)
  intro p m base opened hopened hbeside hP hlen
  have hrun : Events.missing k code m = (do
      Events.noteMissing
      push (.token ⟨← fresh, .absent k (.ofCode code 0 0 (if code = Code.tokenExpected then [Kind.describe k] else []))⟩))
        m := by
    show (if m.lookahead = 0 then _ else _ : Events σ Unit) m = _
    rw [if_pos hbeside.lookahead]
  rw [hrun]
  exact hbuild p m base opened hopened hbeside hP hlen

theorem expect {k : TokenKind} (hk : k ≠ .eof) :
    Drives S start n 0 o o pre (fun _ => 0) (Parse.expect k) (expect k) := by
  refine bind_rest (eat hk) (fun b => ?_) fun _ _ => Nat.zero_le _
  cases b with
  | false => exact missing hk _
  | true => exact pure rfl

/-- The token that has to come is there. -/
theorem expect_front {k : TokenKind} (hk : k ≠ .eof) :
    Drives S start n 0 o o (fun L => pre L ∧ frontKind L = k) (fun _ => 1) (Parse.expect k) (Events.expect k) := by
  have hexpect : Drives S start n 0 o o (fun L => pre L ∧ frontKind L = k) (fun _ => 0) (Parse.expect k)
      (Events.expect k) := expect hk
  intro p m base opened hopened hbeside hP hlen
  obtain ⟨-, hrest⟩ := hexpect p m base opened hopened hbeside hP hlen
  obtain ⟨⟨l, hl⟩, -⟩ := passes_bump start p m base _ hbeside (hP.2 ▸ hk)
  refine ⟨?_, hrest⟩
  rw [Parse.expect_of_eq hbeside.ready hP.2, hl]
  exact le_rfl

/-! ## Nodes -/

/-- A node is opened at the start of the scope. -/
theorem openAt_then {kind : NodeKind} {g : Events σ α}
    (h : Drives S start n 0 (some kind) o' pre taken a g) :
    Drives S start n 0 none o' pre taken a (do openAt start kind; g) := by
  intro p m base opened hopened hbeside hP hlen
  have hmark : m.builder.mark = start + p.out.length := by
    rw [Builder.mark, hbeside.elements, List.length_append, hbeside.length]
  have hadmits : m.builder.admits start = true := by
    simp only [Builder.admits, hmark, hbeside.opened, Bool.and_eq_true, decide_eq_true_eq, Option.all_eq_true]
    exact ⟨Nat.le_add_right _ _, fun b hb => hopened b hb⟩
  have hopen : openAt start kind m = some ((), { m with builder := m.builder.openAt start kind }) := if_pos hadmits
  have hbeside' : Beside S start 0 (around start (some kind) ++ opened) base p
      { m with builder := m.builder.openAt start kind } := { hbeside with
    opened := by
      show (Kind.node kind, min start m.builder.mark) :: m.builder.opened = _
      rw [hmark, hbeside.opened, Nat.min_eq_left (Nat.le_add_right _ _)]
      rfl }
  obtain ⟨htake, m', hrun, hbeside'', hmoved⟩ := h p _ base opened hopened hbeside' hP hlen
  refine ⟨htake, m', ?_, hbeside'', { hmoved with }⟩
  show (openAt start kind m).bind (fun r => g r.2) = _
  rw [hopen]
  exact hrun

/-- The node that is open around the scope is closed over all that was emitted in it. -/
theorem closeNode {kind : NodeKind} :
    Drives S start n 0 (some kind) none pre (fun _ => 0) (Parse.enclose kind) closeNode := by
  intro p m base opened hopened hbeside hP hlen
  obtain ⟨hok, hup⟩ := S.fresh hbeside.ready.ok
  have hopened' : m.builder.opened = (Kind.node kind, start) :: opened := hbeside.opened
  refine ⟨(congrArg List.length hup).le, { m with
    source := (TokenSource.fresh p.source).2
    builder := ⟨opened, base ++ [.ofChildren (TokenSource.fresh p.source).1 (.node kind) p.out],
      (TokenSource.fresh p.source).1 + 1⟩ }, ?_, ?_, .of_eq rfl rfl hup⟩
  · rw [closeNode_eq hopened', Builder.wrap, hbeside.source, hbeside.elements, ← hbeside.length, List.take_left,
      List.drop_left]
  · exact {
      ready := ⟨hok, hbeside.ready.version⟩
      inner := by
        intro l hl
        have hl : l ∈ leavesAll [Green.ofChildren (TokenSource.fresh p.source).1 (.node kind) p.out] := hl
        exact hbeside.inner l (by simpa using hl)
      length := hbeside.length
      source := rfl
      opened := rfl
      elements := rfl
      contexts := hbeside.contexts
      lookahead := hbeside.lookahead
      status := hbeside.status
      version := hbeside.version }

/-- An action sees only what it emits itself, and the builder is asked for a mark. -/
theorem scope {g : Nat → Events σ α} (h : ∀ start, Drives S start n 0 none none pre taken a (g start)) :
    Drives S start n 0 o o pre taken (Parse.scope a) (do g (← mark)) := by
  intro p m base opened hopened hbeside hP hlen
  have hlength : m.builder.mark = (base ++ p.out).length := congrArg List.length hbeside.elements
  have hinside : Inside (base ++ p.out).length (around start o ++ opened) := by
    intro b hb
    have hle : b.2 ≤ start := inside_around hopened o b hb
    rw [List.length_append, hbeside.length]
    omega
  have hscope : Beside S (base ++ p.out).length 0 (around start o ++ opened) (base ++ p.out) { p with out := [] } m :=
    { hbeside with
      ready := ⟨hbeside.ready.ok, hbeside.ready.version⟩
      inner := fun _ hl => absurd hl List.not_mem_nil
      length := rfl
      elements := by rw [hbeside.elements, List.append_nil] }
  obtain ⟨htake, m', hrun, hbeside', hmoved⟩ :=
    h _ { p with out := [] } m (base ++ p.out) (around start o ++ opened) hinside hscope hP hlen
  refine ⟨htake, m', ?_, ?_, { hmoved with quiet := fun hahead => absurd rfl hahead }⟩
  · show g m.builder.mark m = _
    rw [hlength]
    exact hrun
  · exact { hbeside' with
      ready := ⟨hbeside'.ready.ok, hbeside'.ready.version⟩
      inner := inner_append.2 ⟨hbeside.inner, hbeside'.inner⟩
      length := hbeside.length
      elements := by
        show m'.builder.elements = base ++ (p.out ++ (a { p with out := [] }).2.out)
        rw [hbeside'.elements, List.append_assoc] }

/-- A node is opened in front of what an action emits, and closed behind it. -/
theorem node {kind : NodeKind} {k : Unit → Nat} {a : Parse σ Unit} {e : Events σ Unit}
    (h : ∀ start, Drives S start n 0 (some kind) none pre k (do a; Parse.enclose kind) e) :
    Drives S start n 0 o o pre k (Parse.node kind a) (do openNode kind; e) := by
  -- to open a node at the next element is to open it at a mark set there
  have hmark : Drives S start n 0 o o pre k (Parse.node kind a) (do let start ← mark; openAt start kind; e) :=
    scope fun start => openAt_then (h start)
  intro p m base opened hopened hbeside hP hlen
  have hadmits : m.builder.admits m.builder.mark = true := by
    simp only [Builder.admits, hbeside.opened, Bool.and_eq_true, decide_eq_true_eq, Option.all_eq_true]
    refine ⟨le_rfl, fun b hb => ?_⟩
    have hle : b.2 ≤ start := inside_around hopened o b hb
    rw [Builder.mark, hbeside.elements, List.length_append, hbeside.length]
    omega
  have hopen : openAt m.builder.mark kind m = openNode kind m := by
    rw [openAt, if_pos hadmits, Builder.openAt, Builder.mark, Nat.min_self]
    rfl
  have hrun : (do let start ← mark; openAt start kind; e : Events σ Unit) m = (do openNode kind; e : Events σ Unit) m := by
    show (openAt m.builder.mark kind m).bind (fun r => e r.2) = (openNode kind m).bind fun r => e r.2
    rw [hopen]
  rw [← hrun]
  exact hmark p m base opened hopened hbeside hP hlen

/-- A list is open while its elements are read. -/
theorem within {context : ListContext} {k : Unit → Nat} {a : Parse σ Unit} {e : Events σ Unit}
    (h : Drives S start n 0 o o pre k a e) :
    Drives S start n 0 o o pre k (Parse.within context a) (do openList context; e; closeList) := by
  intro p m base opened hopened hbeside hP hlen
  obtain ⟨htake, m', hrun, hbeside', hmoved⟩ :=
    h { p with contexts := context :: p.contexts } { m with contexts := context :: m.contexts } base opened hopened
      { hbeside with
        ready := ⟨hbeside.ready.ok, hbeside.ready.version⟩
        contexts := congrArg (context :: ·) hbeside.contexts } hP hlen
  refine ⟨htake, { m' with contexts := m'.contexts.tail }, ?_, ?_,
    { hmoved with contexts := rfl, quiet := fun hahead => absurd rfl hahead }⟩
  · show (e { m with contexts := context :: m.contexts }).bind (fun r => closeList r.2) = _
    rw [hrun]
    rfl
  · exact { hbeside' with
      ready := ⟨hbeside'.ready.ok, hbeside'.ready.version⟩
      contexts := by
        show m'.contexts.tail = p.contexts
        rw [hbeside'.contexts, hmoved.contexts]
        rfl }

/-- Something stands behind a list. -/
theorem within_then {context : ListContext} {k : Unit → Nat} {a : Parse σ Unit} {e : Events σ Unit} {f : Parse σ α}
    {g : Events σ α} (h : Drives S start n 0 o o pre k a e) (hf : Drives S start n 0 o o' (fun _ => True) taken f g) :
    Drives S start n 0 o o' pre taken (do Parse.within context a; f) (do openList context; e; closeList; g) := by
  have hlist : Drives S start n 0 o o pre k (Parse.within context a) (do openList context; e; closeList) := within h
  have hseq := seq hlist hf
  simp only [bind_assoc] at hseq
  exact hseq

/-- Either the source offers a node or the action is on its own. -/
theorem reuseOr {kinds : NodeKind → Bool} {k : Unit → Nat} {a : Parse σ Unit} {e : Events σ Unit}
    (hk : k () ≤ 1) (h : Drives S start n 0 o o pre k a e) :
    Drives S start n 0 o o pre k (Parse.reuseOr kinds a) (reuseOr kinds e) := by
  intro p m base opened hopened hbeside hP hlen
  cases hr : TokenSource.reuse? kinds p.source with
  | none =>
    have hparser : Parse.reuseOr kinds a p = a p := by rw [Parse.reuseOr, hr]
    have hmachine : Events.reuseOr kinds e m = e m := by
      show (Events.reuse kinds m).bind (fun r => (if r.1 = true then Pure.pure () else e) r.2) = _
      rw [Events.reuse, if_pos hbeside.lookahead, hbeside.source, hr]
      rfl
    rw [hparser, hmachine]
    exact h p m base opened hopened hbeside hP hlen
  | some offer =>
    obtain ⟨g, s⟩ := offer
    obtain ⟨hok, hup, hne, -⟩ := S.reuse hbeside.ready.ok hr
    have hparser : Parse.reuseOr kinds a p = ((), { p with source := s, out := p.out ++ [g] }) := by
      rw [Parse.reuseOr, hr]
    have hmachine : Events.reuseOr kinds e m =
        some ((), { m with source := s, position := m.position + 1, builder := m.builder.push g }) := by
      show (Events.reuse kinds m).bind (fun r => (if r.1 = true then Pure.pure () else e) r.2) = _
      rw [Events.reuse, if_pos hbeside.lookahead, hbeside.source, hr]
      rfl
    have hinner : Inner [g] := by
      -- behind the node stands at least the token that ends the text
      obtain ⟨init, last, hlast, -⟩ := S.exists_upcoming_eq_append hok
      have hsplit : S.upcoming p.source = (g.leaves ++ init) ++ [last] := by rw [hup, hlast, List.append_assoc]
      intro l hl
      exact S.tokenKind_ne_eof hbeside.ready.ok hsplit l (List.mem_append_left _ (by simpa using hl))
    rw [hparser, hmachine]
    refine ⟨?_, _, rfl, hbeside.emit hok hinner _, .of_lt rfl (Nat.lt_succ_self _)⟩
    have := List.length_pos_of_ne_nil hne
    show (S.upcoming s).length + k () ≤ _
    rw [hup, List.length_append]
    omega

/-! ## Recursion -/

/-- Recursion in which every call comes after a token never gets to the end of its depth. -/
theorem fixUpTo {body : Parse σ Unit → Parse σ Unit} {body' : Events σ Unit → Events σ Unit} {k : Unit → Nat}
    (h : ∀ j ≤ n, ∀ i e, (∀ start o, Drives S start (j - 1) 0 o o pre k i e) →
      ∀ start o, Drives S start j 0 o o pre k (body i) (body' e)) (depth : Nat) :
    ∀ j ≤ n, j ≤ depth → ∀ start o,
      Drives S start j 0 o o pre k (Parse.fixUpTo body depth) (Events.fixUpTo body' depth) := by
  induction depth with
  | zero =>
    intro j _ hj start o p m base opened _ hbeside _ hlen
    exact absurd (hlen.trans hj) (S.not_length_le_zero hbeside.ready.ok)
  | succ depth ih => exact fun j hjn hj => h j hjn _ _ (ih (j - 1) (by omega) (by omega))

/-- The depth of a recursion is more than the number of tokens left. -/
theorem of_fixUpTo {body : Parse σ Unit → Parse σ Unit} {body' : Events σ Unit → Events σ Unit} {k : Unit → Nat}
    (h : ∀ depth, ∀ j ≤ n, j ≤ depth →
      Drives S start j ahead o o pre k (Parse.fixUpTo body depth) (Events.fixUpTo body' depth)) :
    Drives S start n ahead o o pre k (Parse.fix body) (Events.fix body') := by
  intro p m base opened hopened hbeside hP hlen
  have hdepth : (S.upcoming p.source).length ≤ TokenSource.remaining p.source + 1 := S.remaining hbeside.ready.ok
  unfold Events.fix
  rw [hbeside.source]
  exact h _ _ hlen hdepth p m base opened hopened hbeside hP le_rfl

theorem fix {body : Parse σ Unit → Parse σ Unit} {body' : Events σ Unit → Events σ Unit} {k : Unit → Nat}
    (h : ∀ j ≤ n, ∀ i e, (∀ start o, Drives S start (j - 1) 0 o o pre k i e) →
      ∀ start o, Drives S start j 0 o o pre k (body i) (body' e)) :
    Drives S start n 0 o o pre k (Parse.fix body) (Events.fix body') :=
  of_fixUpTo fun depth j hjn hj => fixUpTo h depth j hjn hj start o

/-- A round that says that there may be more has taken a token, so it has moved. -/
theorem moving {round : Parse σ Bool} {round' : Events σ Bool}
    (h : Drives S start n ahead o o pre (fun b => b.toNat) round round') :
    Drives S start n ahead o o pre (fun b => b.toNat) round (moving round') := by
  intro p m base opened hopened hbeside hP hlen
  obtain ⟨htake, m', hrun, hbeside', hmoved⟩ := h p m base opened hopened hbeside hP hlen
  refine ⟨htake, m', moving_eq_some_iff.2 ⟨hrun, fun hb => ?_⟩, hbeside', hmoved⟩
  by_contra hstuck
  have hstill := hmoved.still (le_antisymm (Nat.not_lt.1 hstuck) hmoved.position)
  rw [hstill, hb] at htake
  exact absurd htake (Nat.not_succ_le_self _)

/-- **Repetition.** If every round but the last takes a token, the repetition comes to its end. -/
theorem loop {round : Parse σ Bool} {round' : Events σ Bool}
    (h : Drives S start n ahead o o (fun _ => True) (fun b => b.toNat) round round') :
    Drives S start n ahead o o pre (fun _ => 0) (Parse.loop round) (loop round') := by
  have hupTo : ∀ depth, ∀ j ≤ n, j ≤ depth → Drives S start j ahead o o (fun _ => True) (fun _ => 0)
      (Parse.fixUpTo (fun again => do if ← round then again) depth)
      (Events.fixUpTo (fun again => do if ← Events.moving round' then again) depth) := by
    intro depth
    induction depth with
    | zero =>
      intro j _ hj p m base opened _ hbeside _ hlen
      exact absurd (hlen.trans hj) (S.not_length_le_zero hbeside.ready.ok)
    | succ depth ih =>
      intro j hjn hj
      refine bind_rest (moving (h.mono (fun _ => id) (fun _ => le_rfl) hjn)) (fun b => ?_) fun _ _ => Nat.zero_le _
      cases b with
      | false => exact pure rfl
      | true => exact ih (j - 1) (by omega) (by omega)
  exact of_fixUpTo fun depth j hjn hj => (hupTo depth j hjn hj).mono (fun _ _ => trivial) (fun _ => le_rfl) le_rfl

/-! ## Looking ahead -/

/-- Behind looking ahead both stand where they stood in front of it. -/
theorem speculate {c : Parse σ β} {d : Events σ β} {k : β → Nat} (h : Drives S start n (ahead + 1) o o pre k c d) :
    Drives S start n ahead o o pre (fun _ => 0) (Parse.speculate c) (speculate d) := by
  intro p m base opened hopened hbeside hP hlen
  obtain ⟨-, m', hrun, hbeside', hmoved⟩ := h p { m with lookahead := m.lookahead + 1 } base opened hopened
    { hbeside with lookahead := congrArg (· + 1) hbeside.lookahead } hP hlen
  have hquiet := hmoved.quiet (Nat.succ_ne_zero _)
  refine ⟨le_rfl, { m' with
    source := m.source
    position := m.position
    lookahead := m'.lookahead - 1 }, ?_, ?_, rfl, le_rfl, fun _ => rfl, fun _ => rfl⟩
  · show (d { m with lookahead := m.lookahead + 1 }).bind
      (fun r => (endLookahead (m.source, m.position) r.2).bind fun r' => some (r.1, r'.2)) = _
    rw [hrun]
    rfl
  · exact {
      ready := hbeside.ready
      inner := hbeside.inner
      length := hbeside.length
      source := hbeside.source
      opened := hbeside'.opened
      elements := by
        rw [hquiet] at hbeside'
        exact hbeside'.elements
      contexts := by
        rw [hquiet] at hbeside'
        exact hbeside'.contexts
      lookahead := by
        show m'.lookahead - 1 = ahead
        rw [hbeside'.lookahead, Nat.add_sub_cancel]
      status := by
        rw [hquiet] at hbeside'
        exact hbeside'.status
      version := by
        rw [hquiet] at hbeside'
        exact hbeside'.version }

/-! ## Skipped tokens -/

theorem forM_push {τ : Type} (gs : List Green) (m : Machine τ) :
    gs.forM push m = some ((), { m with builder := { m.builder with elements := m.builder.elements ++ gs } }) := by
  induction gs generalizing m with
  | nil => simp only [List.append_nil]; rfl
  | cons g gs ih =>
    show (gs.forM push { m with builder := m.builder.push g }) = _
    rw [ih]
    simp [Builder.push]

/-- Both have passed the same tokens, which the parser has emitted and the machine has set aside. -/
structure Gathered (q q' : Parser σ) (m m' : Machine σ) : Prop where
  ready : Ready S q'
  inner : Inner q'.out
  ne_nil : q'.out ≠ []
  length : (S.upcoming q'.source).length ≤ (S.upcoming q.source).length
  parser : q' = { q with source := q'.source, out := q'.out }
  machine : m' = { m with source := q'.source, position := m'.position }
  position : m.position ≤ m'.position

theorem atRecoveryPoint_eq {q : Parser σ} {m : Machine σ} (hsource : m.source = q.source)
    (hcontexts : m.contexts = q.contexts) :
    Events.atRecoveryPoint m = some ((Parse.atRecoveryPoint q).1, m) := by
  show some (decide ((TokenSource.next m.source).1.leaf.tokenKind = .eof) ||
    m.contexts.any (·.isRecoveryPoint (TokenSource.next m.source).1.leaf.tokenKind), m) = _
  rw [hsource, hcontexts]
  rfl

theorem frontKind_of_not_recovery {q : Parser σ} (hq : Ready S q) (h : (Parse.atRecoveryPoint q).1 = false) :
    frontKind (S.upcoming q.source) ≠ .eof := by
  rw [Parse.atRecoveryPoint_apply hq] at h
  exact (ListContext.stops_eq_false_iff.1 h).1

/-- One round of the tokens that are skipped behind the first one. -/
def skipRound : Parse σ Bool := do
  if ← Parse.atRecoveryPoint then return false
  Parse.bump
  return true

/-- The tokens behind the first one that is skipped. -/
theorem gather_rest (depth depth' : Nat) {q : Parser σ} {m : Machine σ} (hq : Ready S q) (hinner : Inner q.out)
    (hnil : q.out ≠ []) (hsource : m.source = q.source) (hcontexts : m.contexts = q.contexts)
    (hdepth : (S.upcoming q.source).length ≤ depth) (hdepth' : (S.upcoming q.source).length ≤ depth') :
    ∃ q' m', Parse.fixUpTo (fun again => do if ← skipRound then again) depth q = ((), q') ∧ gather depth' q.out m = some (q'.out, m') ∧ Gathered (S := S) q q' m m' := by
  induction depth generalizing depth' q m with
  | zero => exact absurd hdepth (S.not_length_le_zero hq.ok)
  | succ depth ih =>
    obtain ⟨depth', rfl⟩ : ∃ d, depth' = d + 1 := by
      have := List.length_pos_of_ne_nil (S.upcoming_ne_nil hq.ok)
      exact ⟨depth' - 1, by omega⟩
    have hmachine : gather (depth' + 1) q.out m = (if (Parse.atRecoveryPoint q).1 = true then Pure.pure q.out else do
        let g ← skipped q.out (← take)
        gather depth' (q.out ++ [g]) : Events σ (List Green)) m := by
      rw [gather]
      show (Events.atRecoveryPoint m).bind (fun r => (if r.1 = true then Pure.pure q.out else do
        let g ← skipped q.out (← take)
        gather depth' (q.out ++ [g]) : Events σ (List Green)) r.2) = _
      rw [atRecoveryPoint_eq hsource hcontexts]
      rfl
    have hparser : Parse.fixUpTo (fun again => do if ← skipRound then again) (depth + 1) q =
        (if (Parse.atRecoveryPoint q).1 = true then Pure.pure () else do
          Parse.bump
          Parse.fixUpTo (fun again => do if ← skipRound then again) depth : Parse σ Unit) q := by
      have hround : skipRound q = (if (Parse.atRecoveryPoint q).1 = true then Pure.pure false else do
          Parse.bump
          return true : Parse σ Bool) q := rfl
      show (if (skipRound q).1 = true then Parse.fixUpTo (fun again => do if ← skipRound then again) depth
        else Pure.pure () : Parse σ Unit) (skipRound q).2 = _
      rw [hround]
      cases (Parse.atRecoveryPoint q).1 <;> rfl
    rw [hmachine, hparser]
    -- the parser emits the token that the machine sets aside
    cases hpoint : (Parse.atRecoveryPoint q).1 with
    | true => exact ⟨q, m, rfl, rfl, hq, hinner, hnil, le_rfl, rfl, hsource ▸ rfl, le_rfl⟩
    | false =>
      have hkind : (TokenSource.next q.source).1.leaf.tokenKind ≠ .eof := by
        rw [← S.frontKind_upcoming hq.ok]
        exact frontKind_of_not_recovery hq hpoint
      obtain ⟨hok, hcons⟩ := S.next_of_ne hq.ok hkind
      rw [hcons, List.length_cons] at hdepth hdepth'
      have hnil' : (Parse.bump q).2.out ≠ [] := List.append_ne_nil_of_right_ne_nil _ (List.cons_ne_nil _ _)
      obtain ⟨q', m', hq', hm', hgathered⟩ := ih (q := (Parse.bump q).2)
        (m := { m with source := (TokenSource.next q.source).2, position := m.position + 1 }) depth'
        ⟨hok, hq.version⟩ (inner_append.2 ⟨hinner, inner_token.2 hkind⟩) hnil' rfl hcontexts
        (Nat.le_of_succ_le_succ hdepth) (Nat.le_of_succ_le_succ hdepth')
      refine ⟨q', m', hq', ?_, ?_⟩
      · have hskipped : skipped q.out (TokenSource.next q.source).1 = (Pure.pure (.token (TokenSource.next q.source).1) : Events σ Green) :=
          if_neg (by simpa using hnil)
        show ((skipped q.out (TokenSource.next m.source).1)
          { m with source := (TokenSource.next m.source).2, position := m.position + 1 }).bind
            (fun r => gather depth' (q.out ++ [r.1]) r.2) = _
        rw [hsource, hskipped]
        exact hm'
      · exact {
          ready := hgathered.ready
          inner := hgathered.inner
          ne_nil := hgathered.ne_nil
          length := by
            rw [hcons]
            exact hgathered.length.trans (Nat.le_succ _)
          parser := hgathered.parser
          machine := hgathered.machine
          position := (Nat.le_succ _).trans hgathered.position }

/-- A node opened in front of some elements and closed behind them. -/
theorem openNode_forM_closeNode (kind : NodeKind) (gs : List Green) (m : Machine σ) :
    (do openNode kind; gs.forM push; Events.closeNode : Events σ Unit) m = some ((), { m with
      source := (TokenSource.fresh m.source).2
      builder := ⟨m.builder.opened,
        m.builder.elements ++ [.ofChildren (TokenSource.fresh m.source).1 (.node kind) gs],
        (TokenSource.fresh m.source).1 + 1⟩ }) := by
  show ((gs.forM push { m with builder := m.builder.open' (.node kind) }).bind fun r => Events.closeNode r.2) = _
  rw [forM_push]
  show Events.closeNode { m with builder :=
    ⟨(.node kind, m.builder.elements.length) :: m.builder.opened, m.builder.elements ++ gs, m.builder.nextId⟩ } = _
  rw [closeNode_eq rfl, Builder.wrap, List.take_left, List.drop_left]

/-- The tokens that are skipped where there are any. -/
theorem gather_all {start : Nat} {opened : List (Kind × Nat)} {base : List Green} {p : Parser σ} {m : Machine σ}
    (hbeside : Beside S start 0 opened base p m) (hpoint : (Parse.atRecoveryPoint p).1 = false) :
    ∃ q' m', Parse.skipRest (Parse.bumpUnexpected { p with out := [] }).2 = ((), q') ∧
      gather (TokenSource.remaining m.source + 1) [] m = some (q'.out, m') ∧ Ready S q' ∧ Inner q'.out ∧ q'.out ≠ [] ∧
      (S.upcoming q'.source).length < (S.upcoming p.source).length ∧
      q' = { p with source := q'.source, out := q'.out } ∧ m' = { m with source := q'.source, position := m'.position } ∧
      m.position < m'.position := by
  have hkind : (TokenSource.next p.source).1.leaf.tokenKind ≠ .eof := by
    rw [← S.frontKind_upcoming hbeside.ready.ok]
    exact frontKind_of_not_recovery hbeside.ready hpoint
  obtain ⟨hok, hcons⟩ := S.next_of_ne hbeside.ready.ok hkind
  obtain ⟨hok', hup⟩ := S.fresh hok
  have hremaining := S.remaining hbeside.ready.ok
  rw [hcons, List.length_cons, ← hup] at hremaining
  obtain ⟨q', m', hq', hm', hgathered⟩ := gather_rest (S := S) (q := (Parse.bumpUnexpected { p with out := [] }).2)
    (m := { m with
      source := (TokenSource.fresh (TokenSource.next p.source).2).2
      position := m.position + 1 })
    (TokenSource.remaining (TokenSource.fresh (TokenSource.next p.source).2).2 + 1) (TokenSource.remaining m.source)
    ⟨hok', hbeside.ready.version⟩ (inner_token.2 hkind) (List.cons_ne_nil _ _) rfl hbeside.contexts (S.remaining hok')
    (by rw [hbeside.source]; exact Nat.le_of_succ_le_succ hremaining)
  refine ⟨q', m', hq', ?_, hgathered.ready, hgathered.inner, hgathered.ne_nil, ?_, hgathered.parser, hgathered.machine,
    hgathered.position⟩
  · rw [gather]
    show (Events.atRecoveryPoint m).bind (fun r => (if r.1 = true then Pure.pure [] else do
      let g ← skipped [] (← take)
      gather (TokenSource.remaining m.source) [g] : Events σ (List Green)) r.2) = _
    rw [atRecoveryPoint_eq hbeside.source hbeside.contexts, hpoint]
    show gather (TokenSource.remaining m.source)
      [.token ⟨(TokenSource.fresh (TokenSource.next m.source).2).1, Parse.unexpected (TokenSource.next m.source).1.leaf⟩]
      { m with
        source := (TokenSource.fresh (TokenSource.next m.source).2).2
        position := m.position + 1 } = _
    rw [hbeside.source] at hm' ⊢
    exact hm'
  · have hlength := hgathered.length
    rw [hcons, List.length_cons]
    have hqup : S.upcoming (Parse.bumpUnexpected { p with out := [] }).2.source =
      S.upcoming (TokenSource.next p.source).2 := hup
    rw [hqup] at hlength
    exact Nat.lt_succ_of_le hlength

/-- **Skipped tokens.** What the machine has set aside it adds to the tree in one node. -/
theorem skipToRecovery :
    Drives S start n 0 o o pre (fun b => b.toNat) Parse.skipToRecovery skipToRecovery := by
  intro p m base opened hopened hbeside hP hlen
  have hmachine : Events.skipToRecovery m = (gather (TokenSource.remaining m.source + 1) [] m).bind (fun r =>
      (if r.1.isEmpty then Pure.pure false else do
        (do openNode .skippedTokens; r.1.forM push; Events.closeNode)
        Pure.pure true : Events σ Bool) r.2) := by
    simp only [bind_assoc]
    rfl
  rw [hmachine, Parse.skipToRecovery_apply]
  cases hpoint : (Parse.atRecoveryPoint p).1 with
  | true =>
    have hnone : gather (TokenSource.remaining m.source + 1) [] m = some ([], m) := by
      rw [gather]
      show (Events.atRecoveryPoint m).bind (fun r => (if r.1 = true then Pure.pure [] else do
        let g ← skipped [] (← take)
        gather (TokenSource.remaining m.source) [g] : Events σ (List Green)) r.2) = _
      rw [atRecoveryPoint_eq hbeside.source hbeside.contexts, hpoint]
      rfl
    rw [hnone]
    exact ⟨le_rfl, m, rfl, hbeside, .refl _ p m⟩
  | false =>
    obtain ⟨q', m', hq', hm', hready, hinner, hnil, hlt, hparser', hmachine', hposition⟩ := gather_all hbeside hpoint
    obtain ⟨hok, hup⟩ := S.fresh hready.ok
    have hparser : (if false = true then (Pure.pure false : Parse σ Bool) else do
        Parse.node .skippedTokens do
          Parse.bumpUnexpected
          Parse.skipRest
        return true) p =
        (true, { p with
          source := (TokenSource.fresh q'.source).2
          out := p.out ++ [.ofChildren (TokenSource.fresh q'.source).1 (.node .skippedTokens) q'.out] }) := by
      show (true, { (Parse.enclose .skippedTokens (Parse.skipRest (Parse.bumpUnexpected { p with out := [] }).2).2).2 with
        out := p.out ++ (Parse.enclose .skippedTokens
          (Parse.skipRest (Parse.bumpUnexpected { p with out := [] }).2).2).2.out }) = _
      rw [hq', hparser']
      rfl
    have hrun : (gather (TokenSource.remaining m.source + 1) [] m).bind (fun r =>
        (if r.1.isEmpty then Pure.pure false else do
          (do openNode .skippedTokens; r.1.forM push; Events.closeNode)
          Pure.pure true : Events σ Bool) r.2) = some (true, { m with
        source := (TokenSource.fresh q'.source).2
        position := m'.position
        builder := ⟨m.builder.opened,
          m.builder.elements ++ [.ofChildren (TokenSource.fresh q'.source).1 (.node .skippedTokens) q'.out],
          (TokenSource.fresh q'.source).1 + 1⟩ }) := by
      rw [hm']
      show (if q'.out.isEmpty then Pure.pure false else do
          (do openNode .skippedTokens; q'.out.forM push; Events.closeNode)
          Pure.pure true : Events σ Bool) m' = _
      rw [if_neg (by simpa using hnil)]
      show ((do openNode .skippedTokens; q'.out.forM push; Events.closeNode : Events σ Unit) m').bind
        (fun r => some (true, r.2)) = _
      rw [openNode_forM_closeNode, hmachine']
      rfl
    have hemit : Inner [.ofChildren (TokenSource.fresh q'.source).1 (.node .skippedTokens) q'.out] := by
      intro l hl
      exact hinner l (by simpa using hl)
    rw [hparser, hrun]
    refine ⟨?_, _, rfl, ?_, .of_lt rfl hposition⟩
    · show (S.upcoming (TokenSource.fresh q'.source).2).length + 1 ≤ _
      rw [hup]
      exact hlt
    · exact { hbeside.emit hok hemit m'.position with
        source := rfl
        opened := hbeside.opened }

/-! ## What a contract says of the tokens taken -/

/-- The number of tokens that an action takes can be read off a contract of the parser alone. -/
theorem taking {C : Parse.Contract α} (h : Drives S start n ahead o o' pre taken a e) (hC : Parse.Acts S C n a)
    (hpre : ∀ L, pre L → C.pre L) : Drives S start n ahead o o' pre C.taken a e := by
  intro p m base opened hopened hbeside hP hlen
  obtain ⟨-, hrest⟩ := h p m base opened hopened hbeside hP hlen
  exact ⟨(hC.keeps p hbeside.ready (hpre _ hP)).2.2 hlen, hrest⟩

/-- Recursion in which what the inner calls take is known beforehand. -/
theorem fixUpTo_taking {body : Parse σ Unit → Parse σ Unit} {body' : Events σ Unit → Events σ Unit}
    {C : Parse.Contract Unit} (hC : ∀ depth j, j ≤ depth → Parse.Acts S C j (Parse.fixUpTo body depth))
    (h : ∀ j i e, (∀ start o, Drives S start (j - 1) 0 o o C.pre C.taken i e) →
      ∀ start o, Drives S start j 0 o o C.pre (fun _ => 0) (body i) (body' e)) (depth : Nat) :
    ∀ j ≤ depth, ∀ start o,
      Drives S start j 0 o o C.pre C.taken (Parse.fixUpTo body depth) (Events.fixUpTo body' depth) := by
  induction depth with
  | zero =>
    intro j hj start o p m base opened _ hbeside _ hlen
    exact absurd (hlen.trans hj) (S.not_length_le_zero hbeside.ready.ok)
  | succ depth ih =>
    intro j hj start o
    exact taking (h j _ _ (ih (j - 1) (by omega)) start o) (hC (depth + 1) j hj) fun _ => id

end Drives

end Events

end IncrementalSyntax

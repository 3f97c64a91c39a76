import IncrementalSyntax.Grammar.Root
import IncrementalSyntax.Proofs.Green.Leaves

/-!
# Supplies of tokens

What the parser gets from a source is a list of tokens, the last of which ends the text. A source may
offer a whole node instead of its tokens. Such a node must be one that the parser would have built out of
them, which is what a node *replays* means here.

## Main definitions

* `TokenList.WellFormed`, `TokenList.upcoming`: lists of tokens that end with the end of the text
* `Parse.statementUpTo`, `Parse.memberUpTo`: the recursive productions with their depth
* `Replays`, `Good`, `Sound`: trees whose statements and members are built again out of their tokens
* `Supply`: what the parser may rely on of a source
* `Supply.ofTokenList`: a list of tokens as a supply
-/

namespace IncrementalSyntax

/-- The kind of the first of some leaves; that of the end of a text if there is none. -/
def frontKind (leaves : List Leaf) : TokenKind := (leaves.head?.map Leaf.tokenKind).getD .eof

@[simp] theorem frontKind_cons (l : Leaf) (ls : List Leaf) : frontKind (l :: ls) = l.tokenKind := rfl

theorem frontKind_append {as : List Leaf} (h : as ≠ []) (bs : List Leaf) :
    frontKind (as ++ bs) = frontKind as := by
  obtain ⟨l, ls, rfl⟩ := List.exists_cons_of_ne_nil h
  rfl

/-! ## Lists of tokens -/

namespace TokenList

/-- The leaves of the tokens to come, with the one that ends the text. -/
def upcoming (s : TokenList) : List Leaf := s.tokens.map Token.leaf ++ [s.last.leaf]

/-- **Well-formed.** Tokens of a text: none of them is missing, and only the last one ends the text. -/
structure WellFormed (s : TokenList) : Prop where
  last : s.last.leaf.tokenKind = .eof
  tokens : ∀ t ∈ s.tokens, t.leaf.tokenKind ≠ .eof
  present : ∀ l ∈ s.upcoming, l.missing = false

/-- Any tokens can be made a list. -/
theorem exists_upcoming_eq {ls : List Leaf} {e : Leaf} (he : e.tokenKind = .eof)
    (hls : ∀ l ∈ ls, l.tokenKind ≠ .eof) (hpresent : ∀ l ∈ ls ++ [e], l.missing = false) :
    ∃ s : TokenList, s.WellFormed ∧ s.upcoming = ls ++ [e] := by
  have hup : (⟨ls.map (⟨0, ·⟩), ⟨0, e⟩, 0⟩ : TokenList).upcoming = ls ++ [e] := by
    simp [upcoming, Function.comp_def]
  refine ⟨_, ⟨he, fun t ht => ?_, hup ▸ hpresent⟩, hup⟩
  obtain ⟨l, hl, rfl⟩ := List.mem_map.1 ht
  exact hls l hl

end TokenList

/-! ## Nodes that are built again -/

namespace Parse

variable {σ : Type} [TokenSource σ]

/-- A statement with statements inside it to a depth. -/
def statementUpTo : Nat → Parse σ Unit :=
  fixUpTo fun inner => reuseOr NodeKind.isStatement (statementBody inner)

/-- A member with members inside it to a depth. -/
def memberUpTo : Nat → Parse σ Unit :=
  fixUpTo fun inner => reuseOr NodeKind.isMember (memberOf inner)

end Parse

/-- **Replays.** A production builds the node again from its tokens, whatever comes behind them, takes
nothing else and changes nothing else. Behind an open-ended node no `else` may come. -/
def Replays (version : LanguageVersion) (production : Nat → Parse TokenList Unit) (g : Green) : Prop :=
  ∀ (depth : Nat) (p : Parser TokenList) (rest : List Leaf), p.source.WellFormed →
    p.version = version → p.source.upcoming = g.leaves ++ rest → g.leaves.length ≤ depth →
    (g.isOpenEnded = true → frontKind rest ≠ .keyword .elseKw) →
    ∃ g' s', production depth p = ((), { p with source := s', out := p.out ++ [g'] }) ∧
      g'.shape = g.shape ∧ s'.WellFormed ∧ s'.upcoming = rest

namespace Green

/-- A statement or a member, which the parser may be offered whole. -/
def isUnit (g : Green) : Bool := g.nodeKind?.any fun k => k.isStatement || k.isMember

/-- **Good.** The node ends with a closing token, and it is built again out of its tokens, unless it
carries a diagnostic or an `else` got lost in it. No member is open-ended, and no block. -/
structure Good (version : LanguageVersion) (g : Green) : Prop where
  closed : Closed [g]
  shut : g.nodeKind?.any (fun k => k.isMember || k = .block) = true → g.isOpenEnded = false
  statement : ¬ Flagged [g] → g.missesElse .eof = false → g.nodeKind?.any NodeKind.isStatement = true →
    Replays version Parse.statementUpTo g
  block : ¬ Flagged [g] → g.missesElse .eof = false → g.nodeKind?.any (· = .block) = true →
    Replays version (fun _ => Parse.block) g
  member : ¬ Flagged [g] → g.missesElse .eof = false → g.nodeKind?.any NodeKind.isMember = true →
    Replays version Parse.memberUpTo g

/-- **Sound.** All statements and members of a tree are good. -/
def Sound (version : LanguageVersion) (g : Green) : Prop :=
  ∀ s, Sub s g → s.isUnit = true → Good version s

variable {version : LanguageVersion}

theorem sound_token (t : Token) : Sound version (.token t) := by
  intro s hs hu
  cases hs
  simp [isUnit, nodeKind?] at hu

theorem Sound.of_sub {g s : Green} (h : Sound version g) (hs : Sub s g) : Sound version s :=
  fun r hr hu => h r (hr.trans hs) hu

theorem sound_of_children {g : Green} (h : ∀ c ∈ g.children, Sound version c)
    (hg : g.isUnit = true → Good version g) : Sound version g := by
  intro s hs hu
  cases hs with
  | self => exact hg hu
  | child hc hs => exact h _ hc s hs hu

theorem sound_ofChildren {id : Id} {kind : Kind} {cs : List Green} {as : List Annotation}
    (h : ∀ c ∈ cs, Sound version c)
    (hg : (ofChildren id kind cs as).isUnit = true → Good version (ofChildren id kind cs as)) :
    Sound version (ofChildren id kind cs as) :=
  sound_of_children h hg

end Green

/-! ## Supplies -/

/-- **Supply.** What the parser relies on of a source in a good state: it feeds the leaves `upcoming`, the
last of which ends the text, and a node that it offers stands for the leaves of the node. -/
structure Supply (version : LanguageVersion) (σ : Type) [TokenSource σ] where
  /-- The good states. -/
  Ok : σ → Prop
  /-- The leaves to come. -/
  upcoming : σ → List Leaf
  /-- No open-ended node is offered in front of an `else`. -/
  Careful : Prop
  present : ∀ {s}, Ok s → (TokenSource.next s).1.leaf.missing = false
  next_of_ne : ∀ {s}, Ok s → (TokenSource.next s).1.leaf.tokenKind ≠ .eof →
    Ok (TokenSource.next s).2 ∧
      upcoming s = (TokenSource.next s).1.leaf :: upcoming (TokenSource.next s).2
  next_of_eq : ∀ {s}, Ok s → (TokenSource.next s).1.leaf.tokenKind = .eof →
    upcoming s = [(TokenSource.next s).1.leaf]
  fresh : ∀ {s}, Ok s → Ok (TokenSource.fresh s).2 ∧ upcoming (TokenSource.fresh s).2 = upcoming s
  remaining : ∀ {s}, Ok s → (upcoming s).length ≤ TokenSource.remaining s + 1
  reuse : ∀ {s kinds g s'}, Ok s → TokenSource.reuse? kinds s = some (g, s') →
    Ok s' ∧ upcoming s = g.leaves ++ upcoming s' ∧ g.leaves ≠ [] ∧ g.nodeKind?.any kinds = true ∧
      ¬ Green.Flagged [g] ∧ Green.scannedAll [g] = g.leaves ∧ g.Sound version ∧ g.Fine
  offered : ∀ {s : σ} {kinds g s'}, TokenSource.reuse? kinds s = some (g, s') → g.nodeKind?.any kinds = true
  careful : Careful → ∀ {s kinds g s'}, Ok s → TokenSource.reuse? kinds s = some (g, s') → g.isUnit = true →
    g.missesElse (frontKind (upcoming s')) = false

namespace Supply

variable {version : LanguageVersion} {σ : Type} [TokenSource σ] (S : Supply version σ) {s : σ}

/-- The first of the leaves to come is the one that the source shows. -/
theorem upcoming_eq_cons (h : S.Ok s) : ∃ rest, S.upcoming s = (TokenSource.next s).1.leaf :: rest := by
  by_cases hk : (TokenSource.next s).1.leaf.tokenKind = .eof
  · exact ⟨[], S.next_of_eq h hk⟩
  · exact ⟨_, (S.next_of_ne h hk).2⟩

theorem frontKind_upcoming (h : S.Ok s) :
    frontKind (S.upcoming s) = (TokenSource.next s).1.leaf.tokenKind := by
  obtain ⟨rest, hrest⟩ := S.upcoming_eq_cons h
  rw [hrest, frontKind_cons]

theorem upcoming_ne_nil (h : S.Ok s) : S.upcoming s ≠ [] := by
  obtain ⟨rest, hrest⟩ := S.upcoming_eq_cons h
  simp [hrest]

theorem not_length_le_zero (h : S.Ok s) : ¬ (S.upcoming s).length ≤ 0 := by
  simpa using S.upcoming_ne_nil h

/-- The last of the leaves to come ends the text. -/
theorem exists_upcoming_eq_append (h : S.Ok s) :
    ∃ init l, S.upcoming s = init ++ [l] ∧ l.tokenKind = .eof := by
  induction hn : (S.upcoming s).length generalizing s with
  | zero => exact absurd (List.length_eq_zero_iff.1 hn) (S.upcoming_ne_nil h)
  | succ n ih =>
    by_cases hk : (TokenSource.next s).1.leaf.tokenKind = .eof
    · exact ⟨[], _, S.next_of_eq h hk, hk⟩
    · obtain ⟨hok, hcons⟩ := S.next_of_ne h hk
      rw [hcons, List.length_cons, Nat.add_right_cancel_iff] at hn
      obtain ⟨init, l, hl, hkind⟩ := ih hok hn
      exact ⟨_ :: init, l, by rw [hcons, hl, List.cons_append], hkind⟩

theorem missing_eq_false (h : S.Ok s) : ∀ l ∈ S.upcoming s, l.missing = false := by
  induction hn : (S.upcoming s).length generalizing s with
  | zero => exact absurd (List.length_eq_zero_iff.1 hn) (S.upcoming_ne_nil h)
  | succ n ih =>
    by_cases hk : (TokenSource.next s).1.leaf.tokenKind = .eof
    · rw [S.next_of_eq h hk]
      simpa using S.present h
    · obtain ⟨hok, hcons⟩ := S.next_of_ne h hk
      rw [hcons, List.length_cons, Nat.add_right_cancel_iff] at hn
      rw [hcons]
      exact List.forall_mem_cons.2 ⟨S.present h, ih hok hn⟩

/-- Only the last of the leaves to come ends the text. -/
theorem tokenKind_ne_eof (h : S.Ok s) {init : List Leaf} {l : Leaf} (hup : S.upcoming s = init ++ [l]) :
    ∀ a ∈ init, a.tokenKind ≠ .eof := by
  induction init generalizing s with
  | nil => exact fun _ ha => absurd ha List.not_mem_nil
  | cons b init ih =>
    by_cases hk : (TokenSource.next s).1.leaf.tokenKind = .eof
    · have hlen := congrArg List.length ((S.next_of_eq h hk).symm.trans hup)
      simp at hlen
    · obtain ⟨hok, hcons⟩ := S.next_of_ne h hk
      obtain ⟨rfl, hrest⟩ := List.cons.inj (hcons.symm.trans hup)
      exact List.forall_mem_cons.2 ⟨hk, ih hok hrest⟩

/-- A list of tokens feeds its tokens and never offers a node. -/
def ofTokenList (version : LanguageVersion) : Supply version TokenList where
  Ok := TokenList.WellFormed
  upcoming := TokenList.upcoming
  Careful := True
  present := by
    rintro ⟨ts, last, id⟩ h
    cases ts with
    | nil => exact h.present _ (by simp [TokenList.upcoming, TokenSource.next])
    | cons t ts => exact h.present _ (by simp [TokenList.upcoming, TokenSource.next])
  next_of_ne := by
    rintro ⟨ts, last, id⟩ h hk
    cases ts with
    | nil => exact absurd h.last hk
    | cons t ts =>
      refine ⟨⟨h.last, fun u hu => h.tokens u (List.mem_cons_of_mem _ hu), fun l hl => h.present l ?_⟩, rfl⟩
      exact List.mem_cons_of_mem _ hl
  next_of_eq := by
    rintro ⟨ts, last, id⟩ h hk
    cases ts with
    | nil => rfl
    | cons t ts => exact absurd hk (h.tokens t (by simp))
  fresh h := ⟨⟨h.last, h.tokens, h.present⟩, rfl⟩
  remaining := by
    intro s _
    simp [TokenList.upcoming, TokenSource.remaining]
  reuse := by
    rintro s kinds g s' _ ⟨⟩
  offered := nofun
  careful := by
    rintro - s kinds g s' _ ⟨⟩

end Supply

end IncrementalSyntax

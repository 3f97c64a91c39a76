import IncrementalSyntax.Proofs.Red.Traversal
import IncrementalSyntax.Proofs.Stream.Identities
import IncrementalSyntax.Proofs.Token.Intact
import IncrementalSyntax.Proofs.Tree.Formed

/-!
# What carries no diagnostic

The flags of an element say whether a diagnostic stands in it. Whatever the parser does to recover from an error leaves
one: a token is made up with a diagnostic, the first token that is skipped gets one, and so does what an incomplete
member lacks. What is wrong with a token or with the trivia around it is reported in the token. So in an element without
the flag nothing is wrong, and a look at the flag keeps all that is wrong from being used again.

## Main definitions

* `Red.Intact`: a place where nothing is wrong

## Main results

* `Green.Made.flagged`: what is left by recovery carries a diagnostic
* `OldTree.Valid.exists_scan`: a token of a tree is scanned in the state at its offset
* `Session.intact_spec`: what the flag of an element says of all that is in it
-/

namespace IncrementalSyntax

open Green hiding id

/-! ## Nodes -/

namespace Green

/-- Where no diagnostic is flagged, none is flagged further inside. -/
theorem Fine.flags_of_sub {g root : Green} (h : root.Fine) (hsub : Sub g root)
    (hflags : root.flags.diagnostics = false) : g.flags.diagnostics = false := by
  rw [Bool.eq_false_iff, ne_eq, ← (h.of_sub hsub).exact.flagged_iff]
  rintro ⟨l, hl, hne⟩
  exact hne (h.clean_of_mem hflags (hsub.leaves_subset l (by simpa using hl))).1

/-- **Recovery leaves a diagnostic**: at the first token that is skipped, and at the token that an incomplete member
lacks. -/
theorem Made.flagged {lists : List ListContext} {next : TokenKind} {kind : NodeKind} {cs : List Green}
    (h : Made lists next kind cs) (hmissing : ∀ l ∈ leavesAll cs, l.missing = true → l.diagnostics ≠ [])
    (hkind : kind = .skippedTokens ∨ kind = .incompleteMember) : Flagged cs := by
  rcases hkind with rfl | rfl
  · exact (h.2 rfl).flagged
  · obtain ⟨t, ht, hgone⟩ := h.1
    have hl : t.leaf ∈ leavesAll cs := mem_leavesAll.2 ⟨_, ht, by simp⟩
    exact ⟨t.leaf, hl, hmissing _ hl hgone⟩

end Green

/-! ## Tokens -/

/-- What the parser adds to a token is not what is looked at. -/
theorem Leaf.Intact.of_bare {s : DirectiveState} {l : Leaf} (h : l.bare.Intact s) : l.Intact s :=
  ⟨h.present, h.kind, h.literal, h.comment, h.directive, h.ending⟩

/-- A token of a tree is scanned in the state at its offset. -/
theorem OldTree.Valid.exists_scan {symbols : List Text} {old : OldTree} (h : old.Valid symbols) {as bs : List Leaf}
    {l : Leaf} (hleaves : old.root.leaves = as ++ l :: bs) (hpresent : l.missing = false) :
    ∃ c t, l.bare = (scan c t).leaf ∧ old.directives.stateAt (Leaf.widthAll as) = c.directives := by
  let scanned (ls : List Leaf) : List Leaf := (ls.filter fun l => !l.missing).map Leaf.bare
  have htokens : tokenize symbols old.text = scanned as ++ (l.bare :: scanned bs) := by
    rw [h.scanned_leaves, hleaves, List.filter_append, List.map_append, List.filter_cons_of_pos (by simp [hpresent]),
      List.map_cons]
  have hwidth : Leaf.widthAll (scanned as) = Leaf.widthAll as :=
    Leaf.widthAll_scanned fun k hk hm => (h.fine.missing k (hleaves ▸ List.mem_append_left _ hk) hm).1
  obtain ⟨c', t', hall⟩ := h.entries
  rw [htokens] at hall
  obtain ⟨c, es, hs, hstate, -⟩ := hall.contextAt_eq h.initial
  obtain ⟨c₁, t₁, es₁, fs, hs₁, hrest, -⟩ := hall.split
  obtain ⟨rfl, -, -⟩ := hs.functional hs₁
  exact ⟨c, t₁, hrest.head_eq, hwidth ▸ hstate⟩

/-! ## Places -/

/-- **Intact.** Nothing is wrong at a place of a tree with some directives. It is an intact token in the state at its
offset, or a node that does not come from recovery. -/
structure Red.Intact (table : DirectiveTable) (e : Red) : Prop where
  token : ∀ t, e.green = .token t → t.leaf.Intact (table.stateAt e.offset)
  skipped : e.green.nodeKind? ≠ some .skippedTokens
  incomplete : e.green.nodeKind? ≠ some .incompleteMember

namespace Session

variable {allowed : Text → ChangeSet → Prop} {w : Workspace} {trees : List SyntaxTree} {made : List Snapshot}
variable {t : SyntaxTree} {d e : Red}

/-- A place without diagnostics is intact. -/
theorem intact (h : Session allowed w trees made) (ht : t ∈ trees) (he : e ∈ t.red.descendants)
    (hflags : e.green.flags.diagnostics = false) : e.Intact t.directives := by
  have hold := (h.valid.2 t ht).1.old
  have hsub := Red.sub_of_mem_descendants he
  have hfine : e.green.Fine := hold.fine.of_sub hsub
  have hrecovery : ∀ kind, kind = .skippedTokens ∨ kind = .incompleteMember → e.green.nodeKind? ≠ some kind := by
    intro kind hrecovery hkind
    obtain ⟨lists, next, hformed⟩ := (h.formed t ht).of_sub hsub
    obtain ⟨hd, cs, hgreen⟩ : ∃ hd cs, e.green = .node hd cs := by
      cases hgreen : e.green with
      | token u => simp [hgreen, nodeKind?] at hkind
      | node hd cs => exact ⟨hd, cs, rfl⟩
    rw [hgreen] at hformed hkind hfine hflags
    have hflagged : Flagged [.node hd cs] :=
      flagged_node.2 ((hformed.made hkind).flagged (fun l hl hm => (hfine.missing l hl hm).2) hrecovery)
    rw [hfine.exact.flagged_iff.1 hflagged] at hflags
    cases hflags
  refine ⟨fun u hu => ?_, hrecovery _ (.inl rfl), hrecovery _ (.inr rfl)⟩
  obtain ⟨hdiag, hpresent⟩ := hfine.clean_of_mem hflags (l := u.leaf) (by simp [hu])
  obtain ⟨as, bs, hleaves, hoffset⟩ := Red.exists_leaves_of_token hold.fine.exact he hu
  obtain ⟨c, r, hscan, hstate⟩ := hold.exists_scan hleaves hpresent
  have hsilent : (scan c r).leaf.diagnostics = [] := by
    rw [← hscan, Leaf.bare, hdiag]
    rfl
  rw [hoffset]
  exact .of_bare (hscan ▸ hstate ▸ intact_scan hsilent)

/-- All that is in an element without diagnostics is intact. -/
theorem intact_descendants (h : Session allowed w trees made) (ht : t ∈ trees) (hd : d ∈ t.red.descendants)
    (hflags : d.green.flags.diagnostics = false) (he : e ∈ d.descendants) : e.Intact t.directives := by
  have hfine : d.green.Fine := (h.valid.2 t ht).1.old.fine.of_sub (Red.sub_of_mem_descendants hd)
  exact h.intact ht (Red.mem_descendants_trans hd he) (hfine.flags_of_sub (Red.sub_of_mem_descendants he) hflags)

/-- **No diagnostic, nothing wrong.** Let an element of a tree of a session carry no diagnostic. Then all that is in it is
intact: no token is missing or bad, literals and comments are closed, no directive is reported, and no node comes from
recovery. So whatever a cursor takes over from the tree, a token or a node, is intact with all that is in it. -/
theorem intact_spec (h : Session allowed w trees made) (ht : t ∈ trees) :
    (∀ d ∈ t.red.descendants, d.green.flags.diagnostics = false → ∀ e ∈ d.descendants, e.Intact t.directives) ∧
    ∀ c : Cursor, (∀ r, c.reuse = some r → r.old = t.asOld) →
      (c.next.2.1 = .reusedToken → ∃ d ∈ t.red.descendants, d.green = .token c.next.1 ∧ d.Intact t.directives) ∧
      ∀ kinds g c', c.reuseNode? kinds = some (g, c') →
        ∃ d ∈ t.red.descendants, d.green = g ∧ ∀ e ∈ d.descendants, e.Intact t.directives := by
  have hold := (h.valid.2 t ht).1.old
  refine ⟨fun d hd hflags e he => h.intact_descendants ht hd hflags he, fun c hc => ⟨fun hreused => ?_, ?_⟩⟩
  · rcases c.next_cases with ⟨r, start, u, hr, hu, hnext⟩ | hnext
    · obtain ⟨-, -, -, haccepts⟩ := Reuse.token?_eq_some hu
      obtain ⟨d, hd, hgreen⟩ := Reuse.exists_place_of_token? (hc r hr ▸ hold) hu
      rw [hc r hr] at hd
      rw [hnext]
      exact ⟨d, hd, hgreen, h.intact ht hd (hgreen ▸ Reuse.unflagged_of_accepts haccepts)⟩
    · rw [hnext] at hreused
      cases hreused
  · intro kinds g c' hg
    obtain ⟨r, start, hr, hnode, -⟩ := Cursor.reuseNode?_eq_some_iff.1 hg
    obtain ⟨-, -, haccepts⟩ := Reuse.node?_eq_some_iff.1 hnode
    obtain ⟨d, rfl, hstays⟩ := Reuse.exists_stays_of_node? (hc r hr ▸ hold) hnode
    have hd : d ∈ t.red.descendants := by
      have hmem := hstays.mem
      rwa [hc r hr] at hmem
    exact ⟨d, hd, rfl, fun e he => h.intact_descendants ht hd (Reuse.unflagged_of_accepts haccepts) he⟩

/-- A field in front of a parenthesis that is skipped. -/
theorem intact_spec_skipped : ∃ (w : Workspace) (trees : List SyntaxTree) (made : List Snapshot) (t : SyntaxTree),
    Session (fun _ _ => True) w trees made ∧ t ∈ trees ∧ t.text = ['i', 'n', 't', ' ', 'x', ';', '\n', ')'] ∧
      t.root.flags.diagnostics = true ∧ ∃ d ∈ t.red.descendants, d.green.nodeKind? = some .fieldDecl ∧
        ∀ e ∈ d.descendants, e.Intact t.directives := by
  let text : Text := ['i', 'n', 't', ' ', 'x', ';', '\n', ')']
  let t₀ : SyntaxTree := (SyntaxTree.ofText {} text {} .compilationUnit).1
  have h₀ : Session (fun _ _ => True) _ [t₀] _ := .parse text {} .compilationUnit .start
  obtain ⟨d, hd, hkind, hflags⟩ : ∃ d ∈ t₀.red.child? 0, d.green.nodeKind? = some .fieldDecl ∧
      d.green.flags.diagnostics = false := by
    decide +kernel
  have hmem : d ∈ t₀.red.descendants := Red.mem_descendants_of_child? hd (Red.mem_descendants_self d)
  have hintact := (h₀.intact_spec (List.mem_singleton_self _)).1 d hmem hflags
  exact ⟨_, _, _, t₀, h₀, List.mem_singleton_self _, rfl, by decide +kernel, d, hmem, hkind, hintact⟩

end Session

end IncrementalSyntax

import IncrementalSyntax.Proofs.Ast.Statements
import IncrementalSyntax.Proofs.Grammar.BuiltMembers

/-!
# Trees of written members

The parser builds a tree out of the words of a member, and the abstract member is read back from it.

## Main results

* `Ast.Param.exists_tree`: the tree of a written parameter
* `Ast.Member.Valid.exists_tree`: the tree of a written member
* `Ast.Member.exists_members`: the trees of written members
-/

namespace IncrementalSyntax

open Ast (Name Ty Expr Declarator Stmt Param Member Word IsWord Spelled)
open Shape (leaf branch Shows)
open Parse (BuildsBases BuildsBody BuildsItem BuildsItems BuildsMember BuildsMembers BuildsParameterList BuildsTail
  BuildsTyped)

/-! ## Tokens among the children of a member -/

namespace Ast

variable {L : List Leaf} {ws : List Word} {l : Leaf}

theorem exists_word (h : Spelled L ws) (hl : l ∈ L) : ∃ w ∈ ws, IsWord l w := by
  induction h with
  | nil => cases hl
  | cons hw _ ih =>
    rcases List.mem_cons.1 hl with rfl | hl
    · exact ⟨_, List.mem_cons_self, hw⟩
    · obtain ⟨w, hmem, hword⟩ := ih hl
      exact ⟨w, List.mem_cons_of_mem _ hmem, hword⟩

theorem kind_of_modifiers {mods : List Modifier} (h : Spelled L (mods.map .modifier)) (hl : l ∈ L) :
    ∃ m, l.tokenKind = .modifier m := by
  obtain ⟨w, hmem, hword⟩ := exists_word h hl
  obtain ⟨m, -, rfl⟩ := List.mem_map.1 hmem
  exact ⟨m, hword.kind⟩

end Ast

namespace Shape

theorem fits_map_leaf (c : Category) (ls : List Leaf) : (ls.map leaf).filter (fits c) = [] := by
  induction ls with
  | nil => rfl
  | cons l ls ih => simp [ih]

theorem tokens_map_leaf {ls : List Leaf} (h : ∀ l ∈ ls, l.missing = false) (ss : List Shape) :
    tokens (ls.map leaf ++ ss) = ls ++ tokens ss := by
  induction ls with
  | nil => rfl
  | cons l ls ih =>
    rw [List.map_cons, List.cons_append, tokens_leaf (h l List.mem_cons_self),
      ih fun k hk => h k (List.mem_cons_of_mem _ hk), List.cons_append]

namespace Shows

variable {c d : Category} {α : Type} {read : Nat → View c → Option α} {ss : List Shape} {as : List α}

theorem filter_eq (h : List.Forall₂ (Shows read) ss as) : ss.filter (Shape.fits c) = ss := by
  induction h with
  | nil => rfl
  | cons hs _ ih => simp [hs.fits, ih]

theorem filter_eq_nil (h : List.Forall₂ (Shows read) ss as) (hd : c.widest ≠ d.widest) :
    ss.filter (Shape.fits d) = [] := by
  induction h with
  | nil => rfl
  | cons hs _ ih => simp [hs.not_fits hd, ih]

theorem tokens_eq_nil (h : List.Forall₂ (Shows read) ss as) : Shape.tokens ss = [] := by
  induction h with
  | nil => rfl
  | cons hs _ ih => rw [hs.tokens, ih]

end Shows

end Shape

namespace View

/-- The modifiers of a member, whose other tokens are no modifiers. -/
theorem toModifiers_of_shape {c : Category} {v : View c} {k : NodeKind} {ss : List Shape} {ls ts : List Leaf}
    {ms : List Modifier} (hv : v.red.green.shape = branch k ss) (hss : Shape.tokens ss = ls ++ ts)
    (hls : Spelled ls (ms.map .modifier)) (hts : ∀ l ∈ ts, l.tokenKind.isModifier = false) :
    v.toModifiers = ms := by
  have hrest : (ts.map Leaf.tokenKind).filter TokenKind.isModifier = [] := by
    rw [List.filter_eq_nil_iff]
    intro k hk
    obtain ⟨l, hl, rfl⟩ := List.mem_map.1 hk
    simp [hts l hl]
  rw [toModifiers, modifiers, leaves, leavesOf_of_shape hv, hss, List.map_append, List.filter_append, hrest,
    List.append_nil]
  clear hss
  induction ms generalizing ls with
  | nil =>
    obtain rfl := Ast.spelled_nil hls
    rfl
  | cons m ms ih =>
    obtain ⟨l, ls, rfl, hl, hls⟩ := Ast.spelled_cons hls
    have hkind : l.tokenKind = .modifier m := hl.kind
    rw [List.map_cons, hkind, List.filter_cons_of_pos rfl, List.filterMap_cons, ih hls]

end View

/-! ## Views of members -/

/-- The node of a type declaration. -/
def DeclarationKind.nodeKind : DeclarationKind → NodeKind
  | .class' => .classDecl
  | .struct => .structDecl
  | .interface => .interfaceDecl
  | .record => .recordDecl

/-- The word that declares a type, by the kind of the node. -/
theorem View.declarationKind_of_shape {u : View .typeDecl} {k : DeclarationKind} {ss : List Shape}
    (hu : u.red.green.shape = branch k.nodeKind ss) : u.declarationKind = k := by
  have hkind : u.kind = .node k.nodeKind := Red.kind_of_shape hu
  cases k <;> simp [declarationKind, hkind, DeclarationKind.nodeKind]

/-- The shapes between the name of a type and its members, and the types that they read as. -/
inductive Shape.ShowsBases : List Shape → List Ty → Prop
  | none : ShowsBases [] []
  | some {d : Leaf} {ps : List Shape} {bases : List Ty}
      (h : List.Forall₂ (Shows View.toTypeUpTo) (ps.filter (fits .type)) bases) :
      ShowsBases [branch .baseList (leaf d :: ps)] bases

/-- The shape behind the parameters of a method, and the body that it reads as. -/
inductive Shape.ShowsBody : List Shape → Option (List Stmt) → Prop
  | none {r : Leaf} (hr : IsWord r (.punct .semicolon)) : ShowsBody [leaf r] none
  | some {s : Shape} {body : List Stmt} (h : Shows (fun _ => View.toBody?) s body) : ShowsBody [s] (some body)

namespace Shape.Shows

variable {s t : Shape} {ss ts bs ps : List Shape} {b d e l r : Leaf} {id : Text} {ls : List Leaf}
variable {mods : List Modifier} {ms : List Member}

theorem usingDirective {n : Name} (h : Shows (fun _ => View.toName?) (branch .name ss) n) :
    Shows View.toMemberUpTo (branch .usingDirective [leaf d, branch .name ss, leaf r]) (.usingDirective n) := by
  refine ⟨⟨_, _, rfl, rfl⟩, fun v levels hv => ?_⟩
  obtain ⟨k, rfl⟩ := exists_succ hv
  have hname : v.name?.bind View.toName? = some n := (part?_eq hv (by simp [h.fits]) h).1
  simp [Red.nodeKind?_of_shape hv.shape, hname]

theorem namespaceDecl {n : Name} (h : Shows (fun _ => View.toName?) (branch .name ss) n)
    (hms : List.Forall₂ (Shows View.toMemberUpTo) ts ms) :
    Shows View.toMemberUpTo (branch .namespaceDecl (leaf d :: branch .name ss :: leaf b :: (ts ++ [leaf e])))
      (.namespaceDecl n ms) := by
  refine ⟨⟨_, _, rfl, rfl⟩, fun v levels hv => ?_⟩
  obtain ⟨k, rfl⟩ := exists_succ hv
  have hname : v.name?.bind View.toName? = some n := (part?_eq hv (by simp [h.fits]) h).1
  have hall : List.Forall₂ (Shows View.toMemberUpTo)
      ((leaf d :: branch .name ss :: leaf b :: (ts ++ [leaf e])).filter (Shape.fits .member)) ms := by
    simpa [h.not_fits (d := .member) (by decide), filter_eq hms] using hms
  have hmembers : v.members.mapM (View.toMemberUpTo k) = some ms := (mapM_parts hv hall).1
  simp [Red.nodeKind?_of_shape hv.shape, hname, hmembers]

theorem isModifier_eq_false {w : Word} (h : IsWord l w) (hw : w.kind.isModifier = false) :
    l.tokenKind.isModifier = false := h.kind ▸ hw

/-- The tokens in front of a member are its modifiers. -/
theorem tokens_modifiers (hls : Spelled ls (mods.map .modifier)) (ss : List Shape) :
    Shape.tokens (ls.map leaf ++ ss) = ls ++ Shape.tokens ss :=
  tokens_map_leaf (fun _ hl => let ⟨_, _, hw⟩ := Ast.exists_word hls hl; hw.present) ss

/-- No modifier is an identifier. -/
theorem filter_ident_modifiers (hls : Spelled ls (mods.map .modifier)) : ls.filter (·.tokenKind = .ident) = [] := by
  rw [List.filter_eq_nil_iff]
  intro l hl
  obtain ⟨m, hm⟩ := Ast.kind_of_modifiers hls hl
  simp [hm]

theorem param {ty : Ty} (h : Shows View.toTypeUpTo s ty) (hl : IsWord l (.ident id)) :
    Shows (fun _ => View.toParam?) (branch .param [s, leaf l]) ⟨ty, id⟩ := by
  refine ⟨⟨_, _, rfl, rfl⟩, fun v levels hv => ?_⟩
  obtain ⟨n, rfl⟩ := exists_succ hv
  have hword : l.tokenKind = .ident := hl.kind
  have htext : l.text = id := hl.text
  have htype : v.type?.bind View.toType? = some ty := (part?_eq hv (by simp [h.fits]) h).2
  have hident : v.identifier? = some l := by
    rw [View.identifier?, View.leaf?, View.leaves, View.leavesOf_of_shape hv.shape, h.tokens]
    simp [Shape.tokens_leaf hl.present, hword]
  simp [View.toParam?, htype, hident, htext]

theorem body {body : List Stmt}
    (h : List.Forall₂ (Shows View.toStmtUpTo) (ss.filter (Shape.fits .statement)) body) :
    Shows (fun _ => View.toBody?) (branch .block (leaf b :: (ss ++ [leaf e]))) body := by
  refine ⟨⟨_, _, rfl, rfl⟩, fun v levels hv => ?_⟩
  obtain ⟨n, rfl⟩ := exists_succ hv
  have hall : List.Forall₂ (Shows View.toStmtUpTo)
      ((leaf b :: (ss ++ [leaf e])).filter (Shape.fits .statement)) body := by simpa using h
  exact (mapM_parts hv hall).2

theorem typeDecl {k : DeclarationKind} {bases : List Ty} (hls : Spelled ls (mods.map .modifier))
    (hd : IsWord d (Ast.declarationWord k)) (hl : IsWord l (.ident id)) (hbs : ShowsBases bs bases)
    (hb : IsWord b (.punct .lBrace)) (hms : List.Forall₂ (Shows View.toMemberUpTo) ts ms)
    (he : IsWord e (.punct .rBrace)) :
    Shows View.toMemberUpTo
      (branch k.nodeKind (ls.map leaf ++ leaf d :: leaf l :: (bs ++ leaf b :: (ts ++ [leaf e]))))
      (.typeDecl k mods id bases ms) := by
  have hholds : Category.typeDecl.holds k.nodeKind = true := by cases k <;> rfl
  refine ⟨⟨_, _, rfl, by cases k <;> rfl⟩, fun v levels hv => ?_⟩
  obtain ⟨n, rfl⟩ := exists_succ hv
  obtain ⟨u, hu, hred⟩ := View.ofRed?_of_shape hv.shape hholds
  have hu' : u.red.Below _ (n + 2) := hred ▸ hv
  have htokens : Shape.tokens (ls.map leaf ++ leaf d :: leaf l :: (bs ++ leaf b :: (ts ++ [leaf e]))) =
      ls ++ [d, l, b, e] := by
    have hbases : Shape.tokens bs = [] := by cases hbs <;> simp
    rw [tokens_modifiers hls, tokens_leaf hd.present, tokens_leaf hl.present, tokens_append, hbases,
      tokens_leaf hb.present, tokens_append, tokens_eq_nil hms, tokens_leaf he.present]
    rfl
  have hmodifiers : u.toModifiers = mods := by
    refine View.toModifiers_of_shape hu'.shape htokens hls ?_
    simp only [List.forall_mem_cons, List.not_mem_nil, false_implies, implies_true, and_true]
    exact ⟨isModifier_eq_false hd (by cases k <;> rfl), isModifier_eq_false hl rfl, isModifier_eq_false hb rfl,
      isModifier_eq_false he rfl⟩
  have hkind : u.declarationKind = k := View.declarationKind_of_shape hu'.shape
  have hname : u.declaredName? = some l := by
    have hd' : d.tokenKind = (Ast.declarationWord k).kind := hd.kind
    have hl' : l.tokenKind = .ident := hl.kind
    have hb' : b.tokenKind = .punct .lBrace := hb.kind
    have he' : e.tokenKind = .punct .rBrace := he.kind
    rw [View.declaredName?, View.leaves, View.leavesOf_of_shape hu'.shape, htokens, List.filter_append,
      filter_ident_modifiers hls, hkind]
    cases k <;> simp [hd', hl', hb', he', Ast.declarationWord, Word.keyword, Word.ident]
  have hmembers : u.members.mapM (View.toMemberUpTo n) = some ms := by
    have hbases : bs.filter (Shape.fits .member) = [] := by cases hbs <;> simp [Category.holds, NodeKind.isMember]
    have hall : List.Forall₂ (Shows View.toMemberUpTo)
        ((ls.map leaf ++ leaf d :: leaf l :: (bs ++ leaf b :: (ts ++ [leaf e]))).filter (Shape.fits .member)) ms := by
      simpa [fits_map_leaf, hbases, filter_eq hms] using hms
    exact (mapM_parts hu' hall).1
  have hbases : ((u.baseList?.map View.types).getD []).mapM View.toType? = some bases := by
    have hlist : (ls.map leaf ++ leaf d :: leaf l :: (bs ++ leaf b :: (ts ++ [leaf e]))).filter
        (Shape.fits .baseList) = bs.filter (Shape.fits .baseList) := by
      simp [fits_map_leaf, filter_eq_nil hms (d := .baseList) (by decide)]
    cases hbs with
    | none =>
      have hnone : u.baseList? = none := View.partOf?_eq_none_of_shape hu'.shape hlist
      simp [hnone]
    | some hall =>
      obtain ⟨w, hw, hshape, hdepth⟩ := View.partOf?_of_shape hu'.shape (by rw [hlist]; rfl)
      have hread : w.types.mapM View.toType? = some bases :=
        (mapM_parts ⟨hshape, hdepth.trans hu'.depth⟩ (by simpa using hall)).2
      have hlist' : u.baseList? = some w := hw
      simp [hlist', hread]
  have htext : l.text = id := hl.text
  rw [View.toMemberUpTo, Red.nodeKind?_of_shape hv.shape]
  cases k <;> simp [DeclarationKind.nodeKind, hu, hmodifiers, hname, hmembers, hbases, htext, hkind]

theorem method {ty : Ty} {params : List Param} {body : Option (List Stmt)} (hls : Spelled ls (mods.map .modifier))
    (h : Shows View.toTypeUpTo s ty) (hl : IsWord l (.ident id))
    (hps : List.Forall₂ (Shows fun _ => View.toParam?) (ps.filter (Shape.fits .param)) params)
    (hbody : ShowsBody ts body) :
    Shows View.toMemberUpTo (branch .methodDecl (ls.map leaf ++ s :: leaf l :: branch .paramList ps :: ts))
      (.method mods ty id params body) := by
  refine ⟨⟨_, _, rfl, rfl⟩, fun v levels hv => ?_⟩
  obtain ⟨n, rfl⟩ := exists_succ hv
  obtain ⟨u, hu, hred⟩ := View.ofRed?_of_shape (c := .methodDecl) hv.shape rfl
  have hu' : u.red.Below _ (n + 2) := hred ▸ hv
  have htokens : Shape.tokens (ls.map leaf ++ s :: leaf l :: branch .paramList ps :: ts) =
      ls ++ l :: Shape.tokens ts := by
    rw [tokens_modifiers hls, h.tokens, tokens_leaf hl.present, tokens_branch]
  have hmodifiers : u.toModifiers = mods := by
    refine View.toModifiers_of_shape hu'.shape htokens hls ?_
    rw [List.forall_mem_cons]
    refine ⟨isModifier_eq_false hl rfl, ?_⟩
    cases hbody with
    | none hr => simpa [tokens_leaf hr.present] using isModifier_eq_false hr rfl
    | some hb => simp [hb.tokens]
  have htype : u.type?.bind View.toType? = some ty := (part?_eq hu' (by simp [fits_map_leaf, h.fits]) h).2
  have hident : u.identifier? = some l := by
    have hl' : l.tokenKind = .ident := hl.kind
    rw [View.identifier?, View.leaf?, View.leaves, View.leavesOf_of_shape hu'.shape, htokens, ← List.head?_filter,
      List.filter_append, filter_ident_modifiers hls]
    simp [hl']
  have hskip : s.fits .paramList = false ∧ s.fits .block = false :=
    ⟨h.not_fits (by decide), h.not_fits (by decide)⟩
  have hparams : (u.parameterList?.bind fun w => w.parameters.mapM View.toParam?) = some params := by
    obtain ⟨w, hw, hshape, hdepth⟩ := View.partOf?_of_shape (d := .paramList) (s := branch .paramList ps) hu'.shape
      (by simp [fits_map_leaf, hskip, Category.holds])
    have hbelow : w.red.Below (branch .paramList ps) (n + 2) := ⟨hshape, hdepth.trans hu'.depth⟩
    have hread : w.parameters.mapM View.toParam? = some params := (mapM_parts hbelow hps).1
    have hlist : u.parameterList? = some w := hw
    simp [hlist, hread]
  have hoptional : View.optional View.toBody? u.body? = some body := by
    have hblock : (ls.map leaf ++ s :: leaf l :: branch .paramList ps :: ts).filter (Shape.fits .block) =
        ts.filter (Shape.fits .block) := by simp [fits_map_leaf, hskip, Category.holds]
    cases hbody with
    | none =>
      have hnone : u.body? = none := View.partOf?_eq_none_of_shape hu'.shape hblock
      simp [hnone, View.optional]
    | some hb => exact View.optional_of_bind (part?_eq hu' (by rw [hblock]; simp [hb.fits]) hb).1
  have htext : l.text = id := hl.text
  obtain ⟨w, hw, hread⟩ := Option.bind_eq_some_iff.1 hparams
  simp [Red.nodeKind?_of_shape hv.shape, hu, hmodifiers, htype, hident, hw, hread, hoptional, htext]

theorem field {ty : Ty} {x : Declarator} {xs : List Declarator} (hls : Spelled ls (mods.map .modifier))
    (h : Shows View.toTypeUpTo s ty)
    (hds : List.Forall₂ (Shows fun _ => View.toDeclarator?) (ss.filter (Shape.fits .variableDeclarator)) (x :: xs))
    (hcommas : ∀ c ∈ Shape.tokens ss, c.tokenKind.isModifier = false) (hr : IsWord r (.punct .semicolon)) :
    Shows View.toMemberUpTo (branch .fieldDecl (ls.map leaf ++ s :: (ss ++ [leaf r])))
      (.field mods ty x xs) := by
  refine ⟨⟨_, _, rfl, rfl⟩, fun v levels hv => ?_⟩
  obtain ⟨n, rfl⟩ := exists_succ hv
  have htokens : Shape.tokens (ls.map leaf ++ s :: (ss ++ [leaf r])) = ls ++ (Shape.tokens ss ++ [r]) := by
    rw [tokens_modifiers hls, h.tokens, tokens_append, tokens_leaf hr.present]
    rfl
  have hmodifiers : v.toModifiers = mods := by
    refine View.toModifiers_of_shape hv.shape htokens hls ?_
    rw [List.forall_mem_append]
    exact ⟨hcommas, by simpa using isModifier_eq_false hr rfl⟩
  have htype : v.type?.bind View.toType? = some ty := (part?_eq hv (by simp [fits_map_leaf, h.fits]) h).2
  have hskip : s.fits .variableDeclarator = false := h.not_fits (by decide)
  have hall : List.Forall₂ (Shows fun _ => View.toDeclarator?)
      ((ls.map leaf ++ s :: (ss ++ [leaf r])).filter (Shape.fits .variableDeclarator)) (x :: xs) := by
    simpa [fits_map_leaf, hskip] using hds
  have hvariables : v.declarators.mapM View.toDeclarator? = some (x :: xs) := (mapM_parts hv hall).1
  simp [Red.nodeKind?_of_shape hv.shape, hmodifiers, htype, hvariables]

end Shape.Shows

/-! ## Trees of members -/

/-- The tokens between variables are commas. -/
theorem Yields.tokens_declarators {L : List Leaf} {ss : List Shape} (h : Yields .declarators L ss) :
    ∀ l ∈ Shape.tokens ss, l.tokenKind.isModifier = false := by
  have hone : ∀ {L ss}, Yields .declarator L ss → Shape.tokens ss = [] := by
    rintro L ss (_ | _) <;> simp
  generalize hform : Form.declarators = form at h
  induction h with
  | declared h => simp [hone h]
  | @nextDeclared d v w ss ts h hd h' _ ih' =>
    intro l hl
    rw [Shape.tokens_append, hone h, List.nil_append] at hl
    by_cases hmissing : d.missing = true
    · exact ih' rfl l (by simpa [Shape.tokens, hmissing] using hl)
    · rw [Shape.tokens_leaf (by simpa using hmissing)] at hl
      rcases List.mem_cons.1 hl with rfl | hl
      · rw [hd]
        rfl
      · exact ih' rfl l hl
  | _ => cases hform

namespace Ast

variable {L : List Leaf} {version : LanguageVersion}

theorem Name.exists_builds {n : Name} (h : Spelled L n.words) (version : LanguageVersion) :
    ∃ l L' ss, L = l :: L' ∧ Parse.BuildsName version l L' ss ∧ Shape.leavesAll ss = L ∧
      Shows (fun _ => View.toName?) (branch .name ss) n := by
  obtain ⟨ss, hyields, hshows⟩ := Name.exists_tree h
  obtain ⟨l, L', hL, hbuilds⟩ := hyields.builds version
  exact ⟨l, L', ss, hL, hbuilds, hyields.leavesAll_eq, hshows⟩

/-- No type begins with the word `record`. -/
theorem Ty.Valid.ne_record {t : Ty} (ht : t.Valid) (h : Spelled L t.words) : ∀ l ∈ L.head?, l.text ≠ "record".toList := by
  induction t generalizing L with
  | predefined b =>
    obtain ⟨l, rfl, hl⟩ := spelled_singleton h
    rintro _ ⟨⟩
    rw [hl.text]
    cases b <;> decide
  | named n =>
    obtain ⟨l, T, rfl, hl, -⟩ := spelled_cons h
    rintro _ ⟨⟩ hrecord
    have hid : isIdentifier n.first = true := ht n.first List.mem_cons_self
    rw [show n.first = l.text from hl.text.symm, hrecord] at hid
    exact absurd hid (by decide)
  | array t ih =>
    obtain ⟨T, T', rfl, htype, -⟩ := spelled_append h
    obtain ⟨s, hyields, -⟩ := Ty.exists_tree htype
    obtain ⟨l, T, rfl⟩ := List.exists_cons_of_ne_nil (hyields.ne_nil (by simp))
    have hhead : ∀ k ∈ (l :: T).head?, k.text ≠ "record".toList := ih ht htype
    exact hhead

theorem ne_nil_of_startsType (h : (frontKind L).startsType = true) : L ≠ [] := by
  rintro rfl
  cases h

/-- The words of a parameter have one tree, from which the parameter is read back. -/
theorem Param.exists_tree {p : Param} (h : Spelled L p.words) :
    ∃ s, BuildsItem version Parse.parameter (.punct .rParen) L [s] ∧ s.leaves = L ∧ (frontKind L).startsType = true ∧
      Shows (fun _ => View.toParam?) s p := by
  obtain ⟨L', l, rfl, htype, hl⟩ := spelled_concat h
  obtain ⟨s, hyields, hshows⟩ := Ty.exists_tree htype
  refine ⟨_, Parse.builds_parameter (hyields.builds version) hl.kind, ?_, ?_, .param hshows hl⟩
  · have hleaves : Shape.leavesAll [s] = L' := hyields.leavesAll_eq
    simpa using hleaves
  · rw [frontKind_append (hyields.ne_nil (by simp))]
    exact hyields.starts (by simp)

/-- Parameters in parentheses. -/
theorem exists_parameters {params : List Param} (hL : Spelled L (parens (commas (params.map Param.words)))) :
    ∃ cs, BuildsParameterList version L [branch .paramList cs] ∧ Shape.leavesAll cs = L ∧
      frontKind L = .punct .lParen ∧
      List.Forall₂ (Shows fun _ => View.toParam?) (cs.filter (Shape.fits .param)) params := by
  obtain ⟨l, L', r, rfl, hl, hL, hr⟩ := spelled_between hL
  cases params with
  | nil =>
    obtain rfl := spelled_nil hL
    exact ⟨_, BuildsParameterList.none hl.kind hr.kind, rfl, hl.kind, .nil⟩
  | cons p ps =>
    obtain ⟨cs, ⟨hbuilds, hleaves, hstarts⟩, hall⟩ := exists_commas
      (fun L ss => BuildsItem version Parse.parameter (.punct .rParen) L ss ∧ Shape.leavesAll ss = L ∧
        (frontKind L).startsType = true)
      (fun L ss => BuildsItems version Parse.parameter (.punct .rParen) L ss ∧ Shape.leavesAll ss = L ∧
        (frontKind L).startsType = true)
      (fun h => ⟨BuildsItem.last (by decide) h.1, h.2⟩)
      (fun {L L' ss ts d} h hd h' => by
        refine ⟨BuildsItem.next h.1 hd h'.1, by simp [h.2.1, h'.2.1], ?_⟩
        rw [frontKind_append (ne_nil_of_startsType h.2.2)]
        exact h.2.2)
      (fun p _ L hp => by
        obtain ⟨s, hbuilds, hleaves, hstarts, hshows⟩ := Param.exists_tree hp
        exact ⟨s, ⟨hbuilds, by simpa using hleaves, hstarts⟩, hshows⟩)
      hL
    exact ⟨_, BuildsParameterList.some hl.kind hstarts hbuilds hr.kind, by simp [hleaves], hl.kind, by simpa using hall⟩

/-- The types behind a colon, if there are any. -/
theorem exists_bases {bases : List Ty}
    (hL : Spelled L (if bases = [] then [] else .punct .colon :: commas (bases.map Ty.words))) :
    ∃ bs, BuildsBases version L bs ∧ Shape.leavesAll bs = L ∧ Shape.ShowsBases bs bases := by
  cases bases with
  | nil =>
    obtain rfl := spelled_nil hL
    exact ⟨[], BuildsBases.none, rfl, .none⟩
  | cons t ts =>
    obtain ⟨d, L, rfl, hd, hL⟩ := spelled_cons hL
    obtain ⟨ps, ⟨hbuilds, hleaves⟩, hall⟩ := exists_commas
      (fun L ss => BuildsItem version Parse.type (.punct .lBrace) L ss ∧ Shape.leavesAll ss = L)
      (fun L ss => BuildsItems version Parse.type (.punct .lBrace) L ss ∧ Shape.leavesAll ss = L)
      (fun h => ⟨BuildsItem.last (by decide) h.1, h.2⟩)
      (fun h hd h' => ⟨BuildsItem.next h.1 hd h'.1, by simp [h.2, h'.2]⟩)
      (fun t _ L ht => by
        obtain ⟨s, hyields, hshows⟩ := Ty.exists_tree ht
        exact ⟨s, ⟨Parse.builds_base (hyields.builds version), hyields.leavesAll_eq⟩, hshows⟩)
      hL
    exact ⟨_, BuildsBases.some hd.kind hbuilds, by simp [hleaves], .some hall⟩

/-- What is written for the body of a method, or in its place. -/
def bodyWords : Option (List Stmt) → List Word
  | some ss => braces (Stmt.wordsAll ss)
  | none => [.punct .semicolon]

/-- The body of a method, or the semicolon in its place. -/
theorem exists_body {body : Option (List Stmt)} (hbody : ∀ ss ∈ body, ∀ s ∈ ss, s.Valid)
    (hL : Spelled L (bodyWords body)) :
    ∃ ts, BuildsBody version L ts ∧ Shape.leavesAll ts = L ∧ Shape.ShowsBody ts body := by
  cases body with
  | none =>
    obtain ⟨r, rfl, hr⟩ := spelled_singleton hL
    exact ⟨_, BuildsBody.semicolon hr.kind, rfl, .none hr⟩
  | some ss =>
    obtain ⟨l, L', r, rfl, hl, hL, hr⟩ := spelled_between hL
    obtain ⟨ts, hyields, hall⟩ := Stmt.exists_statements (fun s hs L => (hbody ss rfl s hs).exists_tree) hL
    exact ⟨_, BuildsBody.block hl.kind hyields hr.kind, by simp [hyields.leavesAll_eq], .some (.body hall)⟩

namespace Member

/-- **Tree of a member.** The parser builds the tree out of the leaves, and the member is read back from it. -/
structure Tree (version : LanguageVersion) (L : List Leaf) (s : Shape) (m : Member) : Prop where
  builds : BuildsMember version L [s]
  leaves : s.leaves = L
  starts : (frontKind L).startsMember = true
  shows : Shows View.toMemberUpTo s m

theorem exists_members {ms : List Member} (h : ∀ m ∈ ms, ∀ L, Spelled L m.words → ∃ s, Tree version L s m)
    (hL : Spelled L (wordsAll ms)) :
    ∃ ss, BuildsMembers version L ss ∧ Shape.leavesAll ss = L ∧ List.Forall₂ (Shows View.toMemberUpTo) ss ms := by
  induction ms generalizing L with
  | nil =>
    rw [wordsAll] at hL
    obtain rfl := spelled_nil hL
    exact ⟨[], BuildsMembers.nil, rfl, .nil⟩
  | cons m ms ih =>
    rw [wordsAll] at hL
    obtain ⟨L₁, L₂, rfl, hfirst, hL⟩ := spelled_append hL
    obtain ⟨s, htree⟩ := h m List.mem_cons_self L₁ hfirst
    obtain ⟨ss, hbuilds, hleaves, hall⟩ := ih (fun k hk => h k (List.mem_cons_of_mem _ hk)) hL
    exact ⟨s :: ss, BuildsMembers.cons htree.starts htree.builds hbuilds, by simp [htree.leaves, hleaves], .cons htree.shows hall⟩

/-- The production for the word that declares a type. -/
theorem builds_typeDecl {k : DeclarationKind} {w z : List Leaf} {ss ts : List Shape} {d l b e : Leaf}
    (hk : k = .record → version.supportsRecords = true) (hd : IsWord d (declarationWord k))
    (hl : l.tokenKind = .ident) (h : BuildsBases version w ss) (hb : b.tokenKind = .punct .lBrace)
    (hz : BuildsMembers version z ts) (he : e.tokenKind = .punct .rBrace) :
    BuildsTail version (d :: l :: (w ++ b :: (z ++ [e]))) k.nodeKind
      (leaf d :: leaf l :: (ss ++ leaf b :: (ts ++ [leaf e]))) := by
  cases k with
  | class' => exact BuildsTail.typeDecl hd.kind (fun _ => rfl) hl h hb hz he
  | struct => exact BuildsTail.typeDecl hd.kind (fun _ => rfl) hl h hb hz he
  | interface => exact BuildsTail.typeDecl hd.kind (fun _ => rfl) hl h hb hz he
  | record => exact BuildsTail.recordDecl (hk rfl) hd.kind hd.text hl h hb hz he

/-- A type begins a member, and is no modifier. -/
theorem startsTail_of_type {u w : List Leaf} {ss : List Shape} (h : Yields .type u ss) :
    Parse.startsTail (frontKind (u ++ w)) = true := by
  have hstarts : (frontKind u).startsType = true := h.starts (by simp)
  rw [frontKind_append (h.ne_nil (by simp))]
  cases hk : frontKind u <;> rw [hk] at hstarts <;> first | rfl | cases hstarts

theorem words_method (mods : List Modifier) (t : Ty) (id : Text) (params : List Param) (body : Option (List Stmt)) :
    (method mods t id params body).words =
      mods.map .modifier ++ (t.words ++ .ident id :: (parens (commas (params.map Param.words)) ++
        bodyWords body)) := by
  cases body <;>
    · rw [words]
      rfl

theorem spelled_modifiers_nil : Spelled [] (([] : List Modifier).map .modifier) := .nil

/-- Modifiers and a production behind them. -/
theorem Tree.of_tail {ls w : List Leaf} {mods : List Modifier} {kind : NodeKind} {ss : List Shape} {m : Member}
    (hls : Spelled ls (mods.map .modifier)) (h : BuildsTail version w kind ss) (hleaves : Shape.leavesAll ss = w)
    (hstarts : Parse.startsTail (frontKind w) = true)
    (hshows : Shows View.toMemberUpTo (branch kind (ls.map leaf ++ ss)) m) :
    Tree version (ls ++ w) (branch kind (ls.map leaf ++ ss)) m := by
  obtain ⟨hmember, hmodifier⟩ := (Bool.and_eq_true _ _).mp hstarts
  have hne : w ≠ [] := by
    rintro rfl
    cases hmember
  have hmodifiers : ∀ l ∈ ls, l.tokenKind.isModifier = true := fun l hl => by
    obtain ⟨m, hm⟩ := kind_of_modifiers hls hl
    rw [hm]
    rfl
  have hleaf : ∀ ls : List Leaf, Shape.leavesAll (ls.map leaf) = ls := fun ls => by
    induction ls with
    | nil => rfl
    | cons l ls ih => simp [ih]
  refine ⟨BuildsMember.of_tail hmodifiers hne (by simpa using hmodifier) h, by simp [hleaf, hleaves], ?_, hshows⟩
  cases ls with
  | nil => exact hmember
  | cons l ls =>
    obtain ⟨m, hm⟩ := kind_of_modifiers hls (List.mem_cons_self (a := l))
    rw [List.cons_append, frontKind_cons, hm]
    rfl

/-- The words of a member have one tree, from which the member is read back. By induction on why the member is
valid. -/
theorem Valid.exists_tree {m : Member} (h : m.Valid version) (hL : Spelled L m.words) :
    ∃ s, Tree version L s m := by
  induction h generalizing L with
  | usingDirective _ =>
    rw [words] at hL
    obtain ⟨d, T, r, rfl, hd, hname, hr⟩ := spelled_between hL
    obtain ⟨l, L', ss, rfl, hbuilds, hleaves, hshows⟩ := Name.exists_builds hname version
    have htail : BuildsTail version _ .usingDirective _ := BuildsTail.usingDirective hd.kind hbuilds hr.kind
    have hstarts : Parse.startsTail (frontKind (d :: (l :: L' ++ [r]))) = true := by
      rw [frontKind_cons, hd.kind]
      rfl
    exact ⟨_, .of_tail spelled_modifiers_nil htail (by simp [hleaves]) hstarts (.usingDirective hshows)⟩
  | namespaceDecl _ _ ih =>
    rw [words] at hL
    obtain ⟨d, T, rfl, hd, hT⟩ := spelled_cons hL
    obtain ⟨N, T', rfl, hname, hbody⟩ := spelled_append hT
    obtain ⟨b, L₂, e, rfl, hb, hms, he⟩ := spelled_between hbody
    obtain ⟨l, L₁, ss, rfl, hbuilds, hleaves, hshows⟩ := Name.exists_builds hname version
    obtain ⟨ts, hmembers, hleaves', hall⟩ := exists_members (fun m hm L => ih m hm) hms
    have htail : BuildsTail version _ .namespaceDecl _ :=
      BuildsTail.namespaceDecl hd.kind hbuilds hb.kind hmembers he.kind
    have hstarts : Parse.startsTail (frontKind (d :: (l :: L₁ ++ b :: (L₂ ++ [e])))) = true := by
      rw [frontKind_cons, hd.kind]
      rfl
    exact ⟨_, .of_tail spelled_modifiers_nil htail (by simp [hleaves, hleaves']) hstarts (.namespaceDecl hshows hall)⟩
  | @typeDecl k mods id bases ms hk hid hbases _ ih =>
    rw [words] at hL
    obtain ⟨ls, T, rfl, hls, hT⟩ := spelled_append hL
    obtain ⟨d, T, rfl, hd, hT'⟩ := spelled_cons hT
    obtain ⟨l, T, rfl, hl, hrest⟩ := spelled_cons hT'
    obtain ⟨L₁, T', rfl, htypes, hbody⟩ := spelled_append hrest
    obtain ⟨b, L₂, e, rfl, hb, hms, he⟩ := spelled_between hbody
    obtain ⟨bs, hbuilds, hleaves, hshows⟩ := exists_bases htypes
    obtain ⟨ts, hmembers, hleaves', hall⟩ := exists_members (fun m hm L => ih m hm) hms
    have htail : BuildsTail version _ k.nodeKind _ := builds_typeDecl hk hd hl.kind hbuilds hb.kind hmembers he.kind
    have hstarts : Parse.startsTail (frontKind (d :: l :: (L₁ ++ b :: (L₂ ++ [e])))) = true := by
      rw [frontKind_cons, hd.kind]
      cases k <;> rfl
    exact ⟨_, .of_tail hls htail (by simp [hleaves, hleaves']) hstarts (.typeDecl hls hd hl hshows hb hall he)⟩
  | @method mods t id params body ht hid hparams hbody =>
    rw [words_method] at hL
    obtain ⟨ls, T, rfl, hls, hT⟩ := spelled_append hL
    obtain ⟨u, T, rfl, htype, hT'⟩ := spelled_append hT
    obtain ⟨l, T, rfl, hl, hrest⟩ := spelled_cons hT'
    obtain ⟨w, z, rfl, hlist, hend⟩ := spelled_append hrest
    obtain ⟨s, hyields, hshows⟩ := Ty.exists_tree htype
    obtain ⟨cs, hbuilds, hleaves, hfront, hall⟩ := exists_parameters hlist
    obtain ⟨ts, hbuilds', hleaves', hshows'⟩ := exists_body hbody hend
    have htyped : BuildsTyped version _ .methodDecl _ := BuildsTyped.method hl.kind hfront hbuilds hbuilds'
    have htail : BuildsTail version _ .methodDecl _ := BuildsTail.typed hyields htyped hl.kind (ht.ne_record htype)
    have htype' : s.leaves = u := by simpa using hyields.leavesAll_eq
    have hmember := Tree.of_tail hls htail (by simp [htype', hleaves, hleaves'])
      (startsTail_of_type hyields) (.method hls hshows hl hall hshows')
    exact ⟨_, hmember⟩
  | @field mods t d ds ht hds =>
    rw [words] at hL
    obtain ⟨ls, T, rfl, hls, hT⟩ := spelled_append hL
    obtain ⟨u, T, rfl, htype, hrest⟩ := spelled_append hT
    obtain ⟨s, hyields, hshows⟩ := Ty.exists_tree htype
    obtain ⟨w, r, ss, rfl, hr, hyields', hall⟩ := exists_declarators hds hrest
    have hfront : frontKind (w ++ [r]) = .ident := by
      rw [frontKind_append (hyields'.ne_nil (by simp))]
      exact of_decide_eq_true (hyields'.starts (by simp))
    have htyped : BuildsTyped version _ .fieldDecl _ := BuildsTyped.field hyields' hr.kind
    have htail : BuildsTail version _ .fieldDecl _ := BuildsTail.typed hyields htyped hfront (ht.ne_record htype)
    have hleaves : s.leaves = u := by simpa using hyields.leavesAll_eq
    have hmember := Tree.of_tail hls htail (by simp [hleaves, hyields'.leavesAll_eq])
      (startsTail_of_type hyields) (.field hls hshows hall hyields'.tokens_declarators hr)
    exact ⟨_, hmember⟩

end Member

end Ast

end IncrementalSyntax

import SwiftOutline.Proofs.Every
import SwiftOutline.Proofs.Moved
import SwiftOutline.Proofs.Reached
import SwiftOutline.Proofs.Regular
import SwiftOutline.Proofs.Summary

/-!
# SwiftOutline.Proofs.Settable

Which variables of a file may be assigned, told by the nodes of its tree.

* `Site.holder?` — the nearest declaration around a node that is no conditional block;
* `Site.settable` — whether the variable of a binding may be assigned, by five rules on the nodes,
  of which the first that applies decides;
* `isEffectful_ofParent` — in every file, with faults or without, an accessor with a clause of
  effects has an effect;
* `owner?_eq_of_mem_reached` — where collecting comes by, the owner that it hands down is the kind
  of the nearest declaration around that is no conditional block;
* `Declaration.hasSetter?_eq_settable` — the variables of a file may be assigned as the rules say.
-/

namespace SwiftOutline

/-! ## the rules -/

/-- The nodes of the accessors that a binding has. -/
def Tree.accessorNodes (binding : Tree) : List Tree :=
  ((binding.childOf? .accessorBlock).map (childrenOf .accessorDecl)).getD []

/-- Whether some name is mapped to a given detail. -/
def Modifiers.mapsTo (ms : Modifiers) (detail : String) : Bool :=
  ms.names.any fun name => ms.detail? name == some detail

theorem Modifiers.mapsTo_iff {ms : Modifiers} {detail : String} :
    ms.mapsTo detail = true ↔ ∃ name, ms.detail? name = some detail := by
  simp only [mapsTo, List.any_eq_true, beq_iff_eq]
  refine ⟨fun ⟨name, _, h⟩ => ⟨name, h⟩, fun ⟨name, h⟩ => ⟨name, ?_, h⟩⟩
  obtain ⟨m, hm, -⟩ := Option.bind_eq_some_iff.1 h
  have hname : m.name = name := by simpa using List.find?_some hm
  exact hname ▸ List.mem_map_of_mem (List.mem_of_find?_eq_some hm)

namespace Site

/-- The nearest declaration around a node that is no conditional block. -/
def holder? (s : Site) : Option Located :=
  s.above.find? fun n => n.kind.isDeclaration && n.kind != .ifConfigDecl

/-- Whether the variable that a binding of a statement makes may be assigned, told by the nodes.
The first rule that applies decides: an accessor `get` with a clause of effects, an accessor that
sets, a keyword other than `var`, a modifier with the detail `set`, and last the nearest
declaration around, which must be no protocol. -/
def settable (statement : Site) (binding : Tree) : Bool :=
  if binding.accessorNodes.any fun a =>
      a.keyword? == some "get" && (a.childOf? .effectSpecifiers).isSome then false
  else if binding.accessorNodes.any fun a =>
      a.keyword?.any ["set", "willSet", "didSet"].contains then true
  else if statement.node.tree.keyword != "var" then false
  else if (Modifiers.ofDeclaration statement.node.tree).mapsTo "set" then false
  else !statement.holder?.any (·.kind == .protocolDecl)

end Site

/-! ## modifiers -/

/-- A declaration has a modifier with a given detail if some name is mapped to it. -/
theorem Modifiers.anyWithDetail_ofDeclaration (t : Tree) (detail : String) :
    (ofDeclaration t).anyWithDetail detail = (ofDeclaration t).mapsTo detail := by
  have h : Summarises (ofDeclaration t) (written t) := .ofList _
  rw [Bool.eq_iff_iff, mapsTo_iff, h.anyWithDetail_iff]
  simp only [h.detail?_eq_some_iff]
  constructor
  · rintro ⟨m, hm, hdetail⟩
    exact ⟨m.name, m, hm, rfl, hdetail⟩
  · rintro ⟨_, m, hm, -, hdetail⟩
    exact ⟨m, hm, hdetail⟩

/-! ## effects -/

namespace Effects

open Grammar

@[simp] theorem effects_plain (r : Reading) (text : String) :
    (r.plain text).effects = r.effects := by
  unfold Reading.plain
  split <;> rfl

/-- No word takes an effect back. -/
theorem isEffectful_step {r : Reading} (h : r.effects.isEffectful = true) (w : Lexeme) :
    (r.step w).effects.isEffectful = true := by
  simp only [isEffectful, isThrowing, Bool.or_eq_true] at h ⊢
  unfold Reading.step
  split
  · exact .inr rfl
  · simp
  · split
    · simpa using h
    · split
      · exact h
      · simpa using h
  · split
    · simpa using h
    · split
      · exact h
      · simpa using h
  · split <;> simp [h]
  · simpa using h

theorem isEffectful_foldl {r : Reading} (h : r.effects.isEffectful = true) (ws : List Lexeme) :
    (ws.foldl Reading.step r).effects.isEffectful = true := by
  induction ws generalizing r with
  | nil => exact h
  | cons w ws ih => exact ih (isEffectful_step h w)

/-- A clause that starts like one names an effect. -/
theorem isEffectful_ofClause {k : Kind} {w : Word} {ss : List Sketch} (h : atEffect [w] = true) :
    (ofClause (.node k (Sketch.treesOfAll (.word w :: ss)))).isEffectful = true := by
  obtain ⟨kind, text, joined, onNewLine⟩ := w
  have hhead := heads_atEffect.2 _ _ h
  have hkind : kind.isTrivia = false := by
    simp only [Word.lexeme, List.mem_singleton] at hhead
    obtain rfl | rfl | ⟨rfl, -⟩ := hhead <;> rfl
  have hword : (Tree.token kind text).isWord = true := by
    simp [Tree.isWord, Tree.isNode, Tree.kind, hkind]
  obtain ⟨ls, hwords⟩ : ∃ ls, (Tree.node k (Sketch.treesOfAll
      (.word ⟨kind, text, joined, onNewLine⟩ :: ss))).words = ⟨kind, text⟩ :: ls :=
    ⟨_, congrArg (List.map _) (List.filter_cons_of_pos hword)⟩
  have hstart : (Reading.start.step ⟨kind, text⟩).effects.isEffectful = true := by
    simp only [Word.lexeme, List.mem_cons, List.not_mem_nil, or_false] at hhead
    obtain rfl | rfl | ⟨rfl, rfl | rfl⟩ := hhead <;> rfl
  rw [ofClause, hwords]
  exact isEffectful_foldl hstart ls

end Effects

/-! ## clauses of effects -/

namespace Sketch

theorem mem_kinds_of_node {ss ps : List Sketch} {k : Kind} (h : .node k ps ∈ ss) :
    k ∈ kinds ss := by
  induction ss with
  | nil => cases h
  | cons s ss ih =>
    obtain rfl | h := List.mem_cons.1 h
    · exact List.mem_cons_self
    · rw [← List.singleton_append, kinds_append]
      exact List.mem_append_right _ (ih h)

/-- A node among the trees of a run of sketches is one of the sketches. -/
theorem node_of_mem_treesOfAll {ss : List Sketch} {t : Tree} {k : Kind} (ht : t ∈ treesOfAll ss)
    (hk : t.isNodeOf k = true) : ∃ ps, .node k ps ∈ ss ∧ t = .node k (treesOfAll ps) := by
  induction ss with
  | nil => cases ht
  | cons s ss ih =>
    obtain ht | ht := List.mem_append.1 ht
    · cases s with
      | node j ps =>
        obtain rfl := List.mem_singleton.1 ht
        obtain rfl : j = k := (Tree.isNodeOf_iff.1 hk).2
        exact ⟨ps, List.mem_cons_self, rfl⟩
      | word w =>
        obtain rfl := List.mem_singleton.1 ht
        cases hk
      | fault f => cases ht
      | gap => cases ht
    · obtain ⟨ps, hps, ht⟩ := ih ht
      exact ⟨ps, List.mem_cons_of_mem _ hps, ht⟩

end Sketch

/-- A clause of effects in an accessor names one. -/
def Law.effectfulClauses : Law := fun _ k ps _ =>
  k = .accessorDecl → ∀ es, .node .effectSpecifiers es ∈ ps →
    (Effects.ofClause (.node .effectSpecifiers (Sketch.treesOfAll es))).isEffectful = true

namespace Grammar

open Rule

variable {n : Nat} {ws : List Word} {es : List Sketch}

/-- A rule that takes no clause of effects. -/
theorem not_clause_of_fits {c : Content} {p : Rule n} (hp : Fits c p) (h : ws.length < n)
    (hc : .effectSpecifiers ∉ c.once ++ c.many) :
    .node .effectSpecifiers es ∉ (p ws h).sketches := fun hmem =>
  hc ((hp ws h).admits.mem (Sketch.mem_kinds_of_node hmem))

theorem exists_sketches_effect (w : Word) (r : List Word) (h : (w :: r).length < n) :
    ∃ ss, (effect (w :: r) h : Parsed (w :: r)).sketches = .word w :: ss := by
  unfold effect Rule.ifAt
  split <;> exact ⟨_, rfl⟩

theorem not_clause_body (inside : List Kind → Rule n) (h : ws.length < n + 1) :
    .node .effectSpecifiers es ∉ (body inside ws h).sketches := by
  unfold body Rule.optional Rule.ifAt
  split
  · intro hmem
    cases List.mem_singleton.1 hmem
  · exact List.not_mem_nil

/-- The first effect of a clause starts with the word that the clause was told from. -/
theorem isEffectful_of_mem_effectSpecifiers (h : ws.length < n)
    (hmem : .node .effectSpecifiers es ∈ (effectSpecifiers ws h).sketches) :
    (Effects.ofClause (.node .effectSpecifiers (Sketch.treesOfAll es))).isEffectful = true := by
  unfold effectSpecifiers Rule.optional Rule.ifAt at hmem
  split at hmem
  · next hat =>
    obtain rfl : es = _ := (Sketch.node.inj (List.mem_singleton.1 hmem)).2
    cases ws with
    | nil => cases hat
    | cons w r =>
      obtain ⟨ss, hss⟩ := exists_sketches_effect w r h
      obtain ⟨ts, hmany⟩ : ∃ ts, ((many atEffect effect advances_effect.of_atWord : Rule n)
          (w :: r) h).sketches = (effect (w :: r) h : Parsed (w :: r)).sketches ++ ts := by
        unfold many
        rw [dif_pos hat]
        exact ⟨_, rfl⟩
      rw [hmany, hss]
      exact Effects.isEffectful_ofClause hat
  · cases hmem

theorem scoped_effectfulClauses : Law.effectfulClauses.Scoped where
  free := fun _ hk _ _ _ h => absurd h hk
  statement := fun _ _ _ _ _ _ h => nomatch h
  accessor := by
    intro n inside ws h _ ps hps _ es hmem
    obtain rfl : _ = ps := (Sketch.node.inj (List.cons.inj hps).1).2
    obtain hmem | hmem := List.mem_append.1 hmem
    · exact absurd hmem
        (not_clause_of_fits (fits_attributesAndModifiers.seq fits_bump) h (by decide))
    · obtain hmem | hmem := List.mem_append.1 hmem
      · exact absurd hmem (not_clause_of_fits fits_accessorParameter _ (by decide))
      · obtain hmem | hmem := List.mem_append.1 hmem
        · exact isEffectful_of_mem_effectSpecifiers _ hmem
        · exact absurd hmem (not_clause_body inside _)

end Grammar

namespace Tree

variable {t a : Tree}

/-- In an accessor, every clause of effects names one. -/
def HasEffectfulClauses (t : Tree) : Prop :=
  t.bare.Every fun k cs => k = .accessorDecl → ∀ c ∈ cs, c.isNodeOf .effectSpecifiers = true →
    (Effects.ofClause c).isEffectful = true

theorem HasEffectfulClauses.of_mem (h : t.HasEffectfulClauses) {c : Tree} (hc : c ∈ t.children) :
    c.HasEffectfulClauses := by
  cases t with
  | node k cs => exact Every.of_mem h hc
  | token k x => cases hc

/-- An accessor with a clause of effects has an effect, and one without has none. -/
theorem isEffectful_ofParent (h : a.HasEffectfulClauses) (ha : a.isNodeOf .accessorDecl = true) :
    (Effects.ofParent a).isEffectful = (a.childOf? .effectSpecifiers).isSome := by
  rw [← Effects.ofParent_bare, ← Option.isSome_map (f := bare), ← childOf?_bare]
  rw [Effects.ofParent]
  cases hclause : a.bare.childOf? .effectSpecifiers with
  | none => rfl
  | some c =>
    cases a with
    | node k cs =>
      obtain rfl : k = .accessorDecl := (isNodeOf_iff.1 ha).2
      exact h.1 rfl c (List.mem_of_find?_eq_some hclause) (List.find?_some hclause)
    | token k x => cases ha

theorem mem_accessorNodes (h : t.HasEffectfulClauses) (ha : a ∈ t.accessorNodes) :
    a.HasEffectfulClauses ∧ a.isNodeOf .accessorDecl = true := by
  unfold accessorNodes at ha
  cases hblock : t.childOf? .accessorBlock with
  | none => rw [hblock] at ha; cases ha
  | some block =>
    rw [hblock] at ha
    obtain ⟨hmem, hk⟩ := List.mem_filter.1 ha
    exact ⟨(h.of_mem (List.mem_of_find?_eq_some hblock)).of_mem hmem, hk⟩

end Tree

/-- In every file, with faults or without, clauses of effects in accessors name effects. -/
theorem Site.hasEffectfulClauses {source : String} {s : Site}
    (h : s ∈ all (parse source).tree) : s.node.tree.HasEffectfulClauses := by
  refine Grammar.scoped_effectfulClauses.every_of_mem_all ?_ h
  intro _ k ps rest hlaw hk c hc hclause
  obtain ⟨es, hes, rfl⟩ := Sketch.node_of_mem_treesOfAll hc hclause
  exact hlaw hk es hes

/-! ## accessors -/

namespace AccessorKind

/-- The kind that a word starts is one with that keyword. -/
theorem any_ofKeyword? (p : AccessorKind → Bool) (s : String) :
    (ofKeyword? s).any p = ((all.filter p).map keyword).contains s := by
  rw [Bool.eq_iff_iff, Option.any_eq_true, List.contains_iff_mem, List.mem_map]
  constructor
  · rintro ⟨k, hk, hp⟩
    have hkeyword : k.keyword == s :=
      List.find?_some (p := fun k : AccessorKind => k.keyword == s) hk
    exact ⟨k, List.mem_filter.2 ⟨List.mem_of_find?_eq_some hk, hp⟩, beq_iff_eq.1 hkeyword⟩
  · rintro ⟨k, hk, rfl⟩
    exact ⟨k, ofKeyword?_keyword k, (List.mem_filter.1 hk).2⟩

end AccessorKind

namespace Accessor

/-- A property of accessors that a getter's bare body lacks is looked for among the nodes. -/
theorem any_ofOwner {p : Accessor → Bool} (hp : p bareGetter = false) (binding : Tree) :
    (ofOwner binding).any p = binding.accessorNodes.any fun a => (ofNode? a).any p := by
  unfold ofOwner Tree.accessorNodes
  cases binding.childOf? .accessorBlock with
  | none => rfl
  | some block =>
    dsimp only [Option.map_some, Option.getD_some]
    cases block.childrenOf .accessorDecl with
    | nil => simp [hp]
    | cons a as => exact List.any_filterMap

variable {a : Tree}

/-- An accessor is a getter with an effect if its keyword says so and it has a clause of
effects. -/
theorem any_get_ofNode? (h : a.HasEffectfulClauses) (ha : a.isNodeOf .accessorDecl = true) :
    (ofNode? a).any (fun x => x.kind == .get && x.effects.isEffectful) =
      (a.keyword? == some "get" && (a.childOf? .effectSpecifiers).isSome) := by
  rw [← Tree.isEffectful_ofParent h ha, ofNode?, Option.any_map]
  cases a.keyword? with
  | none => rfl
  | some s =>
    refine (AccessorKind.any_ofKeyword? _ s).trans ?_
    show ((AccessorKind.all.filter fun k => k == .get && (Effects.ofParent a).isEffectful).map
      AccessorKind.keyword).contains s = (s == "get" && (Effects.ofParent a).isEffectful)
    generalize (Effects.ofParent a).isEffectful = effectful
    cases effectful with
    | true =>
      show ["get"].contains s = (s == "get" && true)
      rw [Bool.and_true, List.contains_cons, List.contains_nil, Bool.or_false]
    | false => simp

/-- An accessor sets if its keyword says so. -/
theorem any_isSetter_ofNode? (a : Tree) : (ofNode? a).any (·.kind.isSetter) =
    a.keyword?.any ["set", "willSet", "didSet"].contains := by
  rw [ofNode?, Option.any_map]
  cases a.keyword? with
  | none => rfl
  | some s => exact AccessorKind.any_ofKeyword? AccessorKind.isSetter s

end Accessor

/-! ## owners -/

namespace Site

/-- The owner of a scope is the kind of the nearest declaration around that is no conditional
block. -/
def IsHeld (s : Site) : Prop := s.owner? = s.holder?.bind fun n => DeclarationKind.ofNode? n.kind

/-- Going up from the blocks of a declaration comes to the declaration itself, unless it is a
conditional block. -/
theorem holder?_inside_block {s : Site} {k : DeclarationKind} {block : Located}
    (hk : s.node.kind = k.node) (hb : block ∈ blocks k s.node) (n : Located) :
    ((s.inside block).inside n).holder? =
      if k = .conditionalBlock then s.holder? else some s.node := by
  have hblock : block.kind.isDeclaration = false := by
    unfold blocks at hb
    split at hb
    · rw [kind_of_mem_childrenWhere hb]
      rfl
    · obtain ⟨b, hb, hchild⟩ := Option.bind_eq_some_iff.1 (Option.mem_toList.1 hb)
      rw [kind_of_mem_childrenWhere (mem_childrenWhere_of_child? hchild)]
      cases k <;> cases hb <;> rfl
  have hskip : ((s.inside block).inside n).holder? = (s.inside n).holder? :=
    List.find?_cons_of_neg (by simp [inside, hblock])
  rw [hskip]
  split
  · next hcond => exact List.find?_cons_of_neg (by simp [hk, hcond, DeclarationKind.node])
  · next hcond =>
    have hdeclaration : k.node.isDeclaration = true := by
      rw [← DeclarationKind.isSome_ofNode?, DeclarationKind.ofNode?_node]
      rfl
    have hnode : k.node ≠ .ifConfigDecl := by
      revert hcond
      cases k <;> decide
    exact List.find?_cons_of_pos (by simp [hk, hdeclaration, hnode])

/-- The blocks of a declaration are held by it, if it is by the one around it. -/
theorem IsHeld.inside_block {s : Site} {k : DeclarationKind} {block : Located} (hs : s.IsHeld)
    (hk : s.node.kind = k.node) (hb : block ∈ blocks k s.node) (n : Located) :
    ((s.inside block).inside n).IsHeld := by
  rw [IsHeld, Declaration.owner?_inside_block hk hb, holder?_inside_block hk hb]
  split
  · exact hs
  · simp [hk]

/-- Where collecting comes by, the owner that it hands down is the kind of the nearest declaration
around that is no conditional block. -/
theorem exists_makers_of_mem_reached {t : Tree} {scope : Site} (h : scope ∈ all t)
    (hheld : ∀ n, (scope.inside n).IsHeld) : ∀ m ∈ reached scope, ∃ s ∈ all t,
      m.2 ∈ makers m.1 s ∧ s.node.kind = m.1.node ∧ s.IsHeld := by
  induction hsize : sizeOf scope.node.tree using Nat.strongRecOn generalizing scope with
  | ind size ih =>
    subst hsize
    intro m hm
    rw [reached_eq, List.mem_flatMap] at hm
    obtain ⟨child, hchild, hm⟩ := hm
    split at hm
    · cases hm
    · next k hk =>
      have hk := DeclarationKind.node_of_ofNode? hk
      split at hm
      · next hn =>
        have hinside := mem_nodesIn_inside h hchild hn
        obtain ⟨maker, hmaker, hm⟩ := List.mem_flatMap.1 hm
        obtain rfl | hm := List.mem_cons.1 hm
        · exact ⟨_, hinside, hmaker, hk, hheld child⟩
        · obtain ⟨block, hblock, hm⟩ := List.mem_flatMap.1 hm
          have hlt := Nat.lt_trans
            (Located.sizeOf_tree_lt_of_mem (mem_children_of_mem_blocks hblock))
            (Located.sizeOf_tree_lt_of_mem hchild)
          exact ih _ hlt (blocks_mem_all hinside hblock)
            (IsHeld.inside_block (hheld child) hk hblock) rfl m hm
      · cases hm

end Site

/-! ## variables -/

/-- The kind of the nearest declaration around tells whether a variable is a requirement of a
protocol. -/
theorem Site.IsHeld.inProtocol {s : Site} (hs : s.IsHeld) :
    (s.owner? == some .protocolType) = s.holder?.any (·.kind == .protocolDecl) := by
  rw [hs]
  cases s.holder? with
  | none => rfl
  | some n =>
    obtain ⟨⟨k, cs⟩ | ⟨k, x⟩, start⟩ := n <;> cases k <;> rfl

/-- The variable of a binding may be assigned as its nodes tell. -/
theorem Facts.hasSetter_ofBinding {s : Site} (hs : s.IsHeld) (list : Tree) {binding : Located}
    (hbinding : binding.tree.HasEffectfulClauses) :
    (Declaration.mk (.ofBinding s.owner? s.node list binding) []).hasSetter? =
      some (s.settable binding.tree) := by
  have hgetter : (Accessor.ofOwner binding.tree).any
      (fun x => x.kind == .get && x.effects.isEffectful) = binding.tree.accessorNodes.any fun a =>
        a.keyword? == some "get" && (a.childOf? .effectSpecifiers).isSome := by
    rw [Accessor.any_ofOwner rfl, Bool.eq_iff_iff, List.any_eq_true, List.any_eq_true]
    refine exists_congr fun a => and_congr_right fun ha => ?_
    obtain ⟨heffectful, hk⟩ := Tree.mem_accessorNodes hbinding ha
    rw [Accessor.any_get_ofNode? heffectful hk]
  have hsetting : (Accessor.ofOwner binding.tree).any (·.kind.isSetter) =
      binding.tree.accessorNodes.any fun a =>
        a.keyword?.any ["set", "willSet", "didSet"].contains := by
    rw [Accessor.any_ofOwner rfl]
    simp only [Accessor.any_isSetter_ofNode?]
  show some (Facts.hasSetter _ _) = _
  rw [Facts.hasSetter, Binding.hasEffectfulGetter, Binding.hasSettingAccessor, Facts.inProtocol,
    Site.settable, ← hgetter, ← hsetting, ← hs.inProtocol, ← Modifiers.anyWithDetail_ofDeclaration]
  rfl

namespace Declaration

open Site

/-- In lists whose items go in pairs, every item of the one has a partner in the other. -/
theorem exists_partner {α β : Type} {R : α → β → Prop} {as : List α} {bs : List β}
    (h : List.Forall₂ R as bs) {a : α} (ha : a ∈ as) : ∃ b ∈ bs, R a b := by
  induction h with
  | nil => cases ha
  | cons hab _ ih =>
    obtain rfl | ha := List.mem_cons.1 ha
    · exact ⟨_, List.mem_cons_self, hab⟩
    · obtain ⟨b, hb, hr⟩ := ih ha
      exact ⟨b, List.mem_cons_of_mem _ hb, hr⟩

/-- What a declaration node stands for makes declarations of its kind. -/
theorem kind_of_ofSite_makers {s m : Site} {k : DeclarationKind} (hk : s.node.kind = k.node)
    (hm : m ∈ makers k s) {d : Declaration} (hd : ofSite k m = .ok d) : d.kind = k := by
  obtain ⟨f, hf, hsite⟩ := exists_partner (ofSite_makers hk).flip hm
  have hmk := Except.ok.inj (hd.symm.trans hsite)
  rw [hmk]
  exact kind_of_mem_allOfNode hf

/-- A variable is made by a binding of a statement. -/
theorem exists_binding_of_mem_makers {s m : Site} (hm : m ∈ makers .variable s) :
    ∃ list ∈ s.node.children, ∃ binding ∈ list.children, m = (s.inside list).inside binding ∧
      list.kind = .patternBindingList ∧ binding.kind = .patternBinding := by
  unfold makers at hm
  cases hlist : s.node.child? (Tree.isNodeOf .patternBindingList) with
  | none =>
    rw [hlist] at hm
    cases hm
  | some list =>
    rw [hlist] at hm
    obtain ⟨binding, hbinding, rfl⟩ := List.mem_map.1 hm
    exact ⟨list, List.mem_of_find?_eq_some hlist, binding, List.mem_of_mem_filter hbinding, rfl,
      kind_of_mem_childrenWhere (mem_childrenWhere_of_child? hlist),
      kind_of_mem_childrenWhere hbinding⟩

/-- Every declaration of a file is made by what a declaration node stands for, and the owner handed
down to that node is the kind of the nearest declaration around that is no conditional block. -/
theorem exists_maker (items : List Tree) :
    ∀ d ∈ preorderOfAll (collectFile .default (.node .sourceFile items)),
      ∃ s ∈ all (.node .sourceFile items), ∃ m ∈ makers d.kind s, s.node.kind = d.kind.node ∧
        s.IsHeld ∧ ofSite d.kind m = .ok d := by
  intro d hd
  have hroot : root (.node .sourceFile items) ∈ all (.node .sourceFile items) :=
    List.mem_cons_self
  have hheld (n : Located) : ((root (.node .sourceFile items)).inside n).IsHeld := rfl
  have howner (n : Located) : ((root (.node .sourceFile items)).inside n).owner? = none := rfl
  obtain ⟨m, hm, hsite⟩ := exists_partner (forall₂_collect howner) hd
  obtain ⟨s, hs, hmaker, hk, hheld⟩ := exists_makers_of_mem_reached hroot hheld m hm
  have hkind := kind_of_ofSite_makers hk hmaker hsite
  rw [← hkind] at hmaker hk hsite
  exact ⟨s, hs, m.2, hmaker, hk, hheld, hsite⟩

/-- Whether a variable of a file may be assigned is told by the nodes that make it: by accessors of
its one binding, by the keyword and the modifiers of its statement, and by the nearest declaration
around the statement that is no conditional block. Of the five rules the first that applies
decides. -/
theorem hasSetter?_eq_settable (source : String) :
    ∀ d ∈ preorderOfAll (collectFile .default (parse source).tree), d.kind = .variable →
      ∃ s ∈ all (parse source).tree, ∃ list ∈ s.node.children, ∃ binding ∈ list.children,
        s.node.kind = .variableDecl ∧
          ofSite .variable ((s.inside list).inside binding) = .ok d ∧
          d.hasSetter? = some (s.settable binding.tree) := by
  intro d hd hkind
  have hclauses {s : Site} (hs : s ∈ all (parse source).tree) := hasEffectfulClauses hs
  obtain ⟨items, hitems⟩ : ∃ items, (parse source).tree = .node .sourceFile items := ⟨_, rfl⟩
  rw [hitems] at hd hclauses ⊢
  obtain ⟨s, hs, m, hm, hk, hheld, hsite⟩ := exists_maker items d hd
  rw [hkind] at hm hk hsite
  obtain ⟨list, hlist, binding, hbinding, rfl, hlistkind, hbindingkind⟩ :=
    exists_binding_of_mem_makers hm
  refine ⟨s, hs, list, hlist, binding, hbinding, hk, hsite, ?_⟩
  have hd := Except.ok.inj (hsite.symm.trans (ofBindingSite_inside hk hlistkind hbindingkind))
  rw [hd]
  exact Facts.hasSetter_ofBinding hheld list.tree
    (((hclauses hs).of_mem (Located.tree_mem_children hlist)).of_mem
      (Located.tree_mem_children hbinding))

/-- A requirement that stands in a branch of a protocol cannot be assigned, though its getter has no
effects and its keyword is `var`. -/
theorem hasSetter?_eq_settable_requirement :
    let source := "protocol P \x7b\n#if A\nvar x: Int \x7b mutating get \x7d\n#endif\n\x7d\n"
    ∃ d ∈ preorderOfAll (collectFile .default (parse source).tree),
      d.kind = .variable ∧ d.hasSetter? = some false ∧
        ∃ s ∈ all (parse source).tree, ∃ list ∈ s.node.children, ∃ binding ∈ list.children,
          s.node.kind = .variableDecl ∧
            ofSite .variable ((s.inside list).inside binding) = .ok d ∧
            d.hasSetter? = some (s.settable binding.tree) := by
  intro source
  have hany : (preorderOfAll (collectFile .default (parse source).tree)).any (fun d =>
      d.kind == .variable && d.hasSetter? == some false) = true := by decide +kernel
  obtain ⟨d, hd, hall⟩ := List.any_eq_true.1 hany
  rw [Bool.and_eq_true, beq_iff_eq, beq_iff_eq] at hall
  exact ⟨d, hd, hall.1, hall.2, hasSetter?_eq_settable source d hd hall.1⟩

end Declaration

end SwiftOutline

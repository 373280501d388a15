import SwiftOutline.Proofs.Anchor
import SwiftOutline.Proofs.Walk

/-!
# SwiftOutline.Proofs.Moved

Forests of declarations with other positions.

* `Declaration.moved` — a declaration with every position moved by a function, without ranges
  and texts of expressions;
* `map_moved_inSourceOrder`, `map_moved_walkAll` — a function that grows strictly keeps source
  order;
* `Declaration.outline` — what is left when positions are dropped too;
* `map_moved_collect` — the declarations read off a tree are those read off the tree without
  trivia, moved.
-/

namespace SwiftOutline

/-- A scope's head without its range. -/
def ScopeHead.outline : ScopeHead → ScopeHead
  | .members => .members
  | .branch keyword condition _ => .branch keyword condition ⟨0, 0⟩

namespace Declaration

section

variable (g : Nat → Nat)

mutual

/-- A declaration with every position moved, without ranges and texts of expressions. -/
def moved : Declaration → Declaration
  | mk f ss => mk (f.moved g) (movedScopes ss)

/-- Scopes with every position moved. -/
def movedScopes : List Scope → List Scope
  | [] => []
  | .mk h ds :: ss => .mk h.outline (movedAll ds) :: movedScopes ss

/-- Declarations with every position moved. -/
def movedAll : List Declaration → List Declaration
  | [] => []
  | d :: ds => moved d :: movedAll ds

end

theorem movedAll_eq (ds : List Declaration) : movedAll g ds = ds.map (moved g) := by
  induction ds with
  | nil => rfl
  | cons d ds ih => rw [movedAll, ih, List.map_cons]

theorem movedScopes_eq (ss : List Scope) :
    movedScopes g ss = ss.map fun s => .mk s.head.outline (s.declarations.map (moved g)) := by
  induction ss with
  | nil => rfl
  | cons s ss ih =>
    obtain ⟨h, ds⟩ := s
    rw [movedScopes, ih, movedAll_eq, List.map_cons]
    rfl

@[simp] theorem facts_moved (d : Declaration) : (moved g d).facts = d.facts.moved g := by
  cases d
  rfl

theorem scopes_moved (d : Declaration) :
    (moved g d).scopes =
      d.scopes.map fun s => .mk s.head.outline (s.declarations.map (moved g)) := by
  obtain ⟨f, ss⟩ := d
  exact movedScopes_eq g ss

/-! ## source order -/

theorem map_moved_grouped (ds : List Declaration) :
    (grouped ds).map (moved g) = grouped (ds.map (moved g)) := by
  rw [grouped, grouped, List.map_flatMap]
  refine List.flatMap_congr fun k _ => ?_
  rw [ofKind, ofKind, List.filter_map]
  congr 1
  refine List.filter_congr fun d _ => ?_
  simp [kind, Facts.moved]

variable {g}

/-- A function that grows strictly keeps source order. -/
theorem map_moved_inSourceOrder (hg : StrictMono g) (ds : List Declaration) :
    (inSourceOrder ds).map (moved g) = inSourceOrder (ds.map (moved g)) := by
  rw [inSourceOrder, inSourceOrder, ← map_moved_grouped, sortByPosition, sortByPosition,
    List.map_mergeSort]
  intro d _ e _
  simp only [position, facts_moved, Facts.moved]
  exact (decide_eq_decide.2 hg.le_iff_le).symm

theorem isMembers_outline (h : ScopeHead) (ds : List Declaration) :
    Scope.isMembers (.mk h.outline ds) = (h == .members) := by
  cases h <;> rfl

/-- What is nested in a declaration is moved with it. -/
theorem nested_moved (hg : StrictMono g) (d : Declaration) :
    (moved g d).nested = d.nested.map (moved g) := by
  have hmembers : (moved g d).members? = d.members?.map (List.map (moved g)) := by
    rw [members?, members?, scopes_moved, List.find?_map, Option.map_map, Option.map_map]
    have htest : (Scope.isMembers ∘ fun s : Scope =>
        Scope.mk s.head.outline (s.declarations.map (moved g))) = Scope.isMembers := by
      funext s
      exact isMembers_outline ..
    rw [htest]
    rfl
  have hbranches : (moved g d).branches =
      d.branches.map fun s => .mk s.head.outline (s.declarations.map (moved g)) := by
    rw [branches, branches, scopes_moved, List.filter_map]
    congr 1
    refine List.filter_congr fun s _ => ?_
    show (!Scope.isMembers _) = _
    rw [isMembers_outline]
    rfl
  have hgetD : (d.members?.map (List.map (moved g))).getD [] =
      (d.members?.getD []).map (moved g) := by
    cases d.members? <;> rfl
  rw [nested, nested, hmembers, hbranches, hgetD, ← map_moved_inSourceOrder hg, List.map_append,
    List.flatMap_map, List.map_flatMap]
  congr 1
  refine List.flatMap_congr fun s _ => ?_
  exact (map_moved_inSourceOrder hg s.declarations).symm

theorem map_moved_walk (hg : StrictMono g) (d : Declaration) :
    (walk d).map (moved g) = walk (moved g d) := by
  induction hsize : sizeOf d using Nat.strongRecOn generalizing d with
  | ind m ih =>
    subst hsize
    rw [walk_eq, walk_eq, nested_moved hg, List.map_cons, List.map_flatMap, List.flatMap_map]
    congr 1
    refine List.flatMap_congr fun e he => ?_
    exact ih _ (sizeOf_lt_of_mem_nested he) e rfl

/-- A walk through a forest meets the same declarations, moved. -/
theorem map_moved_walkAll (hg : StrictMono g) (ds : List Declaration) :
    (walkAll ds).map (moved g) = walkAll (ds.map (moved g)) := by
  rw [walkAll, walkAll, ← map_moved_inSourceOrder hg, List.map_flatMap, List.flatMap_map]
  refine List.flatMap_congr fun d _ => ?_
  exact map_moved_walk hg d

end

/-! ## outlines -/

/-- A declaration with all below it, without places and texts of expressions. -/
def outline (d : Declaration) : Declaration := moved (fun _ => 0) d

/-- Whether a variable may be assigned; none for what is no variable. -/
def hasSetter? (d : Declaration) : Option Bool :=
  match d.facts.detail with
  | .variable b => some (d.facts.hasSetter b)
  | _ => none

/-- Whether a variable may be assigned is known by its outline. -/
theorem hasSetter?_outline (d : Declaration) : d.outline.hasSetter? = d.hasSetter? := by
  obtain ⟨f, ss⟩ := d
  cases hdetail : f.detail <;>
    simp only [hasSetter?, outline, moved, facts, Facts.moved, Detail.outline, hdetail]
  exact congrArg some (Facts.hasSetter_moved (fun _ => 0) f _)

mutual

theorem moved_moved (f g : Nat → Nat) (d : Declaration) :
    moved f (moved g d) = moved (f ∘ g) d := by
  cases d with
  | mk facts ss =>
    rw [moved, moved, moved, Facts.moved_moved, movedScopes_movedScopes f g ss]

theorem movedScopes_movedScopes (f g : Nat → Nat) (ss : List Scope) :
    movedScopes f (movedScopes g ss) = movedScopes (f ∘ g) ss := by
  cases ss with
  | nil => rfl
  | cons s ss =>
    cases s with
    | mk h ds =>
      have hhead : h.outline.outline = h.outline := by cases h <;> rfl
      rw [movedScopes, movedScopes, movedScopes, hhead, movedAll_movedAll f g ds,
        movedScopes_movedScopes f g ss]

theorem movedAll_movedAll (f g : Nat → Nat) (ds : List Declaration) :
    movedAll f (movedAll g ds) = movedAll (f ∘ g) ds := by
  cases ds with
  | nil => rfl
  | cons d ds =>
    rw [movedAll, movedAll, movedAll, moved_moved f g d, movedAll_movedAll f g ds]

end

/-- Positions do not show in an outline. -/
theorem map_outline_map_moved (g : Nat → Nat) (ds : List Declaration) :
    (ds.map (moved g)).map outline = ds.map outline := by
  rw [List.map_map]
  refine List.map_congr_left fun d _ => ?_
  exact moved_moved (fun _ => 0) g d

/-! ## collecting -/

/-- Lists whose items go in pairs are mapped to one list, if each pair is mapped to one value. -/
theorem map_eq_map_of_forall₂ {α β γ : Type} {R : α → β → Prop} {f : α → γ} {f' : β → γ}
    {as : List α} {bs : List β} (h : List.Forall₂ R as bs)
    (hf : ∀ a ∈ as, ∀ b, R a b → f' b = f a) : bs.map f' = as.map f := by
  induction h with
  | nil => rfl
  | cons hab _ ih =>
    rw [List.map_cons, List.map_cons, hf _ List.mem_cons_self _ hab,
      ih fun a ha => hf a (List.mem_cons_of_mem _ ha)]

open Located (Above Under)

variable {g : Nat → Nat} {l b : Located}

/-- What is looked up by kind of node starts where it is moved. -/
theorem start_of_mem_childrenWhere {k : Kind} {m c d : Located}
    (hc : c ∈ m.childrenWhere (Tree.isNodeOf k)) (h : Under g c d) : c.start = g d.start := by
  have hnode : c.tree.isNodeOf k = true := (List.mem_filter.1 hc).2
  refine h.start ?_
  rw [Tree.isNodeOf, Bool.and_eq_true] at hnode
  exact hnode.1

theorem map_moved_ofBindings (owner : Option DeclarationKind) (h : Above g l b) :
    (Facts.ofBindings owner b).map (Facts.moved g) =
      (Facts.ofBindings owner l).map (Facts.moved id) := by
  have hlist := h.child? (Tree.seesNoTrivia_isNodeOf .patternBindingList)
  rw [Facts.ofBindings, Facts.ofBindings]
  generalize l.child? (Tree.isNodeOf .patternBindingList) = list at hlist
  generalize b.child? (Tree.isNodeOf .patternBindingList) = list' at hlist
  cases hlist with
  | none => rfl
  | @some list list' hlist =>
    have hbindings := hlist.childrenWhere (Tree.seesNoTrivia_isNodeOf .patternBinding)
    show List.map _ (List.map _ _) = List.map _ (List.map _ _)
    rw [List.map_map, List.map_map]
    refine map_eq_map_of_forall₂ hbindings fun c hc d hd => ?_
    have hstart := start_of_mem_childrenWhere hc hd
    rw [Function.comp_apply, Function.comp_apply, hlist.tree]
    exact Facts.moved_ofBinding_bare owner list.tree h.tree hd.tree hstart

theorem map_moved_ofElements (owner : Option DeclarationKind) (h : Above g l b) :
    (Facts.ofElements owner b).map (Facts.moved g) =
      (Facts.ofElements owner l).map (Facts.moved id) := by
  have helements := h.childrenWhere (Tree.seesNoTrivia_isNodeOf .enumCaseElement)
  rw [Facts.ofElements, Facts.ofElements, List.map_map, List.map_map]
  refine map_eq_map_of_forall₂ helements fun c hc d hd => ?_
  have hstart := start_of_mem_childrenWhere hc hd
  exact Facts.moved_ofElement_bare owner h.tree hd.tree hstart

/-- What is known of the declarations that a node makes, and of those that the node without
trivia makes. -/
theorem map_moved_allOfNode (owner : Option DeclarationKind) (k : DeclarationKind)
    (h : Under g l b) (hnode : l.tree.isNode = true) :
    (Facts.allOfNode owner k b).map (Facts.moved g) =
      (Facts.allOfNode owner k l).map (Facts.moved id) := by
  have hone : (Facts.ofNode owner k b).moved g = (Facts.ofNode owner k l).moved id :=
    Facts.moved_ofNode_bare owner k h.tree (h.start hnode)
  by_cases hvariable : k = .variable
  · subst hvariable
    exact map_moved_ofBindings owner h.toAbove
  · by_cases hcase : k = .enumCase
    · subst hcase
      exact map_moved_ofElements owner h.toAbove
    · rw [allOfNode_eq_singleton hvariable hcase, allOfNode_eq_singleton hvariable hcase,
        List.map_singleton, List.map_singleton, hone]

/-- The scopes that a node opens are those that the node without trivia opens, if the like holds
of what is collected below it. -/
theorem map_moved_scopesOf (c : Config) (owner : Option DeclarationKind) (k : DeclarationKind)
    (h : Under g l b)
    (hinner : ∀ o, ∀ m ∈ l.children, ∀ n, Under g m n →
      (collect c o n).map (moved g) = (collect c o m).map (moved id)) :
    movedScopes g (scopesOf c owner k b fun o n _ => collect c o n) =
      movedScopes id (scopesOf c owner k l fun o m _ => collect c o m) := by
  rw [movedScopes_eq, movedScopes_eq, scopesOf, scopesOf]
  -- only a conditional block opens more than one scope
  by_cases hk : k = .conditionalBlock
  · have hclauses := h.childrenWhere (Tree.seesNoTrivia_isNodeOf .ifConfigClause)
    rw [if_pos hk, if_pos hk, branchScopes_eq, branchScopes_eq, List.map_map, List.map_map]
    refine map_eq_map_of_forall₂ hclauses fun m hm n hmn => ?_
    have hcollect := hinner owner m (List.mem_of_mem_filter hm) n hmn
    show Scope.mk (.branch n.tree.keyword _ _) _ = Scope.mk (.branch m.tree.keyword _ _) _
    rw [hmn.tree, Tree.keyword_bare, Facts.condition?_bare]
    exact congrArg _ hcollect
  · rw [if_neg hk, if_neg hk, memberScopes_eq, memberScopes_eq]
    cases c.block? k with
    | none => rfl
    | some kind =>
      have hblock := h.child? (Tree.seesNoTrivia_isNodeOf kind)
      simp only [Option.bind_some]
      generalize hm : l.child? (Tree.isNodeOf kind) = m at hblock
      generalize b.child? (Tree.isNodeOf kind) = n at hblock
      cases hblock with
      | none => rfl
      | @some m n hmn =>
        have hcollect := hinner (some k) m (List.mem_of_find?_eq_some hm) n hmn
        show [Scope.mk .members ((collect c (some k) n).map (moved g))] =
          [Scope.mk .members ((collect c (some k) m).map (moved id))]
        rw [hcollect]

/-- The declarations that a node makes and those that the node without trivia makes. -/
theorem map_moved_ofNode (c : Config) (owner : Option DeclarationKind) (h : Under g l b)
    (hinner : ∀ o, ∀ m ∈ l.children, ∀ n, Under g m n →
      (collect c o n).map (moved g) = (collect c o m).map (moved id)) :
    (ofNode c owner b fun o n _ => collect c o n).map (moved g) =
      (ofNode c owner l fun o m _ => collect c o m).map (moved id) := by
  have hkind : b.kind = l.kind := by
    rw [Located.kind, h.tree, Tree.kind_bare, Located.kind]
  have hnode : b.tree.isNode = l.tree.isNode := by rw [h.tree, Tree.isNode_bare]
  rw [ofNode, ofNode, hkind, hnode]
  cases DeclarationKind.ofNode? l.kind with
  | none => rfl
  | some k =>
    dsimp only
    by_cases htest : (l.tree.isNode && c.isEnabled k) = true
    · rw [if_pos htest, if_pos htest, List.map_map, List.map_map]
      have hnode : l.tree.isNode = true := (Bool.and_eq_true _ _ ▸ htest).1
      have hscopes := map_moved_scopesOf c owner k h hinner
      have hfacts := map_moved_allOfNode owner k h hnode
      calc _ = ((Facts.allOfNode owner k b).map (Facts.moved g)).map fun f =>
              mk f (movedScopes g (scopesOf c owner k b fun o n _ => collect c o n)) := by
            rw [List.map_map]
            rfl
        _ = ((Facts.allOfNode owner k l).map (Facts.moved id)).map fun f =>
              mk f (movedScopes id (scopesOf c owner k l fun o m _ => collect c o m)) := by
            rw [hfacts, hscopes]
        _ = _ := by
            rw [List.map_map]
            rfl
    · rw [if_neg htest, if_neg htest]
      rfl

/-- Trivia makes no declaration. -/
theorem flatMap_ofNode_filter (c : Config) (owner : Option DeclarationKind) (l : Located) :
    ((l.children.filter (!·.tree.isTrivia)).flatMap fun m =>
      ofNode c owner m fun o n _ => collect c o n) = collect c owner l := by
  rw [collect_eq]
  induction l.children with
  | nil => rfl
  | cons m ms ih =>
    by_cases htrivia : m.tree.isTrivia = true
    · have hnode : m.tree.isNode = false := by simp_all [Tree.isTrivia]
      have hnone : (ofNode c owner m fun o n _ => collect c o n) = [] := by
        rw [ofNode]
        split
        · rfl
        · rw [hnode, Bool.false_and, if_neg Bool.false_ne_true]
      rw [List.filter_cons_of_neg (by simpa using htrivia), ih, List.flatMap_cons, hnone,
        List.nil_append]
    · rw [List.filter_cons_of_pos (by simpa using htrivia), List.flatMap_cons, List.flatMap_cons,
        ih]

/-- The declarations of a scope and those of the scope without trivia. -/
theorem map_moved_collect (c : Config) (owner : Option DeclarationKind) (h : Above g l b) :
    (collect c owner b).map (moved g) = (collect c owner l).map (moved id) := by
  induction hsize : sizeOf l.tree using Nat.strongRecOn generalizing l b owner with
  | ind size ih =>
    subst hsize
    rw [← flatMap_ofNode_filter c owner l, collect_eq c owner b, List.map_flatMap,
      List.map_flatMap, List.flatMap_def, List.flatMap_def]
    congr 1
    refine map_eq_map_of_forall₂ h.forall₂_children fun m hm n hmn => ?_
    have hmem : m ∈ l.children := List.mem_of_mem_filter hm
    have hm := Located.sizeOf_tree_lt_of_mem hmem
    refine map_moved_ofNode c owner hmn fun o m' hm' n' hmn' => ?_
    have hm' := Located.sizeOf_tree_lt_of_mem hm'
    exact ih (sizeOf m'.tree) (by omega) o hmn'.toAbove rfl

end Declaration

end SwiftOutline

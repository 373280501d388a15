import Mathlib.Data.List.Forall2
import SwiftOutline.Declaration.Placement
import SwiftOutline.Proofs.Visit

/-!
# SwiftOutline.Proofs.Reached

A declaration read off its node alone is the one that collecting hands out.

Collecting goes down a tree and hands every scope the kind of declaration that owns it. Reading a
declaration off one node goes up from the node instead, to the first node around it that is no
layer of a scope.

* `Site.makers`, `Site.blocks` — the nodes that a declaration node stands for, and the blocks whose
  declarations are below it;
* `Site.reached` — the nodes that collecting from a scope on comes by, each with the kind of
  declaration it makes;
* `ofSite_makers` — reading a node gives what collecting makes of it, if both know the same owner;
* `collectFile_eq_ofSite` — every declaration of a file is what its node makes alone.
-/

namespace SwiftOutline

namespace Site

/-- What stands right below the node of a site, with what is around it. -/
def inside (s : Site) (c : Located) : Site := ⟨c, s.node :: s.above⟩

/-- The nodes that a declaration node stands for, one for each declaration it makes: the bindings
of a statement of variables, the elements of a list of enum cases, else the node itself. -/
def makers (k : DeclarationKind) (s : Site) : List Site :=
  match k with
  | .variable =>
    match s.node.child? (Tree.isNodeOf .patternBindingList) with
    | none => []
    | some list =>
      (list.childrenWhere (Tree.isNodeOf .patternBinding)).map (s.inside list).inside
  | .enumCase => (s.node.childrenWhere (Tree.isNodeOf .enumCaseElement)).map s.inside
  | _ => [s]

theorem makers_eq_singleton {k : DeclarationKind} (hv : k ≠ .variable) (he : k ≠ .enumCase)
    (s : Site) : makers k s = [s] := by
  cases k <;> first | rfl | contradiction

/-- The blocks whose declarations are below a declaration of a kind: the branches of a conditional
block, else the block of its members. -/
def blocks (k : DeclarationKind) (node : Located) : List Located :=
  if k = .conditionalBlock then node.childrenWhere (Tree.isNodeOf .ifConfigClause)
  else (k.block?.bind fun b => node.child? (Tree.isNodeOf b)).toList

theorem mem_children_of_mem_blocks {k : DeclarationKind} {node block : Located}
    (h : block ∈ blocks k node) : block ∈ node.children := by
  unfold blocks at h
  split at h
  · exact (List.mem_filter.1 h).1
  · obtain ⟨b, -, hb⟩ := Option.bind_eq_some_iff.1 (Option.mem_toList.1 h)
    exact List.mem_of_find?_eq_some hb

/-- The nodes that collecting from a scope on comes by, each with the kind of declaration that it
makes and before what is below it. -/
def reached (scope : Site) : List (DeclarationKind × Site) :=
  scope.node.children.attach.flatMap fun ⟨child, hchild⟩ =>
    match DeclarationKind.ofNode? child.kind with
    | none => []
    | some k =>
      if child.tree.isNode then
        (makers k (scope.inside child)).flatMap fun m =>
          (k, m) :: (blocks k child).attach.flatMap fun ⟨block, hblock⟩ =>
            have := Located.sizeOf_tree_lt_of_mem hchild
            have := Located.sizeOf_tree_lt_of_mem (mem_children_of_mem_blocks hblock)
            reached ((scope.inside child).inside block)
      else []
  termination_by sizeOf scope.node.tree
  decreasing_by simp only [inside]; omega

theorem reached_eq (scope : Site) :
    reached scope = scope.node.children.flatMap fun child =>
      match DeclarationKind.ofNode? child.kind with
      | none => []
      | some k =>
        if child.tree.isNode then
          (makers k (scope.inside child)).flatMap fun m =>
            (k, m) :: (blocks k child).flatMap fun block =>
              reached ((scope.inside child).inside block)
        else [] := by
  rw [reached]
  simp only [List.flatMap_subtype, List.unattach_attach]

/-! ## where collecting comes by -/

mutual

/-- What is right below a node of a tree is in the tree too. -/
theorem mem_nodesIn_inside {above : List Located} {start : Nat} {t : Tree} {s : Site}
    {c : Located} (h : s ∈ nodesIn above start t) (hc : c ∈ s.node.children)
    (hn : c.tree.isNode = true) : s.inside c ∈ nodesIn above start t := by
  cases t with
  | token k x => cases h
  | node k cs =>
    rw [nodesIn, List.mem_cons] at h ⊢
    right
    obtain rfl | h := h
    · rw [Located.nodesInAll_eq, List.mem_flatMap]
      exact ⟨c, hc, by simp [nodesIn_node _ hn, inside]⟩
    · exact mem_nodesInAll_inside h hc hn

theorem mem_nodesInAll_inside {above : List Located} {start : Nat} {ts : List Tree} {s : Site}
    {c : Located} (h : s ∈ nodesInAll above start ts) (hc : c ∈ s.node.children)
    (hn : c.tree.isNode = true) : s.inside c ∈ nodesInAll above start ts := by
  cases ts with
  | nil => cases h
  | cons t ts =>
    rw [nodesInAll, List.mem_append] at h ⊢
    obtain h | h := h
    · exact .inl (mem_nodesIn_inside h hc hn)
    · exact .inr (mem_nodesInAll_inside h hc hn)

end

/-- Found nodes below a node of a tree are in the tree. -/
theorem mem_all_inside {t : Tree} {s : Site} {c : Located} {k : Kind} (h : s ∈ all t)
    (hc : c ∈ s.node.childrenWhere (Tree.isNodeOf k)) : s.inside c ∈ all t := by
  obtain ⟨hmem, hk⟩ := List.mem_filter.1 hc
  exact mem_nodesIn_inside h hmem (Tree.isNodeOf_iff.1 hk).1

theorem mem_childrenWhere_of_child? {l c : Located} {p : Tree → Bool} (h : l.child? p = some c) :
    c ∈ l.childrenWhere p :=
  List.mem_filter.2
    ⟨List.mem_of_find?_eq_some h, List.find?_some (p := fun c : Located => p c.tree) h⟩

theorem kind_of_mem_childrenWhere {l c : Located} {k : Kind}
    (h : c ∈ l.childrenWhere (Tree.isNodeOf k)) : c.kind = k :=
  (Tree.isNodeOf_iff.1 (List.mem_filter.1 h).2).2

theorem makers_mem_all {t : Tree} {s m : Site} {k : DeclarationKind} (h : s ∈ all t)
    (hm : m ∈ makers k s) : m ∈ all t := by
  unfold makers at hm
  split at hm
  · cases hlist : s.node.child? (Tree.isNodeOf .patternBindingList) with
    | none =>
      rw [hlist] at hm
      cases hm
    | some list =>
      rw [hlist] at hm
      obtain ⟨binding, hbinding, rfl⟩ := List.mem_map.1 hm
      exact mem_all_inside (mem_all_inside h (mem_childrenWhere_of_child? hlist)) hbinding
  · obtain ⟨element, helement, rfl⟩ := List.mem_map.1 hm
    exact mem_all_inside h helement
  · rwa [List.mem_singleton.1 hm]

theorem blocks_mem_all {t : Tree} {s : Site} {block : Located} {k : DeclarationKind}
    (h : s ∈ all t) (hb : block ∈ blocks k s.node) : s.inside block ∈ all t := by
  unfold blocks at hb
  split at hb
  · exact mem_all_inside h hb
  · obtain ⟨b, -, hchild⟩ := Option.bind_eq_some_iff.1 (Option.mem_toList.1 hb)
    exact mem_all_inside h (mem_childrenWhere_of_child? hchild)

/-- Collecting comes by nodes of the tree only. -/
theorem reached_mem_all {t : Tree} {scope : Site} (h : scope ∈ all t) :
    ∀ m ∈ reached scope, m.2 ∈ all t := by
  induction hsize : sizeOf scope.node.tree using Nat.strongRecOn generalizing scope with
  | ind size ih =>
    subst hsize
    intro m hm
    rw [reached_eq, List.mem_flatMap] at hm
    obtain ⟨child, hchild, hm⟩ := hm
    split at hm
    · cases hm
    · next k _ =>
      split at hm
      · next hn =>
        have hinside := mem_nodesIn_inside h hchild hn
        obtain ⟨maker, hmaker, hm⟩ := List.mem_flatMap.1 hm
        obtain rfl | hm := List.mem_cons.1 hm
        · exact makers_mem_all hinside hmaker
        · obtain ⟨block, hblock, hm⟩ := List.mem_flatMap.1 hm
          have hlt := Nat.lt_trans
            (Located.sizeOf_tree_lt_of_mem (mem_children_of_mem_blocks hblock))
            (Located.sizeOf_tree_lt_of_mem hchild)
          exact ih _ hlt (blocks_mem_all hinside hblock) rfl m hm
      · cases hm

/-! ## reading a node -/

theorem expect_of_kind {s : Site} {k : Kind} (h : s.node.kind = k) : s.expect k = .ok s :=
  if_pos h

theorem enclosing_inside {s : Site} {part c : Located} {k : Kind} (h : s.node.kind = k) :
    (s.inside c).enclosing part k = .ok s := if_pos h

theorem of_expect {s r : Site} {k : Kind} (h : s.expect k = .ok r) : s.node.kind = k ∧ s = r := by
  unfold expect at h
  split at h
  · next hk => exact ⟨hk, Except.ok.inj h⟩
  · cases h

/-- Going up from a part through a layer of a scope does not change the owner. -/
theorem owner?_of_enclosing {s r : Site} {part : Located} {k : Kind}
    (h : s.enclosing part k = .ok r) (hlayer : k.isScopeLayer = true) :
    s.owner? = r.owner? := by
  obtain ⟨node, above⟩ := s
  cases above with
  | nil => cases h
  | cons around above =>
    simp only [enclosing, parent?] at h
    split at h
    · next hk =>
      obtain rfl := Except.ok.inj h
      exact Declaration.owner?_of_layer (by rw [hk, hlayer])
    · cases h

end Site

namespace Declaration

open Site

theorem ofBindingSite_inside {s : Site} {list binding : Located}
    (hs : s.node.kind = .variableDecl) (hlist : list.kind = .patternBindingList)
    (hbinding : binding.kind = .patternBinding) :
    ofBindingSite ((s.inside list).inside binding) =
      .ok (mk (.ofBinding s.owner? s.node list.tree binding) []) := by
  have hexpect : ((s.inside list).inside binding).expect .patternBinding = .ok _ :=
    expect_of_kind hbinding
  have hinner (part : Located) :
      ((s.inside list).inside binding).enclosing part .patternBindingList = .ok _ :=
    enclosing_inside hlist
  have houter (part : Located) : (s.inside list).enclosing part .variableDecl = .ok _ :=
    enclosing_inside hs
  simp only [ofBindingSite, hexpect, hinner, houter, bind, Except.bind]
  rfl

theorem ofElementSite_inside {s : Site} {element : Located} (hs : s.node.kind = .enumCaseDecl)
    (helement : element.kind = .enumCaseElement) :
    ofElementSite (s.inside element) = .ok (mk (.ofElement s.owner? s.node element) []) := by
  have hexpect : (s.inside element).expect .enumCaseElement = .ok _ := expect_of_kind helement
  have houter (part : Located) : (s.inside element).enclosing part .enumCaseDecl = .ok _ :=
    enclosing_inside hs
  simp only [ofElementSite, hexpect, houter, bind, Except.bind]
  rfl

/-- A node that stands for itself is read as one declaration. -/
theorem ofSite_eq {k : DeclarationKind} (hvariable : k ≠ .variable) (hcase : k ≠ .enumCase)
    (s : Site) : ofSite k s =
      (s.expect k.node).map fun d => ofDeclarationNode .default d.owner? k d.node := by
  have hsite : ofSite k s = do
      let declaration ← s.expect k.node
      return ofDeclarationNode .default declaration.owner? k declaration.node := by
    cases k <;> first | rfl | contradiction
  rw [hsite]
  cases s.expect k.node <;> rfl

/-- Reading the nodes that a declaration node stands for gives what collecting makes of them, if
the owner that collecting hands down is the one found by going up. -/
theorem ofSite_makers {s : Site} {k : DeclarationKind} (hk : s.node.kind = k.node) :
    List.Forall₂ (fun f m => ofSite k m =
        .ok (mk f (scopesOf .default s.owner? k s.node fun o b _ => collect .default o b)))
      (Facts.allOfNode s.owner? k s.node) (makers k s) := by
  by_cases hvariable : k = .variable
  · subst hvariable
    simp only [Facts.allOfNode, Facts.ofBindings, makers]
    cases hlist : s.node.child? (Tree.isNodeOf .patternBindingList) with
    | none => exact .nil
    | some list =>
      have hlistkind := kind_of_mem_childrenWhere (mem_childrenWhere_of_child? hlist)
      simp only [List.forall₂_map_left_iff, List.forall₂_map_right_iff, List.forall₂_same]
      intro binding hbinding
      exact ofBindingSite_inside hk hlistkind (kind_of_mem_childrenWhere hbinding)
  · by_cases hcase : k = .enumCase
    · subst hcase
      simp only [Facts.allOfNode, Facts.ofElements, makers, List.forall₂_map_left_iff,
        List.forall₂_map_right_iff, List.forall₂_same]
      intro element helement
      exact ofElementSite_inside hk (kind_of_mem_childrenWhere helement)
    · rw [allOfNode_eq_singleton hvariable hcase, makers_eq_singleton hvariable hcase]
      refine .cons ?_ .nil
      rw [ofSite_eq hvariable hcase, expect_of_kind hk]
      rfl

/-- The owner of a declaration read off its node is the one found by going up from there. -/
theorem owner_of_ofSite {k : DeclarationKind} {s : Site} {d : Declaration}
    (h : ofSite k s = .ok d) : d.facts.owner = s.owner? := by
  have hbind {α β : Type} {x : Except Misplaced α} {f : α → Except Misplaced β} {b : β}
      (h : (x >>= f) = .ok b) : ∃ a, x = .ok a ∧ f a = .ok b := by
    cases x with
    | error e => cases h
    | ok a => exact ⟨a, rfl, h⟩
  by_cases hvariable : k = .variable
  · subst hvariable
    obtain ⟨binding, hbinding, hlater⟩ := hbind h
    obtain ⟨list, hlist, hlast⟩ := hbind hlater
    obtain ⟨statement, hstatement, hd⟩ := hbind hlast
    obtain ⟨-, rfl⟩ := of_expect hbinding
    rw [owner?_of_enclosing hlist rfl, owner?_of_enclosing hstatement rfl, ← Except.ok.inj hd]
    rfl
  · by_cases hcase : k = .enumCase
    · subst hcase
      obtain ⟨element, helement, hlast⟩ := hbind h
      obtain ⟨statement, hstatement, hd⟩ := hbind hlast
      obtain ⟨-, rfl⟩ := of_expect helement
      rw [owner?_of_enclosing hstatement rfl, ← Except.ok.inj hd]
      rfl
    · rw [ofSite_eq hvariable hcase] at h
      cases hexpect : s.expect k.node with
      | error e =>
        rw [hexpect] at h
        cases h
      | ok declaration =>
        obtain ⟨-, rfl⟩ := of_expect hexpect
        rw [hexpect] at h
        obtain rfl := Except.ok.inj h
        rfl

/-! ## collecting -/

theorem forall₂_flatMap {α β γ : Type} {R : β → γ → Prop} {as : List α} {f : α → List β}
    {g : α → List γ} (h : ∀ a ∈ as, List.Forall₂ R (f a) (g a)) :
    List.Forall₂ R (as.flatMap f) (as.flatMap g) := by
  have hsame : List.Forall₂ (fun a b => a = b ∧ a ∈ as) as as :=
    List.forall₂_same.2 fun a ha => ⟨rfl, ha⟩
  refine List.rel_flatMap hsame ?_
  rintro a _ ⟨rfl, ha⟩
  exact h a ha

/-- The declarations below a declaration are those of its blocks. -/
theorem preorderOfScopes_scopesOf (o : Option DeclarationKind) (k : DeclarationKind)
    (node : Located) :
    preorderOfScopes (scopesOf .default o k node fun o b _ => collect .default o b) =
      (blocks k node).flatMap fun block =>
        preorderOfAll (collect .default (if k = .conditionalBlock then o else some k) block) := by
  unfold scopesOf blocks
  by_cases hcond : k = .conditionalBlock
  · simp only [if_pos hcond, branchScopes_eq, preorderOfScopes_eq, preorderOfAll_eq,
      List.flatMap_map, List.flatMap_assoc, Scope.declarations]
  · have hdefault : Config.block? .default k = k.block? := rfl
    rw [if_neg hcond, if_neg hcond, if_neg hcond, memberScopes_eq, hdefault]
    cases k.block?.bind fun b => node.child? (Tree.isNodeOf b) with
    | none => rfl
    | some block => simp [preorderOfScopes]

/-- The blocks of a declaration belong to what collecting hands them down as their owner. -/
theorem owner?_inside_block {s : Site} {k : DeclarationKind} {block : Located}
    (hk : s.node.kind = k.node) (hb : block ∈ blocks k s.node) (n : Located) :
    ((s.inside block).inside n).owner? =
      if k = .conditionalBlock then s.owner? else some k := by
  unfold blocks at hb
  split at hb
  · next hcond =>
    subst hcond
    have hclause := kind_of_mem_childrenWhere hb
    have hlayer : block.kind.isScopeLayer = true := by rw [hclause]; rfl
    have hlayer' : s.node.kind.isScopeLayer = true := by rw [hk]; rfl
    rw [if_pos rfl]
    exact (owner?_of_layer hlayer).trans (owner?_of_layer hlayer')
  · next hcond =>
    obtain ⟨b, hb, hchild⟩ := Option.bind_eq_some_iff.1 (Option.mem_toList.1 hb)
    have hblock := kind_of_mem_childrenWhere (mem_childrenWhere_of_child? hchild)
    obtain ⟨hlayer, hnolayer⟩ := DeclarationKind.isScopeLayer_of_block? hb
    rw [if_neg hcond]
    rw [← hblock] at hlayer
    exact (owner?_of_layer hlayer).trans (owner?_of_declaration hk hnolayer)

/-- What collecting from a scope on finds is what the nodes it comes by make alone, if going up
from the scope finds the owner that it was handed. -/
theorem forall₂_collect {scope : Site} {o : Option DeclarationKind}
    (ho : ∀ n, (scope.inside n).owner? = o) :
    List.Forall₂ (fun d m => ofSite m.1 m.2 = .ok d)
      (preorderOfAll (collect .default o scope.node)) (reached scope) := by
  induction hsize : sizeOf scope.node.tree using Nat.strongRecOn generalizing scope o with
  | ind size ih =>
    subst hsize
    rw [collect_eq, preorderOfAll_eq, List.flatMap_assoc, reached_eq]
    refine forall₂_flatMap fun child hchild => ?_
    have howner := ho child
    rw [ofNode]
    cases hd : DeclarationKind.ofNode? child.kind with
    | none => exact .nil
    | some k =>
      have hk := DeclarationKind.node_of_ofNode? hd
      have hdefault : Config.isEnabled .default k = true := rfl
      dsimp only
      rw [hdefault, Bool.and_true]
      by_cases hn : child.tree.isNode = true
      · rw [if_pos hn, if_pos hn, List.flatMap_map]
        have hmakers := ofSite_makers (s := scope.inside child) hk
        rw [howner] at hmakers
        refine List.rel_flatMap hmakers fun f m hm => ?_
        rw [preorder, preorderOfScopes_scopesOf]
        refine .cons hm (forall₂_flatMap fun block hblock => ?_)
        have hlt := Nat.lt_trans
          (Located.sizeOf_tree_lt_of_mem (mem_children_of_mem_blocks hblock))
          (Located.sizeOf_tree_lt_of_mem hchild)
        have hinner (n : Located) : (((scope.inside child).inside block).inside n).owner? =
            if k = .conditionalBlock then o else some k := by
          rw [owner?_inside_block hk hblock, howner]
        exact ih _ hlt hinner rfl
      · rw [if_neg hn, if_neg hn]
        exact .nil

end Declaration

/-- Every declaration of a file is what its node makes alone: reading the binding, the enum case or
else the declaration node by itself succeeds, with the same owner and the same declarations below.
Such nodes are nodes of the file, and going up from each finds the owner that collecting handed
down. -/
theorem Declaration.collectFile_eq_ofSite (items : List Tree) :
    List.Forall₂
      (fun d m => m.2 ∈ Site.all (.node .sourceFile items) ∧ ofSite m.1 m.2 = .ok d ∧
        m.2.owner? = d.facts.owner)
      (preorderOfAll (collectFile .default (.node .sourceFile items)))
      (Site.root (.node .sourceFile items)).reached := by
  have hroot : Site.root (.node .sourceFile items) ∈ Site.all (.node .sourceFile items) :=
    List.mem_cons_self
  have howner (n : Located) : ((Site.root (.node .sourceFile items)).inside n).owner? = none := rfl
  have hcollect := forall₂_collect howner
  have hmem := Site.reached_mem_all hroot
  rw [List.forall₂_iff_get] at hcollect ⊢
  obtain ⟨hlength, hget⟩ := hcollect
  refine ⟨hlength, fun i hd hm => ?_⟩
  have hsite := hget i hd hm
  exact ⟨hmem _ (List.get_mem _ _), hsite, (owner_of_ofSite hsite).symm⟩

end SwiftOutline

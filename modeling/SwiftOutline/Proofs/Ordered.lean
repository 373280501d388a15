import Mathlib.Algebra.GroupWithZero.Nat
import Mathlib.Data.List.Nodup
import SwiftOutline.Proofs.Reached
import SwiftOutline.Proofs.Solid

/-!
# SwiftOutline.Proofs.Ordered

The declarations of one scope, by kind and in source order.

* `Declaration.contributed` — what one child of a scope adds to the declarations of the scope;
* `ofKind_collect` — the declarations of a kind are what the children of that kind add, in their
  order;
* `map_position_contributed` — a child adds one declaration at each of its bindings or enum cases,
  or one where it starts itself;
* `inSourceOrder_eq_of_increasing` — sorting leaves alone what starts at ever later places;
* `collect_partition` — the theorem for scopes of any tree, and for those of source files without
  faults.

Nodes without any token could start at one place and be sorted by kind. In a source file without
faults every node holds a token, so this does not happen there.
-/

namespace SwiftOutline

/-! ## rows -/

namespace Located

/-- In a row every part ends before the next one starts. -/
theorem pairwise_row (start : Nat) (ts : List Tree) :
    (row start ts).Pairwise (fun a b => a.start + a.tree.size ≤ b.start) ∧
      ∀ l ∈ row start ts, start ≤ l.start ∧ l.start + l.tree.size ≤ start + Tree.sizeOfAll ts := by
  induction ts generalizing start with
  | nil => simp [row]
  | cons t ts ih =>
    obtain ⟨hpairwise, hbounds⟩ := ih (start + t.size)
    have hsize : Tree.sizeOfAll (t :: ts) = t.size + Tree.sizeOfAll ts := rfl
    rw [row]
    constructor
    · refine List.pairwise_cons.2 ⟨fun l hl => ?_, hpairwise⟩
      exact (hbounds l hl).1
    · intro l hl
      obtain rfl | hl := List.mem_cons.1 hl
      · simp only
        omega
      · have := hbounds l hl
        omega

theorem pairwise_children (l : Located) :
    l.children.Pairwise fun a b => a.start + a.tree.size ≤ b.start :=
  (pairwise_row _ _).1

/-- What stands below a node stands within it. -/
theorem bounds_of_mem {l c : Located} (hc : c ∈ l.children) :
    l.start ≤ c.start ∧ c.start + c.tree.size ≤ l.start + l.tree.size := by
  have hbounds := (pairwise_row _ _).2 c hc
  have hsize : Tree.sizeOfAll l.tree.children ≤ l.tree.size := by
    cases l.tree with
    | node k cs => exact Nat.le_refl _
    | token k s => exact Nat.zero_le _
  omega

/-- Parts of a row that are not empty start at ever later places. -/
theorem pairwise_start {l : Located} {cs : List Located} (hcs : cs.Sublist l.children)
    (hsize : ∀ c ∈ cs, 0 < c.tree.size) : (cs.map (·.start)).Pairwise (· < ·) := by
  rw [List.pairwise_map]
  refine ((pairwise_children l).sublist hcs).imp_of_mem fun ha _ hab => ?_
  have := hsize _ ha
  omega

end Located

namespace Declaration

open Site

/-! ## what a child adds -/

/-- What one child of a scope adds to the declarations of the scope. -/
def contributed (c : Config) (o : Option DeclarationKind) (child : Located) : List Declaration :=
  ofNode c o child fun o block _ => collect c o block

variable (c : Config) (o : Option DeclarationKind)

theorem collect_eq_flatMap (scope : Located) :
    collect c o scope = scope.children.flatMap (contributed c o) := collect_eq c o scope

theorem contributed_eq (child : Located) :
    contributed c o child =
      match DeclarationKind.ofNode? child.kind with
      | none => []
      | some k =>
        if child.tree.isNode && c.isEnabled k then
          (Facts.allOfNode o k child).map fun f =>
            mk f (scopesOf c o k child fun o block _ => collect c o block)
        else [] := rfl

/-- A child adds declarations of its own kind only, and only if that kind is collected. -/
theorem of_mem_contributed {child : Located} {d : Declaration} (hd : d ∈ contributed c o child) :
    child.tree.isNodeOf d.kind.node = true ∧ c.isEnabled d.kind = true := by
  rw [contributed_eq] at hd
  split at hd
  · cases hd
  · next k hk =>
    split at hd
    · next hcond =>
      obtain ⟨f, hf, rfl⟩ := List.mem_map.1 hd
      obtain ⟨hn, henabled⟩ := Bool.and_eq_true_iff.1 hcond
      show child.tree.isNodeOf f.kind.node = true ∧ c.isEnabled f.kind = true
      rw [kind_of_mem_allOfNode hf]
      exact ⟨Tree.isNodeOf_iff.2 ⟨hn, DeclarationKind.node_of_ofNode? hk⟩, henabled⟩
    · cases hd

/-- What a child of a kind that is collected adds has the facts of its node. -/
theorem facts_contributed {child : Located} {k : DeclarationKind}
    (hk : child.tree.isNodeOf k.node = true) (henabled : c.isEnabled k = true) :
    (contributed c o child).map (·.facts) = Facts.allOfNode o k child := by
  obtain ⟨hn, hkind⟩ := Tree.isNodeOf_iff.1 hk
  have hofNode : DeclarationKind.ofNode? child.kind = some k := by
    rw [Located.kind, hkind, DeclarationKind.ofNode?_node]
  rw [contributed_eq, hofNode]
  simp [hn, henabled, Function.comp_def, facts]

/-- A declaration starts at the binding or the enum case that makes it, or where its node does. -/
theorem map_position_allOfNode (k : DeclarationKind) (s : Site) :
    (Facts.allOfNode o k s.node).map (·.position) = (makers k s).map (·.node.start) := by
  by_cases hvariable : k = .variable
  · subst hvariable
    simp only [Facts.allOfNode, Facts.ofBindings, makers]
    cases s.node.child? (Tree.isNodeOf .patternBindingList) with
    | none => rfl
    | some list => simp [Facts.ofBinding, inside]
  · by_cases hcase : k = .enumCase
    · subst hcase
      simp [Facts.allOfNode, Facts.ofElements, makers, Facts.ofElement, inside]
    · rw [allOfNode_eq_singleton hvariable hcase, makers_eq_singleton hvariable hcase]
      rfl

theorem map_position_contributed {s : Site} {k : DeclarationKind}
    (hk : s.node.tree.isNodeOf k.node = true) (henabled : c.isEnabled k = true) :
    (contributed c o s.node).map (·.position) = (makers k s).map (·.node.start) := by
  rw [← map_position_allOfNode o, ← facts_contributed c o hk henabled, List.map_map]
  rfl

/-! ## kinds -/

/-- The declarations of a kind among those that a child adds are all or none of them. -/
theorem ofKind_contributed (k : DeclarationKind) (child : Located) :
    ofKind k (contributed c o child) =
      if child.tree.isNodeOf k.node && c.isEnabled k then contributed c o child else [] := by
  split
  · next hcond =>
    refine List.filter_eq_self.2 fun d hd => ?_
    obtain ⟨-, hchild⟩ := Tree.isNodeOf_iff.1 (of_mem_contributed c o hd).1
    obtain ⟨-, hchild'⟩ := Tree.isNodeOf_iff.1 (Bool.and_eq_true_iff.1 hcond).1
    have hkinds : some d.kind = some k := by
      rw [← DeclarationKind.ofNode?_node, ← hchild, hchild', DeclarationKind.ofNode?_node]
    simpa using hkinds
  · next hcond =>
    refine List.filter_eq_nil_iff.2 fun d hd hkind => hcond ?_
    obtain rfl : d.kind = k := by simpa using hkind
    exact Bool.and_eq_true_iff.2 (of_mem_contributed c o hd)

/-- The declarations of a kind are what the children of that kind add, in their order. -/
theorem ofKind_collect (k : DeclarationKind) (scope : Located) :
    ofKind k (collect c o scope) =
      (scope.children.filter fun child => child.tree.isNodeOf k.node && c.isEnabled k).flatMap
        (contributed c o) := by
  have hfilter (children : List Located) :
      (children.filter fun child => child.tree.isNodeOf k.node && c.isEnabled k).flatMap
          (contributed c o) =
        children.flatMap fun child => ofKind k (contributed c o child) := by
    induction children with
    | nil => rfl
    | cons child children ih =>
      rw [List.flatMap_cons, ← ih, ofKind_contributed, List.filter_cons]
      split <;> simp
  rw [hfilter, collect_eq_flatMap]
  exact List.filter_flatMap

/-! ## source order -/

/-- Sorting leaves alone what starts at ever later places. -/
theorem inSourceOrder_eq_of_increasing {ds : List Declaration}
    (h : (ds.map (·.position)).Pairwise (· < ·)) : inSourceOrder ds = ds := by
  have hperm := inSourceOrder_perm ds
  have hinjective := List.inj_on_of_nodup_map (h.imp fun hlt => Nat.ne_of_lt hlt)
  refine hperm.eq_of_pairwise (fun d e hd he hde hed => ?_) (pairwise_sortByPosition _)
    ((List.pairwise_map.1 h).imp Nat.le_of_lt)
  exact hinjective (hperm.mem_iff.1 hd) he (Nat.le_antisymm hde hed)

/-- A declaration node stands for itself, or for parts of a row within it. -/
theorem makers_cases (k : DeclarationKind) (s : Site) :
    makers k s = [s] ∨ ∃ l : Located, s.node.start ≤ l.start ∧
      l.start + l.tree.size ≤ s.node.start + s.node.tree.size ∧
        ((makers k s).map (·.node)).Sublist l.children := by
  unfold makers
  split
  · right
    cases hlist : s.node.child? (Tree.isNodeOf .patternBindingList) with
    | none => exact ⟨s.node, Nat.le_refl _, Nat.le_refl _, List.nil_sublist _⟩
    | some list =>
      obtain ⟨hstart, hstop⟩ := Located.bounds_of_mem (List.mem_of_find?_eq_some hlist)
      refine ⟨list, hstart, hstop, ?_⟩
      simp only [List.map_map]
      exact (List.map_id _).symm ▸ List.filter_sublist
  · right
    refine ⟨s.node, Nat.le_refl _, Nat.le_refl _, ?_⟩
    simp only [List.map_map]
    exact (List.map_id _).symm ▸ List.filter_sublist
  · exact .inl rfl

/-- What a declaration node stands for starts within it, at ever later places, if none of it is
empty. -/
theorem pairwise_makers {k : DeclarationKind} {s : Site}
    (hsize : ∀ m ∈ makers k s, 0 < m.node.tree.size) :
    ((makers k s).map (·.node.start)).Pairwise (· < ·) ∧
      ∀ m ∈ makers k s, s.node.start ≤ m.node.start ∧
        m.node.start < s.node.start + s.node.tree.size := by
  obtain hone | ⟨l, hstart, hstop, hrow⟩ := makers_cases k s
  · rw [hone] at hsize ⊢
    have hs := hsize s List.mem_cons_self
    simpa using hs
  · have hnodes : ∀ n ∈ (makers k s).map (·.node), 0 < n.tree.size := by
      simpa using hsize
    have hpairwise := Located.pairwise_start hrow hnodes
    rw [List.map_map] at hpairwise
    refine ⟨hpairwise, fun m hm => ?_⟩
    have hbounds := Located.bounds_of_mem (hrow.subset (List.mem_map_of_mem hm))
    have hm := hsize m hm
    omega

/-- What a declaration node stands for is never the root, nor an argument of an attribute. -/
theorem kind_of_mem_makers {k : DeclarationKind} {s m : Site} (hk : s.node.kind = k.node)
    (hm : m ∈ makers k s) : m.node.kind ≠ .sourceFile ∧ m.node.kind ≠ .attributeArgument := by
  by_cases hvariable : k = .variable
  · subst hvariable
    simp only [makers] at hm
    split at hm
    · cases hm
    · obtain ⟨binding, hbinding, rfl⟩ := List.mem_map.1 hm
      have hkind := kind_of_mem_childrenWhere hbinding
      simp [inside, hkind]
  · by_cases hcase : k = .enumCase
    · subst hcase
      obtain ⟨element, helement, rfl⟩ := List.mem_map.1 hm
      have hkind := kind_of_mem_childrenWhere helement
      simp [inside, hkind]
    · rw [makers_eq_singleton hvariable hcase, List.mem_singleton] at hm
      rw [hm, hk]
      cases k <;> decide

/-- In a source file without faults, what a child of a scope adds starts within the child, at ever
later places. -/
theorem increasing_contributed {source : String} (hclean : (parse source).faults = []) {s : Site}
    (hs : s ∈ all (parse source).tree) {child : Located} (hchild : child ∈ s.node.children) :
    ((contributed c o child).map (·.position)).Pairwise (· < ·) ∧
      ∀ d ∈ contributed c o child, child.start ≤ d.position ∧
        d.position < child.start + child.tree.size := by
  cases hds : contributed c o child with
  | nil => simp
  | cons d ds =>
    have hd : d ∈ contributed c o child := by simp [hds]
    obtain ⟨hnode, henabled⟩ := of_mem_contributed c o hd
    obtain ⟨hn, hkind⟩ := Tree.isNodeOf_iff.1 hnode
    have hmem := mem_nodesIn_inside hs hchild hn
    obtain ⟨hincreasing, hbounds⟩ := pairwise_makers fun m hm => by
      obtain ⟨hroot, hargument⟩ := kind_of_mem_makers (s := s.inside child) hkind hm
      exact size_pos_of_mem_all hclean (makers_mem_all hmem hm) hroot hargument
    have hpositions := map_position_contributed c o (s := s.inside child) hnode henabled
    rw [← hds]
    show ((contributed c o (s.inside child).node).map (·.position)).Pairwise (· < ·) ∧ _
    rw [hpositions]
    refine ⟨hincreasing, fun e he => ?_⟩
    have hposition : e.position ∈ (makers d.kind (s.inside child)).map (·.node.start) := by
      rw [← hpositions]
      exact List.mem_map_of_mem he
    obtain ⟨m, hm, hstart⟩ := List.mem_map.1 hposition
    rw [← hstart]
    exact hbounds m hm

/-- In a source file without faults, the declarations of a scope start at ever later places. -/
theorem increasing_collect {source : String} (hclean : (parse source).faults = []) {s : Site}
    (hs : s ∈ all (parse source).tree) :
    ((collect c o s.node).map (·.position)).Pairwise (· < ·) := by
  rw [collect_eq_flatMap, List.map_flatMap, List.pairwise_flatMap]
  refine ⟨fun child hchild => (increasing_contributed c o hclean hs hchild).1, ?_⟩
  refine (Located.pairwise_children s.node).imp_of_mem fun ha hb hab x hx y hy => ?_
  obtain ⟨d, hd, rfl⟩ := List.mem_map.1 hx
  obtain ⟨e, he, rfl⟩ := List.mem_map.1 hy
  have hdbounds := (increasing_contributed c o hclean hs ha).2 d hd
  have hebounds := (increasing_contributed c o hclean hs hb).2 e he
  omega

theorem root_mem_all (source : String) :
    root (parse source).tree ∈ all (parse source).tree := by
  rw [treesOfAll_markedParts]
  exact List.mem_cons_self

/-- The declarations of a scope are parted by kind: those of a kind are what the children of that
kind add in their order, if the kind is collected. Such a child adds what its node declares, at
each of its bindings or enum cases, or else where it starts itself. No declaration is counted
twice or left out, and source order is an order of all of them by position.

If the scope is one of a source file without faults, they start at ever later places, and source
order is the order in which the children of the scope add them. -/
theorem collect_partition (scope : Located) :
    (∀ k, ofKind k (collect c o scope) =
        (scope.children.filter fun child => child.tree.isNodeOf k.node && c.isEnabled k).flatMap
          (contributed c o)) ∧
      (∀ (k : DeclarationKind) (s : Site), s.node.tree.isNodeOf k.node = true →
        c.isEnabled k = true →
          (contributed c o s.node).map (·.facts) = Facts.allOfNode o k s.node ∧
            (contributed c o s.node).map (·.position) = (makers k s).map (·.node.start)) ∧
      (collect c o scope).length =
        (DeclarationKind.all.map fun k => (ofKind k (collect c o scope)).length).sum ∧
      (inSourceOrder (collect c o scope)).Perm
        (DeclarationKind.all.flatMap fun k => ofKind k (collect c o scope)) ∧
      (inSourceOrder (collect c o scope)).Pairwise (fun d e => d.position ≤ e.position) ∧
      ∀ source, (parse source).faults = [] →
        (∃ s ∈ all (parse source).tree, s.node = scope) →
          ((inSourceOrder (collect c o scope)).map (·.position)).Pairwise (· < ·) ∧
            inSourceOrder (collect c o scope) = scope.children.flatMap (contributed c o) := by
  have hgrouped : (collect c o scope).length =
      (DeclarationKind.all.map fun k => (ofKind k (collect c o scope)).length).sum := by
    rw [← (grouped_perm (collect c o scope)).length_eq, grouped, List.length_flatMap]
  refine ⟨fun k => ofKind_collect c o k scope, fun k s hk henabled => ?_, hgrouped,
    List.mergeSort_perm _ _, pairwise_sortByPosition _, fun source hclean hscope => ?_⟩
  · exact ⟨facts_contributed c o hk henabled, map_position_contributed c o hk henabled⟩
  · obtain ⟨s, hs, rfl⟩ := hscope
    have hincreasing := increasing_collect c o hclean hs
    have horder := inSourceOrder_eq_of_increasing hincreasing
    rw [horder]
    exact ⟨hincreasing, collect_eq_flatMap c o s.node⟩

/-- An empty class node is one declaration, which starts where the node does; two bindings are in
the order written. -/
theorem collect_partition_bindings :
    (contributed .default none ⟨.node .classDecl [], 7⟩).map (·.position) = [7] ∧
      (parse "var a, b").faults = [] ∧
      ((inSourceOrder (collect .default none ⟨(parse "var a, b").tree, 0⟩)).map
        (·.position)).Pairwise (· < ·) := by
  have hclean : (parse "var a, b").faults = [] := by decide +kernel
  obtain ⟨-, hchild, -⟩ := collect_partition .default none default
  obtain ⟨-, -, -, -, -, hscope⟩ := collect_partition .default none ⟨(parse "var a, b").tree, 0⟩
  exact ⟨(hchild .classType ⟨⟨.node .classDecl [], 7⟩, []⟩ rfl rfl).2, hclean,
    (hscope _ hclean ⟨root _, root_mem_all _, rfl⟩).1⟩

end Declaration

end SwiftOutline

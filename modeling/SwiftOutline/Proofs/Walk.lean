import Mathlib.Data.List.Perm.Basic
import SwiftOutline.Declaration.Path
import SwiftOutline.Declaration.Reading

/-!
# SwiftOutline.Proofs.Walk

Going through a forest of declarations in source order.

* `Declaration.walk` — a declaration and all inside it: its members in source order, then what
  its branches declare;
* `grouped_perm`, `inSourceOrder_perm` — putting a scope into source order neither loses nor
  repeats a declaration;
* `Declaration.IsPlain` — a declaration with at most one scope of members, so that looking for the
  members misses none;
* `walk_perm` — a walk meets what the forest holds, each declaration once.
-/

namespace SwiftOutline.Declaration

/-! ## one scope -/

/-- Grouping by kind neither loses nor repeats a declaration. -/
theorem grouped_perm (ds : List Declaration) : (grouped ds).Perm ds := by
  induction ds with
  | nil => exact .refl _
  | cons d ds ih =>
    have hone : (DeclarationKind.all.flatMap fun k => if d.kind = k then [d] else []) = [d] := by
      cases d.kind <;> rfl
    have hsplit : grouped (d :: ds) =
        DeclarationKind.all.flatMap fun k => (if d.kind = k then [d] else []) ++ ofKind k ds := by
      refine List.flatMap_congr fun k _ => ?_
      by_cases hk : d.kind = k
      · simp [ofKind, hk]
      · simp [ofKind, hk]
    have hperm := List.flatMap_append_perm DeclarationKind.all
      (fun k => if d.kind = k then [d] else []) fun k => ofKind k ds
    rw [hone, ← hsplit] at hperm
    exact hperm.symm.trans (.cons d ih)

/-- Putting a scope into source order neither loses nor repeats a declaration. -/
theorem inSourceOrder_perm (ds : List Declaration) : (inSourceOrder ds).Perm ds :=
  (List.mergeSort_perm _ _).trans (grouped_perm ds)

theorem startsBy_trans (d e f : Declaration) (hde : decide (d.position ≤ e.position) = true)
    (hef : decide (e.position ≤ f.position) = true) :
    decide (d.position ≤ f.position) = true := by
  simp only [decide_eq_true_eq] at *
  omega

theorem startsBy_total (d e : Declaration) :
    (decide (d.position ≤ e.position) || decide (e.position ≤ d.position)) = true := by
  simp only [Bool.or_eq_true, decide_eq_true_eq]
  omega

theorem pairwise_sortByPosition (ds : List Declaration) :
    (sortByPosition ds).Pairwise fun d e => d.position ≤ e.position := by
  have hsorted := List.pairwise_mergeSort startsBy_trans startsBy_total ds
  rw [sortByPosition]
  simpa using hsorted

/-! ## walks -/

/-- A declaration and all inside it, each before what is nested in it. -/
def walk (d : Declaration) : List Declaration :=
  d :: d.nested.attach.flatMap fun ⟨c, h⟩ =>
    have := sizeOf_lt_of_mem_nested h
    walk c
  termination_by sizeOf d

theorem walk_eq (d : Declaration) : walk d = d :: d.nested.flatMap walk := by
  rw [walk, List.flatMap_subtype (g := walk) (fun _ _ => rfl), List.unattach_attach]

/-- The declarations of a scope in source order, each with all inside it. -/
def walkAll (ds : List Declaration) : List Declaration := (inSourceOrder ds).flatMap walk

theorem preorderOfAll_eq (ds : List Declaration) : preorderOfAll ds = ds.flatMap preorder := by
  induction ds with
  | nil => rfl
  | cons d ds ih => rw [preorderOfAll, ih, List.flatMap_cons]

theorem preorderOfScopes_eq (ss : List Scope) :
    preorderOfScopes ss = (ss.flatMap (·.declarations)).flatMap preorder := by
  induction ss with
  | nil => rfl
  | cons s ss ih =>
    obtain ⟨h, ds⟩ := s
    rw [preorderOfScopes, ih, preorderOfAll_eq, List.flatMap_cons, List.flatMap_append]
    rfl

theorem preorder_eq (d : Declaration) :
    preorder d = d :: (d.scopes.flatMap (·.declarations)).flatMap preorder := by
  obtain ⟨f, ss⟩ := d
  rw [preorder, preorderOfScopes_eq]
  rfl

/-- A declaration opens at most one scope of members. -/
def IsPlain (d : Declaration) : Prop := (d.scopes.filter (·.isMembers)).length ≤ 1

/-- What is nested in a plain declaration is what its scopes hold. -/
theorem IsPlain.nested_perm {d : Declaration} (h : d.IsPlain) :
    d.nested.Perm (d.scopes.flatMap (·.declarations)) := by
  have hmembers : (d.members?.getD []) =
      (d.scopes.filter (·.isMembers)).flatMap (·.declarations) := by
    rw [members?, ← List.head?_filter]
    unfold IsPlain at h
    generalize d.scopes.filter (·.isMembers) = ms at h ⊢
    cases ms with
    | nil => rfl
    | cons s r =>
      cases r with
      | nil => simp
      | cons t r => simp at h
  have hsplit : ((d.scopes.filter (·.isMembers)) ++ d.branches).Perm d.scopes :=
    List.filter_append_perm _ _
  refine .trans ?_ (hsplit.flatMap_right _)
  rw [nested, List.flatMap_append, ← hmembers]
  refine (inSourceOrder_perm _).append ?_
  exact List.Perm.flatMap_left _ fun s _ => inSourceOrder_perm _

/-- A walk through a plain declaration, and plain ones below it, meets what the forest holds. -/
theorem walk_perm (d : Declaration) (h : ∀ e ∈ d.preorder, e.IsPlain) :
    (walk d).Perm (preorder d) := by
  induction hsize : sizeOf d using Nat.strongRecOn generalizing d with
  | ind m ih =>
    subst hsize
    have hplain : d.IsPlain := h d (by rw [preorder_eq]; exact List.mem_cons_self)
    rw [walk_eq, preorder_eq]
    refine .cons d ?_
    refine .trans ?_ (hplain.nested_perm.flatMap_right preorder)
    refine List.Perm.flatMap_left _ fun c hc => ih _ (sizeOf_lt_of_mem_nested hc) c ?_ rfl
    intro e he
    refine h e ?_
    rw [preorder_eq, List.mem_cons, List.mem_flatMap]
    exact .inr ⟨c, hplain.nested_perm.mem_iff.1 hc, he⟩

/-- A walk through plain declarations meets what the forest holds. -/
theorem walkAll_perm (ds : List Declaration) (h : ∀ e ∈ preorderOfAll ds, e.IsPlain) :
    (walkAll ds).Perm (preorderOfAll ds) := by
  rw [preorderOfAll_eq] at h ⊢
  refine .trans ?_ ((inSourceOrder_perm ds).flatMap_right preorder)
  refine List.Perm.flatMap_left _ fun d hd => walk_perm d fun e he => h e ?_
  rw [List.mem_flatMap]
  exact ⟨d, (inSourceOrder_perm ds).mem_iff.1 hd, he⟩

/-! ## collected declarations -/

/-- A node that is not a statement of variables or cases makes one declaration. -/
theorem allOfNode_eq_singleton {k : DeclarationKind} (hv : k ≠ .variable) (he : k ≠ .enumCase)
    (o : Option DeclarationKind) (node : Located) :
    Facts.allOfNode o k node = [Facts.ofNode o k node] := by
  cases k <;> first | rfl | contradiction

theorem kind_of_mem_allOfNode {owner : Option DeclarationKind} {k : DeclarationKind}
    {node : Located} {f : Facts} (h : f ∈ Facts.allOfNode owner k node) : f.kind = k := by
  by_cases hvariable : k = .variable
  · subst hvariable
    simp only [Facts.allOfNode, Facts.ofBindings] at h
    split at h
    · cases h
    · obtain ⟨binding, -, rfl⟩ := List.mem_map.1 h
      rfl
  · by_cases hcase : k = .enumCase
    · subst hcase
      obtain ⟨element, -, rfl⟩ := List.mem_map.1 h
      rfl
    · rw [allOfNode_eq_singleton hvariable hcase] at h
      obtain rfl := List.mem_singleton.1 h
      rfl

theorem branchScopes_eq (c : Config) (o : Option DeclarationKind) (node : Located) :
    branchScopes o node (fun o b _ => collect c o b) =
      (node.childrenWhere (Tree.isNodeOf .ifConfigClause)).map fun clause =>
        .mk (.branch clause.tree.keyword (Facts.condition? clause.tree) clause.range)
          (collect c o clause) := by
  rw [branchScopes, List.map_subtype (g := fun clause : Located =>
    .mk (.branch clause.tree.keyword (Facts.condition? clause.tree) clause.range)
      (collect c o clause)) (fun _ _ => rfl)]
  simp only [List.unattach_filter, List.unattach_attach, Located.childrenWhere]

theorem memberScopes_eq (c : Config) (k : DeclarationKind) (node : Located) :
    memberScopes c k node (fun o b _ => collect c o b) =
      (((c.block? k).bind fun b => node.child? (Tree.isNodeOf b)).map fun block =>
        .mk .members (collect c (some k) block)).toList := by
  unfold memberScopes
  cases c.block? k with
  | none => rfl
  | some b =>
    dsimp only [Option.bind_some]
    split
    · next h => rw [h]; rfl
    · next block h => rw [h]; rfl

end SwiftOutline.Declaration

import SwiftOutline.Parse
import SwiftOutline.Proofs.Walk

/-!
# SwiftOutline.Proofs.Pruned

A configuration leaves declarations out, and changes nothing else.

* `Declaration.pruned` — a declaration without what a configuration leaves out: declarations of
  disabled kinds with all below them, and the members of functions, initializers and deinitializers,
  if their bodies are skipped;
* `collect_eq_prunedAll` — collecting under a configuration is collecting everything and pruning;
* `inSourceOrder_prunedAll` — pruning a scope keeps the order of what is left;
* `collectFile_eq_prunedAll` — what this means for a source file.
-/

namespace SwiftOutline.Declaration

section

variable (c : Config)

mutual

/-- A declaration without what a configuration leaves out; nothing is left of a disabled kind. -/
def pruned : Declaration → List Declaration
  | mk f ss =>
    if f.kind ∈ c.disabled then []
    else if c.skipsFunctionBodies ∧ f.kind ∈ [.function, .initializer, .deinitializer] then
      [mk f []]
    else [mk f (prunedScopes ss)]

/-- Scopes without what a configuration leaves out. -/
def prunedScopes : List Scope → List Scope
  | [] => []
  | .mk h ds :: ss => .mk h (prunedAll ds) :: prunedScopes ss

/-- Declarations without what a configuration leaves out. -/
def prunedAll : List Declaration → List Declaration
  | [] => []
  | d :: ds => pruned d ++ prunedAll ds

end

/-- Enabled kinds are those that are not disabled; those with a body of statements are functions,
initializers and deinitializers. -/
theorem pruned_mk (f : Facts) (ss : List Scope) :
    pruned c (mk f ss) =
      if c.isEnabled f.kind then
        [mk f (if c.skipsFunctionBodies && f.kind.hasCode then [] else prunedScopes c ss)]
      else [] := by
  have henabled : c.isEnabled f.kind = true ↔ f.kind ∉ c.disabled := by simp [Config.isEnabled]
  have hcode : f.kind.hasCode = true ↔
      f.kind ∈ [DeclarationKind.function, .initializer, .deinitializer] := by
    cases f.kind <;> decide
  have hskip : (c.skipsFunctionBodies && f.kind.hasCode) = true ↔
      c.skipsFunctionBodies ∧ f.kind ∈ [.function, .initializer, .deinitializer] := by
    rw [Bool.and_eq_true, hcode]
  simp only [pruned, henabled, hskip, ite_not]
  split
  · rfl
  · split <;> rfl

theorem prunedAll_eq (ds : List Declaration) : prunedAll c ds = ds.flatMap (pruned c) := by
  induction ds with
  | nil => rfl
  | cons d ds ih => rw [prunedAll, ih, List.flatMap_cons]

theorem prunedScopes_eq (ss : List Scope) :
    prunedScopes c ss = ss.map fun s => .mk s.head (prunedAll c s.declarations) := by
  induction ss with
  | nil => rfl
  | cons s ss ih =>
    obtain ⟨h, ds⟩ := s
    rw [prunedScopes, ih, List.map_cons]
    rfl

/-! ## what is left -/

/-- Pruning leaves a declaration with the same facts, or nothing. -/
theorem pruned_cases (d : Declaration) :
    (pruned c d = [] ∧ d.kind ∈ c.disabled) ∨
      (∃ ss, pruned c d = [mk d.facts ss]) ∧ d.kind ∉ c.disabled := by
  obtain ⟨f, ss⟩ := d
  rw [pruned]
  by_cases h : f.kind ∈ c.disabled
  · rw [if_pos h]
    exact .inl ⟨rfl, h⟩
  · rw [if_neg h, ← apply_ite fun ss => [mk f ss]]
    exact .inr ⟨⟨_, rfl⟩, h⟩

mutual

/-- What is left of a declaration has the facts that it had. -/
theorem facts_pruned_sublist (d : Declaration) :
    ((preorderOfAll (pruned c d)).map (·.facts)).Sublist ((preorder d).map (·.facts)) := by
  cases d with
  | mk f ss =>
    have hss := facts_prunedScopes_sublist ss
    rw [pruned_mk]
    by_cases h : c.isEnabled f.kind = true
    · by_cases hskip : (c.skipsFunctionBodies && f.kind.hasCode) = true
      · simp [h, hskip, preorderOfAll, preorder, preorderOfScopes, facts]
      · simpa [h, hskip, preorderOfAll, preorder, facts] using hss
    · simp [h, preorderOfAll]

theorem facts_prunedScopes_sublist (ss : List Scope) :
    ((preorderOfScopes (prunedScopes c ss)).map (·.facts)).Sublist
      ((preorderOfScopes ss).map (·.facts)) := by
  cases ss with
  | nil => exact .refl _
  | cons s ss =>
    cases s with
    | mk h ds =>
      have hds := facts_prunedAll_sublist ds
      have hss := facts_prunedScopes_sublist ss
      rw [prunedScopes, preorderOfScopes, preorderOfScopes, List.map_append, List.map_append]
      exact hds.append hss

theorem facts_prunedAll_sublist (ds : List Declaration) :
    ((preorderOfAll (prunedAll c ds)).map (·.facts)).Sublist
      ((preorderOfAll ds).map (·.facts)) := by
  cases ds with
  | nil => exact .refl _
  | cons d ds =>
    have hd := facts_pruned_sublist d
    have hds := facts_prunedAll_sublist ds
    have happend : preorderOfAll (pruned c d ++ prunedAll c ds) =
        preorderOfAll (pruned c d) ++ preorderOfAll (prunedAll c ds) := by
      simp only [preorderOfAll_eq, List.flatMap_append]
    rw [prunedAll, happend, preorderOfAll, List.map_append, List.map_append]
    exact hd.append hds

end

/-! ## source order -/

theorem prunedAll_append (ds es : List Declaration) :
    prunedAll c (ds ++ es) = prunedAll c ds ++ prunedAll c es := by
  simp only [prunedAll_eq, List.flatMap_append]

theorem mem_prunedAll {ds : List Declaration} {e : Declaration} (h : e ∈ prunedAll c ds) :
    ∃ d ∈ ds, e.facts = d.facts := by
  rw [prunedAll_eq, List.mem_flatMap] at h
  obtain ⟨d, hd, he⟩ := h
  obtain ⟨hnil, -⟩ | ⟨⟨ss, hone⟩, -⟩ := pruned_cases c d
  · rw [hnil] at he
    cases he
  · rw [hone] at he
    obtain rfl := List.mem_singleton.1 he
    exact ⟨d, hd, rfl⟩

theorem ofKind_prunedAll (k : DeclarationKind) (ds : List Declaration) :
    ofKind k (prunedAll c ds) = prunedAll c (ofKind k ds) := by
  induction ds with
  | nil => rfl
  | cons d ds ih =>
    have hcons : ofKind k (d :: ds) = (if d.kind = k then [d] else []) ++ ofKind k ds := by
      by_cases hk : d.kind = k <;> simp [ofKind, hk]
    have hhead : ofKind k (pruned c d) = prunedAll c (if d.kind = k then [d] else []) := by
      obtain ⟨hnil, -⟩ | ⟨⟨ss, hone⟩, -⟩ := pruned_cases c d
      · by_cases hk : d.kind = k <;> simp [ofKind, hnil, hk, prunedAll]
      · have hkind : kind (mk d.facts ss) = d.kind := rfl
        by_cases hk : d.kind = k <;> simp [ofKind, hone, hk, hkind, prunedAll]
    have happend : ofKind k (pruned c d ++ prunedAll c ds) =
        ofKind k (pruned c d) ++ ofKind k (prunedAll c ds) := List.filter_append _ _
    rw [prunedAll, happend, hhead, ih, hcons, prunedAll_append]

theorem grouped_prunedAll (ds : List Declaration) :
    grouped (prunedAll c ds) = prunedAll c (grouped ds) := by
  rw [grouped, grouped, prunedAll_eq c (List.flatMap _ _), List.flatMap_assoc]
  refine List.flatMap_congr fun k _ => ?_
  rw [ofKind_prunedAll, prunedAll_eq]

/-- What sorting puts before the first of some declarations starts before it, and what it puts
behind starts there or later. -/
theorem sortByPosition_cons (d : Declaration) (ds : List Declaration) :
    ∃ before behind, sortByPosition (d :: ds) = before ++ d :: behind ∧
      sortByPosition ds = before ++ behind ∧ (∀ e ∈ before, e.position < d.position) ∧
      ∀ e ∈ behind, d.position ≤ e.position := by
  obtain ⟨before, behind, hcons, hds, hbefore⟩ :=
    List.mergeSort_cons startsBy_trans startsBy_total d ds
  have hsorted := pairwise_sortByPosition (d :: ds)
  rw [sortByPosition, hcons, List.pairwise_append, List.pairwise_cons] at hsorted
  refine ⟨before, behind, hcons, hds, fun e he => ?_, fun e he => ?_⟩
  · simpa using hbefore e he
  · exact hsorted.2.1.1 e he

/-- Sorting and pruning may change places: what is left keeps its positions. -/
theorem sortByPosition_prunedAll (ds : List Declaration) :
    sortByPosition (prunedAll c ds) = prunedAll c (sortByPosition ds) := by
  induction ds with
  | nil => simp [prunedAll, sortByPosition]
  | cons d ds ih =>
    obtain ⟨before, behind, hcons, hds, hbefore, hbehind⟩ := sortByPosition_cons d ds
    rw [hds] at ih
    rw [hcons, prunedAll_append, prunedAll, prunedAll]
    obtain ⟨hnil, -⟩ | ⟨⟨ss, hone⟩, -⟩ := pruned_cases c d
    · rw [hnil, List.nil_append, List.nil_append, ih, prunedAll_append]
    · obtain ⟨before', behind', hcons', hds', hbefore', hbehind'⟩ :=
        sortByPosition_cons (mk d.facts ss) (prunedAll c ds)
      rw [hone, List.singleton_append, List.singleton_append, hcons']
      have hposition : position (mk d.facts ss) = d.position := rfl
      rw [hposition] at hbefore' hbehind'
      rw [ih, prunedAll_append] at hds'
      -- Both ways the list is cut where positions reach that of the first declaration.
      have hcut {xs ys : List Declaration} (hxs : ∀ e ∈ xs, e.position < d.position)
          (hys : ∀ e ∈ ys, d.position ≤ e.position) :
          (xs ++ ys).filter (fun e => decide (e.position < d.position)) = xs := by
        rw [List.filter_append, List.filter_eq_self.2 (by simpa using hxs),
          List.filter_eq_nil_iff.2 (by simpa using hys), List.append_nil]
      have hleft : ∀ e ∈ prunedAll c before, e.position < d.position := by
        intro e he
        obtain ⟨f, hf, hfacts⟩ := mem_prunedAll c he
        simpa [position, hfacts] using hbefore f hf
      have hright : ∀ e ∈ prunedAll c behind, d.position ≤ e.position := by
        intro e he
        obtain ⟨f, hf, hfacts⟩ := mem_prunedAll c he
        simpa [position, hfacts] using hbehind f hf
      have hbefores : before' = prunedAll c before := by
        rw [← hcut hbefore' hbehind', ← hds', hcut hleft hright]
      rw [hbefores] at hds' ⊢
      rw [List.append_cancel_left hds']

/-- Pruning a scope keeps the order of what is left. -/
theorem inSourceOrder_prunedAll (ds : List Declaration) :
    inSourceOrder (prunedAll c ds) = prunedAll c (inSourceOrder ds) := by
  rw [inSourceOrder, inSourceOrder, grouped_prunedAll, sortByPosition_prunedAll]

/-! ## collecting -/

/-- The scopes that a declaration opens under a configuration, if the like holds of what is
collected in them. -/
theorem scopesOf_eq_prunedScopes (owner : Option DeclarationKind) (k : DeclarationKind)
    (node : Located)
    (hinner : ∀ o, ∀ block ∈ node.children,
      collect c o block = prunedAll c (collect .default o block)) :
    scopesOf c owner k node (fun o block _ => collect c o block) =
      if c.skipsFunctionBodies && k.hasCode then []
      else prunedScopes c
        (scopesOf .default owner k node fun o block _ => collect .default o block) := by
  rw [scopesOf, scopesOf]
  -- a conditional block has no code of its own, so its branches are all kept
  by_cases hblock : k = .conditionalBlock
  · subst hblock
    have hcode : (c.skipsFunctionBodies && DeclarationKind.conditionalBlock.hasCode) = false := by
      simp [DeclarationKind.hasCode, DeclarationKind.block?]
    rw [if_pos rfl, if_pos rfl, hcode, if_neg Bool.false_ne_true, branchScopes_eq,
      branchScopes_eq, prunedScopes_eq, List.map_map]
    refine List.map_congr_left fun clause hclause => ?_
    rw [hinner _ clause (List.mem_filter.1 hclause).1]
    rfl
  · rw [if_neg hblock, if_neg hblock, memberScopes_eq, memberScopes_eq]
    by_cases hskip : (c.skipsFunctionBodies && k.hasCode) = true
    · simp [Config.block?, hskip]
    · have hkind : c.block? k = Config.block? .default k := by
        simp [Config.block?, hskip, Config.default]
      rw [if_neg hskip, hkind, prunedScopes_eq]
      cases (Config.block? .default k) with
      | none => rfl
      | some b =>
        rw [Option.bind_some]
        cases hfind : node.child? (Tree.isNodeOf b) with
        | none => rfl
        | some block =>
          have hmem := List.mem_of_find?_eq_some hfind
          simp only [Option.map_some, Option.toList_some, List.map_singleton, hinner _ block hmem]
          rfl

/-- Collecting the declarations of a scope under a configuration is collecting all of them and
leaving out what it leaves out. -/
theorem collect_eq_prunedAll (owner : Option DeclarationKind) (scope : Located) :
    collect c owner scope = prunedAll c (collect .default owner scope) := by
  induction hsize : sizeOf scope.tree using Nat.strongRecOn generalizing scope owner with
  | ind size ih =>
    subst hsize
    rw [collect_eq, collect_eq, prunedAll_eq, List.flatMap_assoc]
    refine List.flatMap_congr fun child hchild => ?_
    rw [ofNode, ofNode]
    cases DeclarationKind.ofNode? child.kind with
    | none => rfl
    | some k =>
      have hinner (o : Option DeclarationKind) (block : Located) (hblock : block ∈ child.children) :
          collect c o block = prunedAll c (collect .default o block) :=
        ih _ (Nat.lt_trans (Located.sizeOf_tree_lt_of_mem hblock)
          (Located.sizeOf_tree_lt_of_mem hchild)) o block rfl
      have hscopes := scopesOf_eq_prunedScopes c owner k child hinner
      have hdefault : Config.isEnabled .default k = true := rfl
      dsimp only
      rw [hscopes, hdefault, Bool.and_true]
      by_cases hnode : child.tree.isNode = true
      · rw [hnode, Bool.true_and, if_pos rfl, List.flatMap_map]
        have hone : ∀ f ∈ Facts.allOfNode owner k child, ∀ ss, pruned c (mk f ss) =
            if c.isEnabled k then
              [mk f (if c.skipsFunctionBodies && k.hasCode then [] else prunedScopes c ss)]
            else [] := by
          intro f hf ss
          rw [pruned_mk, kind_of_mem_allOfNode hf]
        rw [List.flatMap_congr fun f hf => hone f hf _]
        by_cases henabled : c.isEnabled k = true
        · simp only [henabled, if_true]
          exact List.map_eq_flatMap
        · simp [henabled]
      · simp [hnode]

end

/-- The declarations of a file under a configuration are all its declarations without those of a
disabled kind, without what is below those, and without the members of functions, initializers
and deinitializers if bodies are skipped. What is left in a scope keeps its order, and all that is
left has the facts that it had. -/
theorem collectFile_eq_prunedAll (c : Config) (file : Tree) :
    collectFile c file = prunedAll c (collectFile .default file) ∧
      (∀ ds, inSourceOrder (prunedAll c ds) = prunedAll c (inSourceOrder ds)) ∧
      ((preorderOfAll (collectFile c file)).map (·.facts)).Sublist
        ((preorderOfAll (collectFile .default file)).map (·.facts)) := by
  have hprune : collectFile c file = prunedAll c (collectFile .default file) :=
    collect_eq_prunedAll c none ⟨file, 0⟩
  rw [hprune]
  exact ⟨rfl, inSourceOrder_prunedAll c, facts_prunedAll_sublist c _⟩

/-- Without structures and without what is declared in bodies, two of the five declarations of a
file are left: the enumeration in a structure goes with it. -/
theorem collectFile_eq_prunedAll_disabled :
    let file := (parse ("struct S \x7b enum E \x7b\x7d \x7d\n" ++
      "func f() \x7b var x = 1 \x7d\nclass C \x7b\x7d")).tree
    let c := (Config.disable .default .structType).skipFunctionBodies
    (preorderOfAll (collectFile .default file)).map (·.name) = ["S", "E", "f", "x", "C"] ∧
      (preorderOfAll (collectFile c file)).map (·.name) = ["f", "C"] := by
  intro file c
  obtain ⟨hpruned, -, -⟩ := collectFile_eq_prunedAll c file
  rw [hpruned]
  decide +kernel

end SwiftOutline.Declaration

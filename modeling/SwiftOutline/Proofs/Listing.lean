import SwiftOutline.Proofs.Trail

/-!
# SwiftOutline.Proofs.Listing

Forests of declarations written out, and which declaration of a name is found.

* `Declaration.Lists` — a forest is written out: each declaration, then what is nested in it, then
  the declarations behind it; `lists_iff` — in one way only;
* `nestedAt` — what is nested in a declaration, told by its node: what its block declares or, for a
  conditional block, what each of its branches declares, one branch after the other;
  `nested_mk_scopesOf` — so it is with every declaration that is read from a node;
* `findNamed?_first_listed` — looking for a name finds the first declaration of that name in the
  listing of a forest, and finds none exactly if no declaration there has the name.
-/

namespace SwiftOutline.Declaration

/-! ## listings -/

/-- A forest is written out in preorder: each declaration is followed by the listing of what is
nested in it, and that by the listing of the declarations behind it. -/
inductive Lists : List Declaration → List Declaration → Prop where
  | nil : Lists [] []
  | cons {d : Declaration} {ds inner others : List Declaration} :
    Lists d.nested inner → Lists ds others → Lists (d :: ds) (d :: inner ++ others)

theorem lists_of_forall {ds : List Declaration}
    (h : ∀ d ∈ ds, Lists d.nested (d.nested.flatMap walk)) : Lists ds (ds.flatMap walk) := by
  induction ds with
  | nil => exact .nil
  | cons d ds ih =>
    rw [List.flatMap_cons, walk_eq]
    exact .cons (h d List.mem_cons_self) (ih fun e he => h e (List.mem_cons_of_mem d he))

theorem lists_nested (d : Declaration) : Lists d.nested (d.nested.flatMap walk) := by
  induction hsize : sizeOf d using Nat.strongRecOn generalizing d with
  | ind m ih =>
    subst hsize
    exact lists_of_forall fun c hc => ih _ (sizeOf_lt_of_mem_nested hc) c rfl

/-- A forest is written out in one way only: by going through it in source order. -/
theorem lists_iff {ds listing : List Declaration} :
    Lists ds listing ↔ listing = ds.flatMap walk := by
  constructor
  · intro h
    induction h with
    | nil => rfl
    | cons _ _ ihinner ihothers => rw [List.flatMap_cons, walk_eq, ihinner, ihothers]
  · rintro rfl
    exact lists_of_forall fun d _ => lists_nested d

/-! ## what is nested -/

variable (c : Config) (o : Option DeclarationKind)

/-- What is nested in a declaration of a kind, told by its node. A conditional block is a scope of
its own for each of its branches; any other declaration has its block, if it has one. -/
def nestedAt (k : DeclarationKind) (node : Located) : List Declaration :=
  if k = .conditionalBlock then
    (node.childrenWhere (Tree.isNodeOf .ifConfigClause)).flatMap fun clause =>
      inSourceOrder (collect c o clause)
  else
    ((c.block? k).bind fun b => node.child? (Tree.isNodeOf b)).elim [] fun block =>
      inSourceOrder (collect c (some k) block)

/-- So it is with every declaration that is read from a node. -/
theorem nested_mk_scopesOf (k : DeclarationKind) (node : Located) (f : Facts) :
    (mk f (scopesOf c o k node fun o block _ => collect c o block)).nested =
      nestedAt c o k node := by
  have hnested (ss : List Scope) : (mk f ss).nested =
      inSourceOrder (((ss.find? (·.isMembers)).map (·.declarations)).getD []) ++
        (ss.filter (!·.isMembers)).flatMap fun branch => inSourceOrder branch.declarations := rfl
  have hempty : inSourceOrder [] = [] := List.perm_nil.1 (inSourceOrder_perm [])
  rw [hnested, scopesOf, nestedAt]
  by_cases hk : k = .conditionalBlock
  · -- all scopes are branches
    rw [if_pos hk, if_pos hk, branchScopes_eq, List.find?_map, List.filter_map]
    have hbranch : ∀ clause ∈ node.childrenWhere (Tree.isNodeOf .ifConfigClause),
        Scope.isMembers (.mk (.branch clause.tree.keyword (Facts.condition? clause.tree)
          clause.range) (collect c o clause)) = false := fun clause _ => rfl
    rw [List.find?_eq_none.2 (by simpa using hbranch),
      List.filter_eq_self.2 (by simpa using hbranch), List.flatMap_map]
    simp [hempty, Scope.declarations]
  · -- there is at most one scope, of members
    rw [if_neg hk, if_neg hk, memberScopes_eq]
    cases (c.block? k).bind fun b => node.child? (Tree.isNodeOf b) with
    | none => exact congrArg (· ++ []) hempty
    | some block => exact List.append_nil _

/-- What is collected in a scope comes from its children, with what is nested in it. -/
theorem exists_nested_eq_of_mem_collect {scope : Located} {d : Declaration}
    (h : d ∈ collect c o scope) :
    ∃ child ∈ scope.children, child.tree.isNodeOf d.kind.node = true ∧
      d.nested = nestedAt c o d.kind child := by
  rw [collect_eq_flatMap, List.mem_flatMap] at h
  obtain ⟨child, hchild, hd⟩ := h
  refine ⟨child, hchild, (of_mem_contributed c o hd).1, ?_⟩
  rw [contributed_eq] at hd
  split at hd
  · cases hd
  · split at hd
    · obtain ⟨f, hf, rfl⟩ := List.mem_map.1 hd
      rw [nested_mk_scopesOf, ← kind_of_mem_allOfNode hf]
      rfl
    · cases hd

/-! ## names -/

/-- The first of some listed declarations that has a name. -/
theorem find?_name_eq_some_iff {name : String} {listing : List Declaration} {d : Declaration} :
    listing.find? (·.name == name) = some d ↔
      ∃ before after, listing = before ++ d :: after ∧ d.name = name ∧
        ∀ e ∈ before, e.name ≠ name := by
  rw [List.find?_eq_some_iff_append]
  simp only [beq_iff_eq, Bool.not_eq_true', beq_eq_false_iff_ne]
  constructor
  · rintro ⟨hname, before, after, hlisting, hbefore⟩
    exact ⟨before, after, hlisting, hname, hbefore⟩
  · rintro ⟨before, after, hlisting, hname, hbefore⟩
    exact ⟨hname, before, after, hlisting, hbefore⟩

/-- Looking for a name in a forest finds the first declaration in its listing that has the name,
and finds none exactly if no declaration there has it. A forest has one listing, in preorder, and
what is nested in a declaration there comes from its node: what its block declares or, for a
conditional block, what its branches declare, branch by branch. Each block and branch is in source
order, that is sorted by position. -/
theorem findNamed?_first_listed :
    (∀ name ds, ∃ listing, (∀ l, Lists ds l ↔ l = listing) ∧
      (∀ d, findNamed? name ds = some d ↔
        ∃ before after, listing = before ++ d :: after ∧ d.name = name ∧
          ∀ e ∈ before, e.name ≠ name) ∧
      (findNamed? name ds = none ↔ ∀ d ∈ listing, d.name ≠ name)) ∧
    (∀ c o scope, ∀ d ∈ collect c o scope, ∃ child ∈ scope.children,
      child.tree.isNodeOf d.kind.node = true ∧ d.nested = nestedAt c o d.kind child) ∧
    (∀ c o k node, (ofDeclarationNode c o k node).nested = nestedAt c o k node) ∧
    ∀ ds, (inSourceOrder ds).Perm ds ∧
      (inSourceOrder ds).Pairwise fun d e => d.position ≤ e.position := by
  refine ⟨fun name ds => ⟨ds.flatMap walk, fun l => lists_iff, fun d => ?_, ?_⟩,
    fun c o scope d hd => exists_nested_eq_of_mem_collect c o hd,
    fun c o k node => nested_mk_scopesOf c o k node _,
    fun ds => ⟨inSourceOrder_perm ds, pairwise_sortByPosition _⟩⟩
  · rw [findNamed?_eq_find?, find?_name_eq_some_iff]
  · rw [findNamed?_eq_find?, List.find?_eq_none]
    simp only [beq_iff_eq, ne_eq]

/-- A conditional block whose first branch is empty: what is nested in it is what the branches of
its node declare. -/
theorem findNamed?_first_listed_branch :
    let file : Located := ⟨(parse "#if a\n#elseif b\nclass X \x7b\x7d\n#endif").tree, 0⟩
    ∃ d ∈ collect .default none file, d.kind = .conditionalBlock ∧
      ∃ child ∈ file.children, d.nested = nestedAt .default none .conditionalBlock child := by
  intro file
  have hany : ((collect .default none file).any (·.kind == .conditionalBlock)) = true := by
    decide +kernel
  obtain ⟨d, hd, hkind⟩ := List.any_eq_true.1 hany
  have hkind : d.kind = .conditionalBlock := beq_iff_eq.1 hkind
  obtain ⟨child, hchild, -, hnested⟩ := findNamed?_first_listed.2.1 .default none file d hd
  exact ⟨d, hd, hkind, child, hchild, hkind ▸ hnested⟩

end SwiftOutline.Declaration

import SwiftOutline.Proofs.Ordered

/-!
# SwiftOutline.Proofs.Trail

What a path leads to.

* `Declaration.descendants`, `Declaration.inside` — all that is below a declaration: as the forest
  holds it, and in source order;
* `IsTrail` — declarations that the names of a path name, each below the one before it;
* `Leads` — a trail whose declarations, but for the last, are each the first of their name;
* `findNamed?_eq_find?` — looking for a name finds the first declaration of that name in source
  order;
* `atPath?_isSome_iff_leads` — a path of a source file finds a declaration exactly if there is a
  trail that leads there, and then it finds the end of a trail.

Each name is settled before the next one is looked for. So what stands in an extension of a type
that is declared before it is not found by the name of that type: the type is the first of that
name, and nothing is looked for in the extension.
-/

namespace SwiftOutline.Declaration

/-! ## forests -/

/-- All that is below a declaration, as the forest holds it. -/
def descendants (d : Declaration) : List Declaration := preorderOfScopes d.scopes

/-- All that is below a declaration, in source order. -/
def inside (d : Declaration) : List Declaration := d.nested.flatMap walk

theorem preorder_eq_cons (d : Declaration) : preorder d = d :: d.descendants := by
  rw [preorder_eq, descendants, preorderOfScopes_eq]

theorem walk_eq_cons (d : Declaration) : walk d = d :: d.inside := walk_eq d

/-- What the forest holds from a declaration on, it holds from any that is above. -/
theorem preorder_subset {d e : Declaration} (h : e ∈ preorder d) : preorder e ⊆ preorder d := by
  induction hsize : sizeOf d using Nat.strongRecOn generalizing d with
  | ind m ih =>
    subst hsize
    have hd := preorder_eq d
    rw [hd, List.mem_cons, List.mem_flatMap] at h
    obtain rfl | ⟨c, hc, he⟩ := h
    · exact List.Subset.refl _
    · obtain ⟨s, hs, hcs⟩ := List.mem_flatMap.1 hc
      have hsub := ih _ (sizeOf_lt_of_mem_scope hs hcs) he rfl
      intro x hx
      rw [hd]
      exact List.mem_cons_of_mem _ (List.mem_flatMap.2 ⟨c, hc, hsub hx⟩)

theorem preorder_subset_descendants {d e : Declaration} (h : e ∈ d.descendants) :
    preorder e ⊆ d.descendants := by
  intro x hx
  rw [descendants, preorderOfScopes_eq] at h ⊢
  obtain ⟨c, hc, he⟩ := List.mem_flatMap.1 h
  exact List.mem_flatMap.2 ⟨c, hc, preorder_subset he hx⟩

theorem descendants_subset {d e : Declaration} (h : e ∈ d.descendants) :
    e.descendants ⊆ d.descendants := by
  intro x hx
  refine preorder_subset_descendants h ?_
  rw [preorder_eq_cons]
  exact List.mem_cons_of_mem _ hx

/-- All declarations from one on are plain. -/
def AllPlain (d : Declaration) : Prop := ∀ e ∈ preorder d, e.IsPlain

theorem AllPlain.of_mem_preorder {d e : Declaration} (h : d.AllPlain) (he : e ∈ preorder d) :
    e.AllPlain := fun x hx => h x (preorder_subset he hx)

theorem AllPlain.of_mem_descendants {d e : Declaration} (h : d.AllPlain) (he : e ∈ d.descendants) :
    e.AllPlain := by
  refine h.of_mem_preorder ?_
  rw [preorder_eq_cons]
  exact List.mem_cons_of_mem _ he

/-- Below plain declarations the forest holds what is listed in source order. -/
theorem AllPlain.mem_inside_iff {d e : Declaration} (h : d.AllPlain) :
    e ∈ d.inside ↔ e ∈ d.descendants := by
  have hperm := walk_perm d h
  rw [walk_eq_cons, preorder_eq_cons] at hperm
  exact (List.Perm.cons_inv hperm).mem_iff

theorem AllPlain.of_mem_inside {d e : Declaration} (h : d.AllPlain) (he : e ∈ d.inside) :
    e.AllPlain := h.of_mem_descendants (h.mem_inside_iff.1 he)

/-- What a list of listings has at some place, one of the listings has there. -/
theorem exists_of_flatMap_eq {f : Declaration → List Declaration}
    {ds before after : List Declaration} {e : Declaration}
    (h : ds.flatMap f = before ++ e :: after) :
    ∃ c ∈ ds, ∃ front back, f c = front ++ e :: back ∧ back <+: after := by
  induction ds generalizing before with
  | nil => simp at h
  | cons d ds ih =>
    rw [List.flatMap_cons, List.append_eq_append_iff] at h
    obtain ⟨middle, rfl, hrest⟩ | ⟨back, hd, hrest⟩ := h
    · obtain ⟨c, hc, hsplit⟩ := ih hrest
      exact ⟨c, List.mem_cons_of_mem _ hc, hsplit⟩
    · cases back with
      | nil =>
        have hstart : ds.flatMap f = [] ++ e :: after := hrest.symm
        obtain ⟨c, hc, hsplit⟩ := ih hstart
        exact ⟨c, List.mem_cons_of_mem _ hc, hsplit⟩
      | cons x back =>
        obtain ⟨rfl, hafter⟩ := List.cons.inj hrest
        exact ⟨d, List.mem_cons_self, before, back, hd, hafter ▸ List.prefix_append back _⟩

/-- Where a declaration is listed, what is inside it follows. -/
theorem inside_prefix_of_walk_eq {d e : Declaration} {before after : List Declaration}
    (h : walk d = before ++ e :: after) : e.inside <+: after := by
  induction hsize : sizeOf d using Nat.strongRecOn generalizing d before after with
  | ind m ih =>
    subst hsize
    rw [walk_eq_cons] at h
    cases before with
    | nil =>
      obtain ⟨rfl, rfl⟩ := List.cons.inj h
      exact List.prefix_refl _
    | cons x before =>
      obtain ⟨c, hc, front, back, hwalk, hback⟩ := exists_of_flatMap_eq (List.cons.inj h).2
      exact (ih _ (sizeOf_lt_of_mem_nested hc) hwalk rfl).trans hback

/-! ## names -/

/-- Declarations in which a name is looked for in source order are gone through in source order. -/
theorem findNamed?_eq_of_forall {name : String} {ds : List Declaration}
    (h : ∀ d ∈ ds, named? name d = (walk d).find? (·.name == name)) :
    findNamed? name ds = (ds.flatMap walk).find? (·.name == name) := by
  induction ds with
  | nil => rfl
  | cons d ds ih =>
    have htail := ih fun e he => h e (List.mem_cons_of_mem d he)
    rw [List.flatMap_cons, List.find?_append, ← h d List.mem_cons_self, ← htail]
    show (d :: ds).findSome? (named? name) = (named? name d).or (ds.findSome? (named? name))
    cases hd : named? name d <;> simp [hd]

theorem named?_eq_find? (name : String) (d : Declaration) :
    named? name d = (walk d).find? (·.name == name) := by
  induction hsize : sizeOf d using Nat.strongRecOn generalizing d with
  | ind m ih =>
    subst hsize
    have hinner : findNamed? name d.nested = (d.nested.flatMap walk).find? (·.name == name) :=
      findNamed?_eq_of_forall fun c hc => ih _ (sizeOf_lt_of_mem_nested hc) c rfl
    rw [named?_eq, walk_eq, List.find?_cons, ← hinner]
    by_cases hname : d.name = name
    · simp [hname]
    · rw [if_neg hname, beq_false_of_ne hname]
      rfl

/-- Looking for a name finds the first declaration of that name in source order. -/
theorem findNamed?_eq_find? (name : String) (ds : List Declaration) :
    findNamed? name ds = (ds.flatMap walk).find? (·.name == name) :=
  findNamed?_eq_of_forall fun d _ => named?_eq_find? name d

/-- A name is found if a declaration that is listed has it. -/
theorem exists_findNamed? {ds : List Declaration} {d : Declaration} (h : d ∈ ds.flatMap walk) :
    ∃ e, findNamed? d.name ds = some e := by
  rw [findNamed?_eq_find?, ← Option.isSome_iff_exists, List.find?_isSome]
  exact ⟨d, h, beq_self_eq_true _⟩

/-- A name that is the last of a path finds what is listed under it. -/
theorem isSome_of_mem {ds : List Declaration} {d : Declaration} (h : d ∈ ds.flatMap walk) :
    ((findNamed? d.name ds).bind (·.follow? [])).isSome = true := by
  obtain ⟨e, he⟩ := exists_findNamed? h
  rw [he]
  rfl

/-- A declaration that is found for a name is listed and has the name. -/
theorem of_findNamed? {name : String} {ds : List Declaration} {d : Declaration}
    (h : findNamed? name ds = some d) : d ∈ ds.flatMap walk ∧ d.name = name := by
  rw [findNamed?_eq_find?] at h
  exact ⟨List.mem_of_find?_eq_some h, by simpa using List.find?_some h⟩

/-! ## trails -/

/-- Declarations that the names of a path name in turn: the first of them is among some
declarations, each other one below the one before it. -/
def IsTrail (among : List Declaration) : List String → List Declaration → Prop
  | [], [] => True
  | name :: names, d :: ds => d ∈ among ∧ d.name = name ∧ IsTrail d.descendants names ds
  | _, _ => False

/-- Whether each of some declarations, but for the last, is the first of its name: in a list, and
then in what is inside the one before it. -/
def Leads (listed : List Declaration) : List Declaration → Prop
  | [] | [_] => True
  | d :: e :: ds => listed.find? (·.name == d.name) = some d ∧ Leads d.inside (e :: ds)

/-- Whether only declarations around it have the name of a declaration and are listed before it. -/
def IsVisible (listed : List Declaration) (d : Declaration) : Prop :=
  ∀ before after, listed = before ++ d :: after →
    ∀ e ∈ before, e.name = d.name → d ∈ e.descendants

theorem IsTrail.mono {as bs : List Declaration} (hsub : as ⊆ bs) {names : List String}
    {trail : List Declaration} (h : IsTrail as names trail) : IsTrail bs names trail := by
  cases names with
  | nil => cases trail <;> exact h
  | cons name names =>
    cases trail with
    | nil => exact h
    | cons d ds => exact ⟨hsub h.1, h.2⟩

theorem IsTrail.exists_cons {among : List Declaration} {name : String} {names : List String}
    {trail : List Declaration} (h : IsTrail among (name :: names) trail) :
    ∃ d ds, trail = d :: ds ∧ d ∈ among ∧ d.name = name ∧ IsTrail d.descendants names ds := by
  cases trail with
  | nil => exact h.elim
  | cons d ds => exact ⟨d, ds, rfl, h⟩

variable {name : String} {names : List String} {ds : List Declaration}

/-- What the names of a path find is the end of a trail that leads there. -/
theorem exists_trail_of_found {d : Declaration} (hplain : ∀ e ∈ ds.flatMap walk, e.AllPlain)
    (h : (findNamed? name ds).bind (·.follow? names) = some d) :
    ∃ trail, IsTrail (ds.flatMap walk) (name :: names) trail ∧ Leads (ds.flatMap walk) trail ∧
      trail.getLast? = some d := by
  induction names generalizing name ds with
  | nil =>
    obtain ⟨e, he, hd⟩ := Option.bind_eq_some_iff.1 h
    obtain rfl := Option.some.inj hd
    obtain ⟨hmem, hname⟩ := of_findNamed? he
    exact ⟨[e], ⟨hmem, hname, trivial⟩, trivial, rfl⟩
  | cons next names ih =>
    obtain ⟨e, he, hd⟩ := Option.bind_eq_some_iff.1 h
    obtain ⟨hmem, rfl⟩ := of_findNamed? he
    have he' : e.AllPlain := hplain e hmem
    obtain ⟨trail, htrail, hleads, hlast⟩ := ih (fun x => he'.of_mem_inside) hd
    obtain ⟨f, fs, rfl, -⟩ := htrail.exists_cons
    rw [findNamed?_eq_find?] at he
    exact ⟨e :: f :: fs, ⟨hmem, rfl, htrail.mono fun x => he'.mem_inside_iff.1⟩, ⟨he, hleads⟩,
      hlast⟩

/-- The names of a path find something where a trail leads. -/
theorem isSome_of_leads {trail : List Declaration} (hplain : ∀ e ∈ ds.flatMap walk, e.AllPlain)
    (htrail : IsTrail (ds.flatMap walk) (name :: names) trail)
    (hleads : Leads (ds.flatMap walk) trail) :
    ((findNamed? name ds).bind (·.follow? names)).isSome = true := by
  induction names generalizing name ds trail with
  | nil =>
    obtain ⟨d, _, rfl, hmem, rfl, -⟩ := htrail.exists_cons
    exact isSome_of_mem hmem
  | cons next names ih =>
    obtain ⟨d, rest, rfl, hmem, rfl, hrest⟩ := htrail.exists_cons
    obtain ⟨e, es, rfl, -⟩ := hrest.exists_cons
    have hd : d.AllPlain := hplain d hmem
    rw [findNamed?_eq_find?, hleads.1, Option.bind_some]
    exact ih (fun x => hd.of_mem_inside) (hrest.mono fun x => hd.mem_inside_iff.2) hleads.2

/-- The names of a path find something where a trail of visible declarations goes. Each name finds
the declaration of the trail or one around it, so what follows on the trail is inside. -/
theorem isSome_of_visible {trail full before after : List Declaration}
    (hfull : full = before ++ (ds.flatMap walk ++ after))
    (hplain : ∀ e ∈ ds.flatMap walk, e.AllPlain)
    (htrail : IsTrail (ds.flatMap walk) (name :: names) trail)
    (hvisible : ∀ d ∈ trail.dropLast, IsVisible full d) :
    ((findNamed? name ds).bind (·.follow? names)).isSome = true := by
  induction names generalizing name ds trail before after with
  | nil =>
    obtain ⟨d, _, rfl, hmem, rfl, -⟩ := htrail.exists_cons
    exact isSome_of_mem hmem
  | cons next names ih =>
    obtain ⟨d, rest, rfl, hmem, rfl, hrest⟩ := htrail.exists_cons
    obtain ⟨f, fs, rfl, -⟩ := hrest.exists_cons
    obtain ⟨e, he⟩ := exists_findNamed? hmem
    have hfirst := he
    rw [findNamed?_eq_find?, List.find?_eq_some_iff_append] at hfirst
    obtain ⟨hname, front, back, hlisted, hfront⟩ := hfirst
    have hname : e.name = d.name := by simpa using hname
    -- what is inside `d` is inside `e`, the one that is found, since `d` is visible
    have hsub : d.descendants ⊆ e.descendants := by
      rw [hlisted, List.mem_append, List.mem_cons] at hmem
      obtain hd | rfl | hd := hmem
      · simpa using hfront d hd
      · exact List.Subset.refl _
      · obtain ⟨front', back', rfl⟩ := List.append_of_mem hd
        refine descendants_subset (hvisible d List.mem_cons_self (before ++ (front ++ e :: front'))
          (back' ++ after) ?_ e ?_ hname)
        · simp [hfull, hlisted]
        · simp
    obtain ⟨_, -, _, _, hwalk, hback⟩ := exists_of_flatMap_eq hlisted
    obtain ⟨back', rfl⟩ := (inside_prefix_of_walk_eq hwalk).trans hback
    have he' : e.AllPlain := hplain e (of_findNamed? he).1
    rw [he, Option.bind_some]
    have hfull' : full = (before ++ (front ++ [e])) ++
        (e.nested.flatMap walk ++ (back' ++ after)) := by
      simp [hfull, hlisted, inside]
    refine ih hfull' (fun x => he'.of_mem_inside) (hrest.mono fun x hx => ?_) fun x hx => ?_
    · exact he'.mem_inside_iff.2 (hsub hx)
    · exact hvisible x (List.mem_cons_of_mem _ hx)

/-! ## paths -/

theorem exists_namesOfPath (path : String) : ∃ name names, namesOfPath path = name :: names := by
  refine List.exists_cons_of_ne_nil fun h => ?_
  exact List.splitOn_ne_nil '.' path.toList (List.map_eq_nil_iff.1 h)

/-- A path that is no name is followed name by name. -/
theorem atPath?_eq_bind {path name : String} {names : List String} {ds : List Declaration}
    (hpath : ∀ d ∈ ds.flatMap walk, d.name ≠ path) (hnames : namesOfPath path = name :: names) :
    atPath? path ds = (findNamed? name ds).bind (·.follow? names) := by
  have hnone : findNamed? path ds = none := by
    rw [findNamed?_eq_find?, List.find?_eq_none]
    intro d hd
    simpa using hpath d hd
  rw [atPath?, hnone, Option.none_or, hnames]

/-- What is listed of a source file in source order is what its forest holds. -/
theorem mem_walkAll_iff (c : Config) (source : String) (d : Declaration) :
    d ∈ walkAll (Analysis.ofSource c source).declarations ↔
      d ∈ preorderOfAll (Analysis.ofSource c source).declarations :=
  (walkAll_perm _ (isPlain_of_mem_collect c none _)).mem_iff

theorem allPlain_of_mem_walkAll (c : Config) (source : String) :
    ∀ d ∈ walkAll (Analysis.ofSource c source).declarations, d.AllPlain := by
  intro d hd
  rw [mem_walkAll_iff, preorderOfAll_eq, List.mem_flatMap] at hd
  obtain ⟨top, htop, hd⟩ := hd
  have hplain : top.AllPlain := by
    intro e he
    refine isPlain_of_mem_collect c none ⟨(parse source).tree, 0⟩ e ?_
    show e ∈ preorderOfAll (Analysis.ofSource c source).declarations
    rw [preorderOfAll_eq]
    exact List.mem_flatMap.2 ⟨top, htop, he⟩
  exact hplain.of_mem_preorder hd

/-- Of a path that is the name of no declaration in a file, one name after the other is settled. So
the path finds a declaration exactly if a trail leads along it: declarations named by its names,
each below the one before it and, but for the last, the first of its name in source order. In
particular it finds one where a trail goes along it and no declaration of the trail, but for the
last, has one of its name listed before it that is not around it. What it finds is the end of a
trail. -/
theorem atPath?_isSome_iff_leads (c : Config) (source path : String)
    (hpath : ∀ d ∈ preorderOfAll (Analysis.ofSource c source).declarations, d.name ≠ path) :
    let a := Analysis.ofSource c source
    let file := preorderOfAll a.declarations
    let found := atPath? path a.topLevel
    (found.isSome = true ↔ ∃ trail, IsTrail file (namesOfPath path) trail ∧
        Leads (walkAll a.declarations) trail) ∧
      (∀ trail, IsTrail file (namesOfPath path) trail →
        (∀ d ∈ trail.dropLast, IsVisible (walkAll a.declarations) d) → found.isSome = true) ∧
      ∀ d, found = some d → ∃ trail, IsTrail file (namesOfPath path) trail ∧
        trail.getLast? = some d := by
  intro a file found
  obtain ⟨name, names, hnames⟩ := exists_namesOfPath path
  have hmem : ∀ d, d ∈ walkAll a.declarations ↔ d ∈ file := mem_walkAll_iff c source
  have hplain : ∀ d ∈ walkAll a.declarations, d.AllPlain := allPlain_of_mem_walkAll c source
  have hfound : found = (findNamed? name a.topLevel).bind (·.follow? names) :=
    atPath?_eq_bind (fun d hd => hpath d ((hmem d).1 hd)) hnames
  rw [hnames, hfound]
  refine ⟨⟨fun h => ?_, ?_⟩, ?_, ?_⟩
  · obtain ⟨d, hd⟩ := Option.isSome_iff_exists.1 h
    obtain ⟨trail, htrail, hleads, -⟩ := exists_trail_of_found hplain hd
    exact ⟨trail, htrail.mono fun x => (hmem x).1, hleads⟩
  · rintro ⟨trail, htrail, hleads⟩
    exact isSome_of_leads hplain (htrail.mono fun x => (hmem x).2) hleads
  · intro trail htrail hvisible
    have hfull : walkAll a.declarations = [] ++ (a.topLevel.flatMap walk ++ []) :=
      (List.append_nil _).symm
    exact isSome_of_visible hfull hplain (htrail.mono fun x => (hmem x).2) hvisible
  · intro d hd
    obtain ⟨trail, htrail, -, hlast⟩ := exists_trail_of_found hplain hd
    exact ⟨trail, htrail.mono fun x => (hmem x).1, hlast⟩

/-- The first declaration at the top of a file is the first of its name. -/
theorem exists_first {p : Declaration → Bool} {ds : List Declaration}
    (hincreasing : (ds.map (·.position)).Pairwise (· < ·)) (h : ds.head?.any p = true) :
    ∃ d ∈ preorderOfAll ds, p d = true ∧ (walkAll ds).find? (·.name == d.name) = some d := by
  cases ds with
  | nil => cases h
  | cons d ds =>
    refine ⟨d, ?_, h, ?_⟩
    · rw [preorderOfAll, preorder_eq_cons]
      exact List.mem_cons_self
    · rw [walkAll, inSourceOrder_eq_of_increasing hincreasing, List.flatMap_cons, walk_eq_cons]
      exact List.find?_cons_of_pos (beq_self_eq_true d.name)

/-- Of two types of one name the outer one is found first, and what is in the inner one is inside
it; an extension that follows is not looked into. -/
theorem atPath?_isSome_iff_leads_nested :
    let source :=
      "struct A \x7b class A \x7b var b = 1 \x7d \x7d\nextension A \x7b func b() \x7b\x7d \x7d"
    let a := Analysis.ofSource .default source
    (∀ d ∈ preorderOfAll a.declarations, d.name ≠ "A.b") ∧
      (atPath? "A.b" a.topLevel).isSome = true := by
  intro source a
  have hall : ((preorderOfAll a.declarations).all (·.name != "A.b")) = true := by decide +kernel
  have hincreasing : (a.declarations.map (·.position)).Pairwise (· < ·) := by decide +kernel
  have hnames : namesOfPath "A.b" = ["A", "b"] := by decide +kernel
  have hhead : a.declarations.head?.any (fun d => d.name == "A" &&
      d.descendants.any (·.name == "b")) = true := by decide +kernel
  have hpath : ∀ d ∈ preorderOfAll a.declarations, d.name ≠ "A.b" := fun d hd =>
    bne_iff_ne.1 (List.all_eq_true.1 hall d hd)
  obtain ⟨d, hd, hboth, hfirst⟩ := exists_first hincreasing hhead
  obtain ⟨hname, hinner⟩ := Bool.and_eq_true_iff.1 hboth
  obtain ⟨e, he, hname'⟩ := List.any_eq_true.1 hinner
  have htrail : IsTrail (preorderOfAll a.declarations) (namesOfPath "A.b") [d, e] := by
    rw [hnames]
    exact ⟨hd, beq_iff_eq.1 hname, he, beq_iff_eq.1 hname', trivial⟩
  exact ⟨hpath, (atPath?_isSome_iff_leads .default source "A.b" hpath).1.2
    ⟨[d, e], htrail, hfirst, trivial⟩⟩

/-- What stands in an extension of a type that is declared before it is not found by the name of
the type, though a trail goes there. -/
theorem not_found_in_extension :
    let source := "struct A \x7b\x7d\nextension A \x7b func b() \x7b\x7d \x7d"
    let a := Analysis.ofSource .default source
    (∀ d ∈ preorderOfAll a.declarations, d.name ≠ "A.b") ∧
      (∃ trail, IsTrail (preorderOfAll a.declarations) (namesOfPath "A.b") trail) ∧
      atPath? "A.b" a.topLevel = none := by
  intro source a
  have hall : ((preorderOfAll a.declarations).all (·.name != "A.b")) = true := by decide +kernel
  have hincreasing : (a.declarations.map (·.position)).Pairwise (· < ·) := by decide +kernel
  have hnames : namesOfPath "A.b" = ["A", "b"] := by decide +kernel
  have hany : ((preorderOfAll a.declarations).any fun d =>
      d.name == "A" && d.descendants.any (·.name == "b")) = true := by decide +kernel
  have hhead : a.declarations.head?.any (fun d => d.name == "A" && d.descendants.isEmpty) =
      true := by decide +kernel
  have hpath : ∀ d ∈ preorderOfAll a.declarations, d.name ≠ "A.b" := fun d hd =>
    bne_iff_ne.1 (List.all_eq_true.1 hall d hd)
  refine ⟨hpath, ?_, ?_⟩
  · obtain ⟨d, hd, hboth⟩ := List.any_eq_true.1 hany
    obtain ⟨hname, hinner⟩ := Bool.and_eq_true_iff.1 hboth
    obtain ⟨e, he, hname'⟩ := List.any_eq_true.1 hinner
    rw [hnames]
    exact ⟨[d, e], hd, beq_iff_eq.1 hname, he, beq_iff_eq.1 hname', trivial⟩
  · -- the names settle on the first type of the name, and nothing is below it
    obtain ⟨d, -, hboth, hfirst⟩ := exists_first hincreasing hhead
    obtain ⟨hname, hempty⟩ := Bool.and_eq_true_iff.1 hboth
    have hbind : atPath? "A.b" a.topLevel =
        (findNamed? "A" a.topLevel).bind (·.follow? ["b"]) :=
      atPath?_eq_bind (fun x hx => hpath x ((mem_walkAll_iff .default source x).1 hx)) hnames
    rw [hbind]
    refine Option.eq_none_iff_forall_ne_some.2 fun f hf => ?_
    obtain ⟨trail, htrail, hleads, -⟩ := exists_trail_of_found (allPlain_of_mem_walkAll _ _) hf
    obtain ⟨x, xs, rfl, -, hx, hrest⟩ := htrail.exists_cons
    obtain ⟨y, ys, rfl, hy, -⟩ := hrest.exists_cons
    have hsame := hleads.1
    rw [hx, ← beq_iff_eq.1 hname] at hsame
    obtain rfl := Option.some.inj (hfirst.symm.trans hsame)
    rw [List.isEmpty_iff.1 hempty] at hy
    cases hy

end SwiftOutline.Declaration

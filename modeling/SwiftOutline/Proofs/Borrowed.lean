import SwiftOutline.Declaration.Variable
import SwiftOutline.Proofs.Complete
import SwiftOutline.Proofs.Reached

/-!
# SwiftOutline.Proofs.Borrowed

The types of the variables of a statement: a binding without a type borrows that of the first
binding that has one.

* `Variable.askAll` — questions to the variables of a statement, one after the other;
* `Variable.Honest` — what a variable remembers is what its nodes say, so that no answer depends on
  the questions before it (`askAll_eq`);
* `TypeShape.ofBinding` — the shape of a binding beside others, told by the types they are annotated
  with;
* `Site.Typed` — the variables of a statement have these shapes, however they are made and in
  whatever order they are asked, and no type is missing if there is any;
* `complete_and_typed` — so it is in every source file without faults.
-/

namespace SwiftOutline

/-! ## asking variables -/

namespace Variable

/-- Which of some variables is asked for what. -/
structure Question where
  index : Nat
  property : Property

/-- A property with its value. -/
structure Answer where
  property : Property
  value : property.Value

/-- Ask variables one question after the other. -/
def askAll (vs : List Variable) : List Question → List (Option Answer)
  | [] => []
  | q :: qs =>
    match vs[q.index]? with
    | none => none :: askAll vs qs
    | some v =>
      let (x, w) := v.ask q.property
      some ⟨q.property, x⟩ :: askAll (vs.set q.index w) qs

/-- What is known of a variable is what its nodes say. -/
def Honest (v : Variable) : Prop := ∀ p x, v.known p = some x → x = v.find p

variable {v : Variable}

theorem honest_start (owner : Option DeclarationKind) (statement : Located) (list : Tree)
    (binding : Located) : (start owner statement list binding).Honest := by
  simp [Honest, start]

theorem find_learn (v : Variable) (p : Property) (x : p.Value) : (v.learn p x).find = v.find := by
  funext q
  cases q <;> rfl

theorem Honest.learn (h : v.Honest) (p : Property) : (v.learn p (v.find p)).Honest := by
  intro q x hx
  rw [find_learn]
  by_cases hp : p = q
  · subst hp
    simpa [Variable.learn, eq_comm] using hx
  · exact h q x (by simpa [Variable.learn, hp] using hx)

/-- A question is answered by the nodes. -/
theorem Honest.fst_ask (h : v.Honest) (p : Property) : (v.ask p).1 = v.find p := by
  unfold ask
  split
  · next x hx => exact h p x hx
  · rfl

/-- After a question a variable is the same but for what it remembers, which is honest. -/
theorem Honest.snd_ask (h : v.Honest) (p : Property) :
    (v.ask p).2.Honest ∧ (v.ask p).2.find = v.find := by
  unfold ask
  split
  · exact ⟨h, rfl⟩
  · exact ⟨h.learn p, find_learn v p _⟩

/-- Whatever is asked of variables and in whatever order, every answer is what the nodes of the
variable say. -/
theorem askAll_eq {vs : List Variable} (h : ∀ v ∈ vs, v.Honest) (qs : List Question) :
    askAll vs qs = qs.map fun q => (vs[q.index]?).map fun v => ⟨q.property, v.find q.property⟩ := by
  induction qs generalizing vs with
  | nil => rfl
  | cons q qs ih =>
    unfold askAll
    cases hq : vs[q.index]? with
    | none => simp [hq, ih h]
    | some v =>
      have hv := h v (List.mem_of_getElem? hq)
      obtain ⟨hhonest, hfind⟩ := hv.snd_ask q.property
      have hset : ∀ w ∈ vs.set q.index (v.ask q.property).2, w.Honest := fun w hw =>
        (List.mem_or_eq_of_mem_set hw).elim (h w) fun heq => heq ▸ hhonest
      simp only [ih hset, List.map_cons, hq, Option.map_some, hv.fst_ask, List.cons.injEq,
        true_and]
      refine List.map_congr_left fun r _ => ?_
      by_cases hr : q.index = r.index
      · have hlt := (List.getElem?_eq_some_iff.1 hq).1
        rw [← hr, List.getElem?_set_self hlt, hq]
        simp [hfind]
      · rw [List.getElem?_set_ne hr]

theorem honest_of_mem_ofStatement {owner : Option DeclarationKind} {node : Located}
    (h : v ∈ ofStatement owner node) : v.Honest := by
  unfold ofStatement at h
  split at h
  · simp at h
  · obtain ⟨binding, -, rfl⟩ := List.mem_map.1 h
    exact honest_start _ _ _ _

end Variable

/-! ## types by annotations -/

/-- The type that a binding is annotated with. -/
def Tree.annotatedWith? (binding : Tree) : Option Tree :=
  (binding.childOf? .annotatedType).bind Tree.type?

/-- The shape of a binding beside others: of the type it is annotated with, or else of the one that
the first annotated binding has; empty if there is none. -/
def TypeShape.ofBinding (bindings : List Tree) (binding : Tree) : TypeShape :=
  match binding.annotatedWith?, bindings.findSome? Tree.annotatedWith? with
  | some t, _ => ofTree t
  | none, some t => ofTree t
  | none, none => empty

/-- An annotation of a binding holds a type. -/
def Tree.IsWellAnnotated (binding : Tree) : Prop :=
  ∀ clause, binding.childOf? .annotatedType = some clause → clause.type?.isSome

theorem Tree.IsWellAnnotated.annotatedWith? {b : Tree} (h : b.IsWellAnnotated) :
    b.annotatedWith?.isSome = (b.childOf? .annotatedType).isSome := by
  unfold Tree.annotatedWith?
  cases hclause : b.childOf? .annotatedType with
  | none => rfl
  | some clause => simpa using h clause hclause

theorem findSome?_annotatedWith? {bs : List Tree} (h : ∀ b ∈ bs, b.IsWellAnnotated) :
    bs.findSome? Tree.annotatedWith? =
      (bs.findSome? (Tree.childOf? .annotatedType)).bind Tree.type? := by
  induction bs with
  | nil => rfl
  | cons b bs ih =>
    obtain ⟨hb, hbs⟩ := List.forall_mem_cons.1 h
    rw [List.findSome?_cons, List.findSome?_cons, ih hbs, Tree.annotatedWith?]
    cases hclause : b.childOf? .annotatedType with
    | none => rfl
    | some clause =>
      obtain ⟨t, ht⟩ := Option.isSome_iff_exists.1 (hb clause hclause)
      simp [ht]

/-- The shape that is read for a binding is told by annotations, if these hold types. -/
theorem Facts.bindingShape_eq {list binding : Tree}
    (h : ∀ b ∈ list.childrenOf .patternBinding, b.IsWellAnnotated)
    (hb : binding ∈ list.childrenOf .patternBinding) :
    bindingShape list binding = .ofBinding (list.childrenOf .patternBinding) binding := by
  unfold bindingShape TypeShape.ofBinding
  rw [findSome?_annotatedWith? h, Tree.annotatedWith?]
  cases hown : binding.childOf? .annotatedType with
  | some clause =>
    obtain ⟨t, ht⟩ := Option.isSome_iff_exists.1 (h binding hb clause hown)
    simp [TypeShape.ofWrapper, ht]
  | none =>
    cases hfirst : (list.childrenOf .patternBinding).findSome? (Tree.childOf? .annotatedType) with
    | none => rfl
    | some clause =>
      obtain ⟨sibling, hmem, hclause⟩ := List.exists_of_findSome?_eq_some hfirst
      obtain ⟨t, ht⟩ := Option.isSome_iff_exists.1 (h sibling hmem clause hclause)
      simp [TypeShape.ofWrapper, ht]

namespace TypeShape

variable {bs : List Tree} {b : Tree}

/-- Shapes by annotations are complete if the types are and one binding is annotated. -/
theorem complete_ofBinding
    (hcomplete : ∀ b ∈ bs, ∀ t, b.annotatedWith? = some t → (ofTree t).Complete)
    (hany : ∃ b ∈ bs, b.annotatedWith?.isSome) (hb : b ∈ bs) : (ofBinding bs b).Complete := by
  unfold ofBinding
  split
  · next t ht => exact hcomplete b hb t ht
  · next t _ hfirst =>
    obtain ⟨sibling, hmem, ht⟩ := List.exists_of_findSome?_eq_some hfirst
    exact hcomplete sibling hmem t ht
  · next hfirst =>
    obtain ⟨sibling, hmem, hsome⟩ := hany
    rw [List.findSome?_eq_none_iff.1 hfirst sibling hmem] at hsome
    cases hsome

theorem ofBinding_eq_empty (h : ∀ b ∈ bs, b.annotatedWith? = none) (hb : b ∈ bs) :
    ofBinding bs b = empty := by
  rw [ofBinding, h b hb, List.findSome?_eq_none_iff.2 h]

end TypeShape

/-! ## regular trees -/

namespace Tree

open Parts

variable {t : Tree} {k : Kind}

theorem isSome_type? (h : 0 < (TypeShape.typesIn t.children).length) : t.type?.isSome := by
  rw [TypeShape.length_typesIn, List.countP_pos_iff] at h
  obtain ⟨part, hpart, htype⟩ := h
  obtain ⟨c, hc, rfl⟩ := List.mem_map.1 hpart
  exact List.find?_isSome.2 ⟨c, hc, (isType_part c).symm.trans htype⟩

theorem isSome_childOf? (h : 0 < t.parts.countP (· == .node k)) : (t.childOf? k).isSome := by
  rw [List.countP_pos_iff] at h
  obtain ⟨part, hpart, heq⟩ := h
  obtain ⟨c, hc, rfl⟩ := List.mem_map.1 hpart
  have hkind : c.isNodeOf k = true := by
    cases c <;> simp_all [Tree.part, isNodeOf, isNode, kind]
  exact List.find?_isSome.2 ⟨c, List.mem_of_mem_filter hc, hkind⟩

theorem Regular.of_mem_children (h : t.bare.Regular) {c : Tree} (hc : c ∈ t.children) :
    c.bare.Regular := by
  cases t with
  | token => cases hc
  | node k cs => exact Regular.of_mem h hc

theorem Regular.of_childOf? (h : t.bare.Regular) {c : Tree} (hc : t.childOf? k = some c) :
    c.bare.Regular :=
  h.of_mem_children (List.mem_of_find?_eq_some hc)

/-- In a regular tree an annotation holds a type. -/
theorem Regular.isWellAnnotated (h : t.bare.Regular) : t.IsWellAnnotated := by
  intro clause hclause
  have hregular := h.of_childOf? hclause
  have hkind := (isNodeOf_iff.1 (List.find?_some hclause)).2
  cases clause with
  | token => cases (isNodeOf_iff.1 (List.find?_some hclause)).1
  | node j cs =>
    obtain rfl : j = .annotatedType := hkind
    have hcount := TypeShape.typeCount_le (k := .annotatedType) hregular
    rw [TypeShape.typesIn_bareAll] at hcount
    exact isSome_type? (Nat.lt_of_lt_of_le Nat.one_pos hcount)

/-- The type of an annotation is complete in a regular tree. -/
theorem Regular.complete_annotatedWith? (h : t.bare.Regular) {u : Tree}
    (hu : t.annotatedWith? = some u) : (TypeShape.ofTree u).Complete := by
  obtain ⟨clause, hclause, hu⟩ := Option.bind_eq_some_iff.1 hu
  have hregular := (h.of_childOf? hclause).of_mem_children (List.mem_of_find?_eq_some hu)
  have htype : u.isType = true := List.find?_some hu
  rw [← TypeShape.ofTree_bare]
  exact TypeShape.complete_ofTree hregular (by simpa [isType] using htype)

/-- A statement of variables has a list of bindings. -/
theorem Regular.isSome_bindings {cs : List Tree} (h : (node .variableDecl cs).bare.Regular) :
    ((node .variableDecl cs).childOf? .patternBindingList).isSome := by
  have hlist : Holds (· == .node .patternBindingList) 1 (Kind.parts .variableDecl) :=
    (((holds_nodeOf (by decide)).behind _).behind _).behind _
  refine isSome_childOf? (hlist _ ?_)
  rw [Tree.parts, Tree.children, ← map_part_bareAll]
  exact h.1

/-- A list of bindings is not empty. -/
theorem Regular.childrenOf_ne_nil {cs : List Tree}
    (h : (node .patternBindingList cs).bare.Regular) :
    (node .patternBindingList cs).childrenOf .patternBinding ≠ [] := by
  have hlist : Holds (· == .node .patternBinding) 1 (Kind.parts .patternBindingList) :=
    (holds_nodeOf (by decide)).before _
  have hsome : ((node .patternBindingList cs).childOf? .patternBinding).isSome := by
    refine isSome_childOf? (hlist _ ?_)
    rw [Tree.parts, Tree.children, ← map_part_bareAll]
    exact h.1
  obtain ⟨b, hb⟩ := Option.isSome_iff_exists.1 hsome
  exact List.ne_nil_of_mem (List.mem_filter.2 ⟨List.mem_of_find?_eq_some hb, List.find?_some hb⟩)

end Tree

/-! ## statements of variables -/

namespace Site

/-- The bindings of a statement of variables. -/
def bindings (s : Site) : List Located :=
  match s.node.child? (Tree.isNodeOf .patternBindingList) with
  | none => []
  | some list => list.childrenWhere (Tree.isNodeOf .patternBinding)

/-- The shapes of the bindings of a statement, told by their annotations. -/
def shapes (s : Site) : List TypeShape :=
  (s.bindings.map (·.tree)).map (.ofBinding (s.bindings.map (·.tree)))

/-- The variables of a statement in a file are typed by its bindings. -/
structure Typed (file : Tree) (s : Site) : Prop where
  bindings_ne_nil : s.bindings ≠ []
  /-- If one binding is annotated, then no type is missing in the shape of any. -/
  complete : (∃ b ∈ s.bindings, b.tree.annotatedWith?.isSome) → ∀ x ∈ s.shapes, x.Complete
  /-- If no binding is annotated, then no binding has a shape. -/
  empty : (∀ b ∈ s.bindings, b.tree.annotatedWith? = none) → ∀ x ∈ s.shapes, x = .empty
  /-- Whatever the variables are asked and in whatever order, those asked for their shape answer
  with the one that the bindings tell. -/
  answers (owner : Option DeclarationKind) (qs : List Variable.Question) (n i : Nat) :
    qs[n]? = some ⟨i, .shape⟩ →
      (Variable.askAll (Variable.ofStatement owner s.node) qs)[n]? =
        some ((s.shapes[i]?).map fun x => ⟨.shape, x⟩)
  /-- So are the shapes in what the variables say of themselves where a scope is collected. -/
  shapes (owner : Option DeclarationKind) :
    (Variable.ofStatement owner s.node).map (·.details.shape) = s.shapes
  /-- These are the variables that the statement makes, wherever it stands. -/
  statement : Variable.ofStatementSite s = .ok (Variable.ofStatement s.owner? s.node)
  /-- They are the variables that its bindings make, each by itself. -/
  bindings : List.Forall₂ (fun v m => m ∈ all file ∧ Variable.ofBindingSite m = .ok v)
    (Variable.ofStatement s.owner? s.node) (makers .variable s)
  /-- They are the variables that a collection finds in the statement, whatever it is told of the
  scope around. -/
  collected (c : Config) (owner : Option DeclarationKind) (scope : Located) :
    s.node ∈ scope.children → c.isEnabled .variable = true →
      Variable.declarations (Variable.ofStatement owner s.node) <:+:
        Declaration.collect c owner scope

theorem map_tree_childrenWhere (l : Located) (p : Tree → Bool) :
    (l.childrenWhere p).map (·.tree) = l.tree.children.filter p := by
  rw [Located.childrenWhere, ← l.map_tree_children, List.filter_map]
  rfl

variable {source : String} {s : Site}

/-- A statement of variables in a source file without faults has a list of bindings, which is
regular like the statement. -/
theorem exists_list (hclean : (parse source).faults = []) (h : s ∈ all (parse source).tree)
    (hk : s.node.kind = .variableDecl) :
    ∃ list, s.node.child? (Tree.isNodeOf .patternBindingList) = some list ∧
      list.tree.bare.Regular := by
  obtain ⟨hnode, hregular⟩ := regular_of_mem_all hclean h
  obtain ⟨⟨t, start⟩, above⟩ := s
  cases t with
  | token => cases hnode
  | node k cs =>
    obtain rfl : k = .variableDecl := hk
    obtain ⟨t, ht⟩ := Option.isSome_iff_exists.1 (Tree.Regular.isSome_bindings hregular)
    have hlist := Located.map_tree_children ⟨.node .variableDecl cs, start⟩
    rw [Tree.childOf?, ← hlist, List.find?_map] at ht
    obtain ⟨list, hfound, rfl⟩ := Option.map_eq_some_iff.1 ht
    exact ⟨list, hfound,
      hregular.of_mem_children (Located.tree_mem_children (List.mem_of_find?_eq_some hfound))⟩

theorem declarations_infix_collect (hk : s.node.kind = .variableDecl)
    (hnode : s.node.tree.isNode = true) {c : Config} (owner : Option DeclarationKind)
    {scope : Located} (hs : s.node ∈ scope.children) (hc : c.isEnabled .variable = true) :
    Variable.declarations (Variable.ofStatement owner s.node) <:+:
      Declaration.collect c owner scope := by
  have hkind : DeclarationKind.ofNode? s.node.kind = some .variable := by rw [hk]; rfl
  have hblock : c.block? .variable = none := by
    unfold Config.block?
    split <;> rfl
  have hmade : Declaration.ofNode c owner s.node (fun o block _ => Declaration.collect c o block) =
      Variable.declarations (Variable.ofStatement owner s.node) := by
    unfold Declaration.ofNode
    rw [hkind]
    simp [hnode, hc, Facts.allOfNode, ← Variable.map_facts_ofStatement, Variable.declarations,
      Declaration.scopesOf, Declaration.memberScopes, hblock]
  obtain ⟨before, after, hchildren⟩ := List.append_of_mem hs
  rw [Declaration.collect_eq, hchildren, List.flatMap_append, List.flatMap_cons, hmade]
  exact List.infix_append' _ _ _

section

variable (hclean : (parse source).faults = []) (h : s ∈ all (parse source).tree)
  (hk : s.node.kind = .variableDecl)

include hclean h hk

theorem regular_of_mem_bindings {b : Located} (hb : b ∈ s.bindings) : b.tree.bare.Regular := by
  obtain ⟨list, hlist, hregular⟩ := exists_list hclean h hk
  rw [Site.bindings, hlist] at hb
  exact hregular.of_mem_children (Located.tree_mem_children (List.mem_of_mem_filter hb))

theorem bindings_ne_nil : s.bindings ≠ [] := by
  obtain ⟨list, hlist, hregular⟩ := exists_list hclean h hk
  obtain ⟨hnode, hkind⟩ := Tree.isNodeOf_iff.1
    (List.mem_filter.1 (mem_childrenWhere_of_child? hlist)).2
  have hne : list.tree.childrenOf .patternBinding ≠ [] := by
    cases htree : list.tree with
    | token => simp [htree, Tree.isNode] at hnode
    | node k cs =>
      rw [htree] at hkind hregular
      obtain rfl : k = .patternBindingList := hkind
      exact hregular.childrenOf_ne_nil
  rw [Tree.childrenOf, ← map_tree_childrenWhere] at hne
  rw [Site.bindings, hlist]
  exact fun hnil => hne (congrArg (List.map _) hnil)

/-- The shapes that are read for the variables of a statement are told by annotations. -/
theorem map_shape_ofStatement (owner : Option DeclarationKind) :
    (Variable.ofStatement owner s.node).map (·.details.shape) = s.shapes := by
  obtain ⟨list, hlist, hregular⟩ := exists_list hclean h hk
  have htrees : (list.childrenWhere (Tree.isNodeOf .patternBinding)).map (·.tree) =
      list.tree.childrenOf .patternBinding := map_tree_childrenWhere list _
  have hwell : ∀ b ∈ list.tree.childrenOf .patternBinding, b.IsWellAnnotated := fun b hb =>
    (hregular.of_mem_children (List.mem_of_mem_filter hb)).isWellAnnotated
  rw [Site.shapes, Site.bindings, Variable.ofStatement, hlist]
  simp only [htrees]
  rw [List.map_map, ← htrees, List.map_map]
  refine List.map_congr_left fun b hb => ?_
  have hmem : b.tree ∈ list.tree.childrenOf .patternBinding := htrees ▸ List.mem_map_of_mem hb
  exact (Facts.bindingShape_eq hwell hmem).trans (by rw [htrees]; rfl)

/-- Each binding makes the variable that it is in its statement. -/
theorem forall₂_ofBindingSite :
    List.Forall₂ (fun v m => m ∈ all (parse source).tree ∧ Variable.ofBindingSite m = .ok v)
      (Variable.ofStatement s.owner? s.node) (makers .variable s) := by
  have hmakers : ∀ m ∈ makers .variable s, m ∈ all (parse source).tree := fun _ =>
    makers_mem_all h
  obtain ⟨list, hlist, -⟩ := exists_list hclean h hk
  have hlistkind := kind_of_mem_childrenWhere (mem_childrenWhere_of_child? hlist)
  rw [makers, hlist] at hmakers
  rw [Variable.ofStatement, makers, hlist]
  simp only [List.forall₂_map_left_iff, List.forall₂_map_right_iff, List.forall₂_same]
  intro b hb
  refine ⟨hmakers _ (List.mem_map_of_mem hb), ?_⟩
  have hexpect : ((s.inside list).inside b).expect .patternBinding = .ok _ :=
    expect_of_kind (kind_of_mem_childrenWhere hb)
  have hinner (part : Located) :
      ((s.inside list).inside b).enclosing part .patternBindingList = .ok _ :=
    enclosing_inside hlistkind
  have houter (part : Located) : (s.inside list).enclosing part .variableDecl = .ok _ :=
    enclosing_inside hk
  simp only [Variable.ofBindingSite, hexpect, hinner, houter, bind, Except.bind]
  rfl

/-- The variables of every statement in a source file without faults are typed. -/
theorem typed_of_mem_all : s.Typed (parse source).tree where
  bindings_ne_nil := bindings_ne_nil hclean h hk
  complete := by
    rintro ⟨b, hb, hsome⟩ x hx
    obtain ⟨c, hc, rfl⟩ := List.mem_map.1 hx
    refine TypeShape.complete_ofBinding ?_ ⟨b.tree, List.mem_map_of_mem hb, hsome⟩ hc
    rw [List.forall_mem_map]
    exact fun d hd _ => (regular_of_mem_bindings hclean h hk hd).complete_annotatedWith?
  empty := by
    intro hnone x hx
    obtain ⟨c, hc, rfl⟩ := List.mem_map.1 hx
    exact TypeShape.ofBinding_eq_empty (List.forall_mem_map.2 hnone) hc
  answers := by
    intro owner qs n i hq
    have hshape := congrArg (·[i]?) (map_shape_ofStatement hclean h hk owner)
    simp only [List.getElem?_map] at hshape
    rw [Variable.askAll_eq fun _ => Variable.honest_of_mem_ofStatement, List.getElem?_map, hq,
      ← hshape, Option.map_map]
    rfl
  shapes := map_shape_ofStatement hclean h hk
  statement := by
    rw [Variable.ofStatementSite, expect_of_kind hk]
    rfl
  bindings := forall₂_ofBindingSite hclean h hk
  collected _ owner _ hs hc :=
    declarations_infix_collect hk (regular_of_mem_all hclean h).1 owner hs hc

end

end Site

/-- In a source file without faults no type is missing: every type has a shape that is empty at no
depth. So the variables of every statement have the shapes that their bindings tell, each of its own
type or else of the first one in the statement; none of these is missing if there is any. It makes
no difference whether a variable is made by its binding alone, by the statement or by collecting a
scope, nor in which order variables are asked. -/
theorem complete_and_typed {source : String} (hclean : (parse source).faults = []) :
    (∀ s ∈ Site.all (parse source).tree, s.node.tree.isType = true →
      (TypeShape.ofTree s.node.tree).Complete) ∧
    ∀ s ∈ Site.all (parse source).tree, s.node.kind = .variableDecl →
      s.Typed (parse source).tree :=
  ⟨fun _ h ht => Site.complete_ofTree_of_mem_all hclean h ht,
    fun _ h hk => Site.typed_of_mem_all hclean h hk⟩

/-- The theorem applies to a statement whose last two bindings are annotated, and whose first one
borrows a type that holds others. -/
theorem complete_and_typed_borrowed :
    let source := "var a, b: [(@m String, x: Int...) throws -> Self?], c: Int!"
    (parse source).faults = [] ∧
      (∃ s ∈ Site.all (parse source).tree, s.node.kind = .variableDecl) ∧
      (∀ s ∈ Site.all (parse source).tree, s.node.tree.isType = true →
        (TypeShape.ofTree s.node.tree).Complete) ∧
      ∀ s ∈ Site.all (parse source).tree, s.node.kind = .variableDecl →
        s.Typed (parse source).tree := by
  intro source
  have hclean : (parse source).faults = [] := by decide +kernel
  have hany : ((Site.all (parse source).tree).any (·.node.kind == .variableDecl)) = true := by
    decide +kernel
  exact ⟨hclean, by simpa using hany, complete_and_typed hclean⟩

end SwiftOutline

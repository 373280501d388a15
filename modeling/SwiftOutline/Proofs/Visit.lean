import SwiftOutline.Analysis
import SwiftOutline.Declaration.Placement
import SwiftOutline.Proofs.Shape
import SwiftOutline.Proofs.Walk

/-!
# SwiftOutline.Proofs.Visit

Every declaration of a source file is collected, and nothing else.

* `Site.openDeclarations` — the declaration nodes of a tree that are in no block of accessors;
* `Site.declared` — what the node at a site declares: one declaration, or one for each binding
  or enum case in it;
* `Kind.isQuiet` — nodes that hold no declarations, other than in blocks of accessors;
* `facts_collect` — collecting the declarations of a scope finds what the open declaration
  nodes below it declare, in document order;
* `walk_visits_each_once` — a walk through the declarations of a source file meets each once.
-/

namespace SwiftOutline

/-! ## sites -/

namespace Located

theorem nodesInAll_eq (above : List Located) (start : Nat) (ts : List Tree) :
    Site.nodesInAll above start ts =
      (row start ts).flatMap fun l => Site.nodesIn above l.start l.tree := by
  induction ts generalizing start with
  | nil => rfl
  | cons t ts ih => rw [Site.nodesInAll, row, List.flatMap_cons, ih]

end Located

namespace Site

/-- The nodes below a node, with what is around them. -/
def below (above : List Located) (l : Located) : List Site :=
  l.children.flatMap fun c => nodesIn (l :: above) c.start c.tree

theorem nodesIn_node {l : Located} (above : List Located) (h : l.tree.isNode = true) :
    nodesIn above l.start l.tree = ⟨l, above⟩ :: below above l := by
  obtain ⟨t, start⟩ := l
  cases t with
  | token k s => cases h
  | node k cs =>
    rw [nodesIn, below, Located.nodesInAll_eq]
    rfl

mutual

/-- What a tree hands down to all that is below it holds of the nodes in it. -/
theorem of_mem_nodesIn {P : Tree → Prop} (hP : ∀ k cs, P (.node k cs) → ∀ c ∈ cs, P c)
    {above : List Located} {start : Nat} {t : Tree} {s : Site} (ht : P t)
    (h : s ∈ nodesIn above start t) : s.node.tree.isNode = true ∧ P s.node.tree := by
  cases t with
  | token k x => cases h
  | node k cs =>
    rw [nodesIn, List.mem_cons] at h
    obtain rfl | h := h
    · exact ⟨rfl, ht⟩
    · exact of_mem_nodesInAll hP (hP k cs ht) h

theorem of_mem_nodesInAll {P : Tree → Prop} (hP : ∀ k cs, P (.node k cs) → ∀ c ∈ cs, P c)
    {above : List Located} {start : Nat} {ts : List Tree} {s : Site} (ht : ∀ t ∈ ts, P t)
    (h : s ∈ nodesInAll above start ts) : s.node.tree.isNode = true ∧ P s.node.tree := by
  cases ts with
  | nil => cases h
  | cons t ts =>
    rw [nodesInAll, List.mem_append] at h
    obtain h | h := h
    · exact of_mem_nodesIn hP (ht t List.mem_cons_self) h
    · exact of_mem_nodesInAll hP (fun u hu => ht u (List.mem_cons_of_mem t hu)) h

end

/-- Whether a node stands in no block of accessors. -/
def isOpen (s : Site) : Bool := !s.above.any (·.kind == .accessorBlock)

/-- Whether a node introduces a declaration and stands in no block of accessors. -/
def isOpenDeclaration (s : Site) : Bool := s.node.kind.isDeclaration && s.isOpen

/-- The declaration nodes of a tree that stand in no block of accessors, in document order. -/
def openDeclarations (t : Tree) : List Site := (all t).filter isOpenDeclaration

/-- What the node at a site declares. -/
def declared (s : Site) : List Facts :=
  match DeclarationKind.ofNode? s.node.kind with
  | none => []
  | some k => Facts.allOfNode s.owner? k s.node

/-- What the open declaration nodes among sites declare. -/
def declaredIn (ss : List Site) : List Facts := (ss.filter isOpenDeclaration).flatMap declared

theorem declaredIn_cons (s : Site) (ss : List Site) :
    declaredIn (s :: ss) =
      (if s.isOpenDeclaration then s.declared else []) ++ declaredIn ss := by
  by_cases h : s.isOpenDeclaration = true
  · simp [declaredIn, h]
  · simp [declaredIn, h]

theorem declaredIn_append (ss ts : List Site) :
    declaredIn (ss ++ ts) = declaredIn ss ++ declaredIn ts := by
  simp only [declaredIn, List.filter_append, List.flatMap_append]

theorem declaredIn_flatMap {α : Type} (f : α → List Site) (as : List α) :
    declaredIn (as.flatMap f) = as.flatMap fun a => declaredIn (f a) := by
  simp only [declaredIn, List.filter_flatMap, List.flatMap_assoc]

theorem declaredIn_below (above : List Located) (l : Located) :
    declaredIn (below above l) =
      l.children.flatMap fun c => declaredIn (nodesIn (l :: above) c.start c.tree) :=
  declaredIn_flatMap _ _

mutual

/-- What is around a node is around all below it. -/
theorem above_of_mem_nodesIn {above : List Located} {start : Nat} {t : Tree} {s : Site}
    (h : s ∈ nodesIn above start t) : ∃ between, s.above = between ++ above := by
  cases t with
  | token k x => cases h
  | node k cs =>
    rw [nodesIn, List.mem_cons] at h
    obtain rfl | h := h
    · exact ⟨[], rfl⟩
    · obtain ⟨between, hs⟩ := above_of_mem_nodesInAll h
      exact ⟨between ++ [⟨.node k cs, start⟩], by rw [hs, List.append_assoc]; rfl⟩

theorem above_of_mem_nodesInAll {above : List Located} {start : Nat} {ts : List Tree} {s : Site}
    (h : s ∈ nodesInAll above start ts) : ∃ between, s.above = between ++ above := by
  cases ts with
  | nil => cases h
  | cons t ts =>
    rw [nodesInAll, List.mem_append] at h
    obtain h | h := h
    · exact above_of_mem_nodesIn h
    · exact above_of_mem_nodesInAll h

end

/-- Nothing in a block of accessors is open. -/
theorem declaredIn_of_closed {above : List Located} (start : Nat) (ts : List Tree)
    (h : above.any (·.kind == .accessorBlock) = true) :
    declaredIn (nodesInAll above start ts) = [] := by
  have hnone : (nodesInAll above start ts).filter isOpenDeclaration = [] := by
    rw [List.filter_eq_nil_iff]
    intro s hs
    obtain ⟨between, habove⟩ := above_of_mem_nodesInAll hs
    simp [isOpenDeclaration, isOpen, habove, h]
  rw [declaredIn, hnone]
  rfl

end Site

/-! ## quiet nodes -/

namespace Kind

/-- Nodes that hold no declarations, other than in blocks of accessors. -/
def isQuiet : Kind → Bool
  | .sourceFile | .memberBlock | .codeBlock | .ifConfigClause | .accessorDecl => false
  | k => !k.isDeclaration

/-- Nodes whose items are collected. -/
def isScope : Kind → Bool
  | .sourceFile | .memberBlock | .codeBlock | .ifConfigClause => true
  | _ => false

theorem isQuiet_of_isScope {k : Kind} (hk : k.isScope = true) : k.isQuiet = false := by
  revert hk
  cases k <;> decide

/-- Only quiet nodes stand in quiet ones. -/
theorem isQuiet_of_content {j k : Kind} (hk : k.isQuiet = true) (hb : k ≠ .accessorBlock)
    (hj : j ∈ k.content.once ++ k.content.many) : j.isQuiet = true := by
  have hall : (k.content.once ++ k.content.many).all isQuiet = true := by
    revert hk hb
    clear hj
    cases k <;> decide
  exact List.all_eq_true.1 hall j hj

/-- Quiet nodes and declarations stand in scopes. -/
theorem isQuiet_of_scope {j k : Kind} (hk : k.isScope = true)
    (hj : j ∈ k.content.once ++ k.content.many) :
    j.isQuiet = true ∨ j.isDeclaration = true := by
  have hall : (k.content.once ++ k.content.many).all fun j => isQuiet j || isDeclaration j := by
    revert hk
    clear hj
    cases k <;> decide
  simpa using List.all_eq_true.1 hall j hj

end Kind

namespace DeclarationKind

theorem node_of_ofNode? {k : Kind} {d : DeclarationKind} (h : ofNode? k = some d) :
    k = d.node := by
  have hd := List.find?_some h
  exact (eq_of_beq hd).symm

/-- Next to the block of its members and to the branches of a conditional block, only quiet
nodes stand in a declaration. -/
theorem isQuiet_of_content {d : DeclarationKind} {j : Kind}
    (hj : j ∈ d.node.content.once ++ d.node.content.many) :
    j.isQuiet = true ∨ d.block? = some j ∨ (d = .conditionalBlock ∧ j = .ifConfigClause) := by
  have hall : (d.node.content.once ++ d.node.content.many).all fun j =>
      j.isQuiet || d.block? == some j ||
        decide (d = .conditionalBlock) && decide (j = .ifConfigClause) := by
    clear hj
    cases d <;> decide
  have h := List.all_eq_true.1 hall j hj
  simpa [or_assoc] using h

/-- At most one block of members stands in a declaration. -/
theorem count_block_le {d : DeclarationKind} {b : Kind} (hb : d.block? = some b) {ks : List Kind}
    (h : d.node.content.Admits ks) : ks.count b ≤ 1 := by
  by_cases hk : b ∈ ks
  · have hcontent : b ∉ d.node.content.many ∧ d.node.content.once.count b = 1 := by
      cases d <;> cases hb <;> decide
    obtain hmany | hle := h b hk
    · exact absurd hmany hcontent.1
    · rwa [hcontent.2] at hle
  · rw [List.count_eq_zero.2 hk]
    exact Nat.zero_le _

/-- A block of members is a layer between what it holds and the declaration that owns it. -/
theorem isScopeLayer_of_block? {d : DeclarationKind} {b : Kind} (hb : d.block? = some b) :
    b.isScopeLayer = true ∧ d.node.isScopeLayer = false := by
  cases d <;> cases hb <;> exact ⟨rfl, rfl⟩

theorem isScope_of_block? {d : DeclarationKind} {b : Kind} (hb : d.block? = some b) :
    b.isScope = true := by
  cases d <;> cases hb <;> rfl

end DeclarationKind

namespace Site

mutual

/-- Quiet nodes declare nothing. -/
theorem declaredIn_of_quiet {above : List Located} (start : Nat) {t : Tree} (hs : t.Shaped)
    (hq : t.isNode = true → t.kind.isQuiet = true) :
    declaredIn (nodesIn above start t) = [] := by
  cases t with
  | token k x => rfl
  | node k cs =>
    have hk : k.isQuiet = true := hq rfl
    have hdecl : k.isDeclaration = false := by
      revert hk
      cases k <;> decide
    have hnode : isOpenDeclaration ⟨⟨.node k cs, start⟩, above⟩ = false := by
      simp [isOpenDeclaration, Located.kind, Tree.kind, hdecl]
    rw [nodesIn, declaredIn_cons, hnode]
    by_cases hb : k = .accessorBlock
    · subst hb
      exact declaredIn_of_closed start cs (by simp [Located.kind, Tree.kind])
    · refine declaredIn_of_quietAll _ hs.2 fun j hj => ?_
      exact Kind.isQuiet_of_content hk hb (hs.1.mem hj)

theorem declaredIn_of_quietAll {above : List Located} (start : Nat) {ts : List Tree}
    (hs : Tree.ShapedAll ts) (hq : ∀ k ∈ Tree.kinds ts, k.isQuiet = true) :
    declaredIn (nodesInAll above start ts) = [] := by
  cases ts with
  | nil => rfl
  | cons t ts =>
    have ht := @declaredIn_of_quiet above start _ hs.1 fun hn =>
      hq _ (Tree.mem_kinds List.mem_cons_self hn)
    have hts := @declaredIn_of_quietAll above (start + t.size) _ hs.2 fun k hk =>
      hq k (by cases t <;> simp [Tree.kinds, hk])
    rw [nodesInAll, declaredIn_append, ht, hts]
    rfl

end

end Site

/-! ## below one node -/

namespace Located

theorem tree_mem_children {l c : Located} (hc : c ∈ l.children) : c.tree ∈ l.tree.children := by
  rw [← map_tree_children]
  exact List.mem_map_of_mem hc

theorem shaped_of_mem {l c : Located} (hs : l.tree.Shaped) (hc : c ∈ l.children) :
    c.tree.Shaped := by
  have hmem := tree_mem_children hc
  cases ht : l.tree with
  | token k x => rw [ht] at hmem; cases hmem
  | node k cs =>
    rw [ht] at hs hmem
    exact hs.2.mem hmem

/-- A node below another one is of a kind that the content of the other one lists. -/
theorem kind_mem_content {l c : Located} (hs : l.tree.Shaped) (hc : c ∈ l.children)
    (hn : c.tree.isNode = true) :
    c.kind ∈ l.kind.content.once ++ l.kind.content.many := by
  have hmem := tree_mem_children hc
  cases ht : l.tree with
  | token k x => rw [ht] at hmem; cases hmem
  | node k cs =>
    rw [ht] at hs hmem
    have hk := hs.1.mem (Tree.mem_kinds hmem hn)
    rwa [kind, kind, ht]

theorem isNode_of_mem {l c : Located} (hc : c ∈ l.children) : l.tree.isNode = true := by
  have hmem := tree_mem_children hc
  cases ht : l.tree with
  | token k x => rw [ht] at hmem; cases hmem
  | node k cs => rfl

end Located

namespace Tree

theorem isNodeOf_iff {k : Kind} {t : Tree} :
    t.isNodeOf k = true ↔ t.isNode = true ∧ t.kind = k := by
  rw [isNodeOf, Bool.and_eq_true, beq_iff_eq]

/-- A kind that counts at most once among trees has no second node. -/
theorem not_isNodeOf_of_count {k : Kind} {ts us : List Tree} {t : Tree}
    (h : (kinds (ts ++ t :: us)).count k ≤ 1) (ht : t.isNodeOf k = true) :
    ∀ u ∈ us, u.isNodeOf k = false := by
  obtain ⟨hn, rfl⟩ := isNodeOf_iff.1 ht
  have hhead : kinds (t :: us) = t.kind :: kinds us := by
    cases t with
    | node k cs => rfl
    | token k s => cases hn
  rw [kinds_append, List.count_append, hhead, List.count_cons_self] at h
  intro u hu
  rw [Bool.eq_false_iff]
  intro hk
  obtain ⟨hun, huk⟩ := isNodeOf_iff.1 hk
  have hpos := List.count_pos_iff.2 (huk ▸ mem_kinds hu hun)
  omega

end Tree

/-- Where a kind counts at most once below a node, and only that kind gives anything, the first
node of it gives all. -/
theorem Located.flatMap_child? {α : Type} {l : Located} {k : Kind}
    (hcount : (Tree.kinds l.tree.children).count k ≤ 1) (f : Located → List α)
    (hf : ∀ c ∈ l.children, c.tree.isNodeOf k = false → f c = []) :
    l.children.flatMap f = ((l.child? (Tree.isNodeOf k)).map f).getD [] := by
  cases hfind : l.child? (Tree.isNodeOf k) with
  | none =>
    refine List.flatMap_eq_nil_iff.2 fun c hc => hf c hc ?_
    exact Bool.eq_false_iff.2 (List.find?_eq_none.1 hfind c hc)
  | some d =>
    obtain ⟨hd, pre, post, hsplit, hpre⟩ := List.find?_eq_some_iff_append.1 hfind
    rw [← map_tree_children, hsplit, List.map_append, List.map_cons] at hcount
    have hnilpre : pre.flatMap f = [] := List.flatMap_eq_nil_iff.2 fun c hc =>
      hf c (by rw [hsplit]; simp [hc]) (by simpa using hpre c hc)
    have hnilpost : post.flatMap f = [] := List.flatMap_eq_nil_iff.2 fun c hc =>
      hf c (by rw [hsplit]; simp [hc])
        (Tree.not_isNodeOf_of_count hcount hd _ (List.mem_map_of_mem hc))
    rw [hsplit, List.flatMap_append, List.flatMap_cons, hnilpre, hnilpost, List.append_nil]
    rfl

namespace Declaration

open Site

/-- The declarations of a block, in the order found, declare what the open declaration nodes
below it declare. -/
def Faithful (above : List Located) (o : Option DeclarationKind) (block : Located) : Prop :=
  (preorderOfAll (collect .default o block)).map (·.facts) = declaredIn (below above block)

theorem declaredIn_scope {above : List Located} {block : Located}
    (hn : block.tree.isNode = true) (hk : block.kind.isScope = true) :
    declaredIn (nodesIn above block.start block.tree) = declaredIn (below above block) := by
  have hdecl : block.kind.isDeclaration = false := by
    revert hk
    cases block.kind <;> decide
  rw [nodesIn_node above hn, declaredIn_cons]
  simp [isOpenDeclaration, hdecl]

/-- A declaration node has at most one block of members. -/
theorem count_block_le {k : DeclarationKind} {b : Kind} {node : Located} (hk : node.kind = k.node)
    (hs : node.tree.Shaped) (hb : k.block? = some b) :
    (Tree.kinds node.tree.children).count b ≤ 1 := by
  cases ht : node.tree with
  | token j x => simp [Tree.children, Tree.kinds]
  | node j cs =>
    rw [ht] at hs
    have hj : j = k.node := by rw [← hk, Located.kind, ht]; rfl
    exact DeclarationKind.count_block_le hb (hj ▸ hs.1)

/-- Besides its block of members, nothing below a declaration node declares anything. -/
theorem declaredIn_of_not_block {above : List Located} {k : DeclarationKind} {node c : Located}
    (hk : node.kind = k.node) (hcond : k ≠ .conditionalBlock) (hs : node.tree.Shaped)
    (hmem : c ∈ node.children) (hblock : ∀ b, k.block? = some b → c.tree.isNodeOf b = false) :
    declaredIn (nodesIn (node :: above) c.start c.tree) = [] := by
  refine declaredIn_of_quiet _ (Located.shaped_of_mem hs hmem) fun hn => ?_
  have hcontent := Located.kind_mem_content hs hmem hn
  rw [hk] at hcontent
  obtain hq | hb | ⟨hk', -⟩ := DeclarationKind.isQuiet_of_content hcontent
  · exact hq
  · exact absurd (Tree.isNodeOf_iff.2 ⟨hn, rfl⟩) (Bool.eq_false_iff.1 (hblock _ hb))
  · exact absurd hk' hcond

/-- The members of a declaration are what its node declares below itself. -/
theorem facts_memberScopes {above : List Located} {k : DeclarationKind} {node : Located}
    (hk : node.kind = k.node) (hc : k ≠ .conditionalBlock) (hs : node.tree.Shaped)
    (ih : ∀ block ∈ node.children, block.tree.isNode = true → block.kind.isScope = true →
      Faithful (node :: above) (some k) block) :
    (preorderOfScopes (memberScopes .default k node fun o b _ => collect .default o b)).map
        (·.facts) = declaredIn (below above node) := by
  have hquiet {c : Located} (hmem : c ∈ node.children)
      (hblock : ∀ b, k.block? = some b → c.tree.isNodeOf b = false) :
      declaredIn (nodesIn (node :: above) c.start c.tree) = [] :=
    declaredIn_of_not_block hk hc hs hmem hblock
  have hdefault : Config.block? .default k = k.block? := rfl
  rw [declaredIn_below, memberScopes_eq, hdefault]
  cases hb : k.block? with
  | none =>
    rw [List.flatMap_eq_nil_iff.2 fun c hmem => hquiet hmem (by simp [hb])]
    rfl
  | some b =>
    rw [Located.flatMap_child? (count_block_le hk hs hb) _ fun c hmem hnot =>
      hquiet hmem fun b' hb' => by
        obtain rfl : b = b' := Option.some.inj (hb.symm.trans hb')
        exact hnot]
    rw [Option.bind_some]
    cases hblock : node.child? (Tree.isNodeOf b) with
    | none => rfl
    | some block =>
      have hmem := List.mem_of_find?_eq_some hblock
      have hnode := List.find?_some (p := fun c : Located => c.tree.isNodeOf b) hblock
      obtain ⟨hn, hkind⟩ := Tree.isNodeOf_iff.1 hnode
      have hscope : block.kind.isScope = true := by
        rw [Located.kind, hkind]
        exact DeclarationKind.isScope_of_block? hb
      show _ = declaredIn (nodesIn (node :: above) block.start block.tree)
      rw [declaredIn_scope hn hscope, ← ih block hmem hn hscope]
      simp [preorderOfScopes]

/-- The branches of a conditional block declare what its node declares below itself. -/
theorem facts_branchScopes {above : List Located} {o : Option DeclarationKind} {node : Located}
    (hk : node.kind = .ifConfigDecl) (hs : node.tree.Shaped)
    (ih : ∀ block ∈ node.children, block.tree.isNode = true → block.kind = .ifConfigClause →
      Faithful (node :: above) o block) :
    (preorderOfScopes (branchScopes o node fun o b _ => collect .default o b)).map (·.facts) =
      declaredIn (below above node) := by
  have hquiet : ∀ c ∈ node.children, c.tree.isNodeOf .ifConfigClause = false →
      declaredIn (nodesIn (node :: above) c.start c.tree) = [] := by
    intro c hmem hnot
    refine declaredIn_of_quiet _ (Located.shaped_of_mem hs hmem) fun hn => ?_
    have hcontent := Located.kind_mem_content hs hmem hn
    rw [hk] at hcontent
    have hclause : c.kind ≠ .ifConfigClause := fun hkind =>
      Bool.eq_false_iff.1 hnot (Tree.isNodeOf_iff.2 ⟨hn, hkind⟩)
    obtain hq | hb | ⟨-, hk'⟩ := @DeclarationKind.isQuiet_of_content .conditionalBlock _ hcontent
    · exact hq
    · cases hb
    · exact absurd hk' hclause
  rw [declaredIn_below, branchScopes_eq, preorderOfScopes_eq, Located.childrenWhere]
  generalize hcs : node.children = cs at hquiet ih
  clear hcs
  -- the children go one by one, since a block may have many branches
  induction cs with
  | nil => rfl
  | cons c cs ihcs =>
    have hcs := ihcs (fun d hd => hquiet d (List.mem_cons_of_mem _ hd))
      fun d hd => ih d (List.mem_cons_of_mem _ hd)
    rw [List.flatMap_cons]
    by_cases hc : c.tree.isNodeOf .ifConfigClause = true
    · obtain ⟨hn, hkind⟩ := Tree.isNodeOf_iff.1 hc
      have hscope : c.kind.isScope = true := by rw [Located.kind, hkind]; rfl
      rw [List.filter_cons_of_pos (by simpa using hc), List.map_cons, List.flatMap_cons,
        List.flatMap_append, List.map_append, hcs, declaredIn_scope hn hscope,
        ← ih c List.mem_cons_self hn hkind, preorderOfAll_eq]
      rfl
    · rw [List.filter_cons_of_neg (by simpa using hc), hcs,
        hquiet c List.mem_cons_self (by simpa using hc), List.nil_append]

/-! ## scopes -/

theorem facts_flatMap_preorder (fs : List Facts) (ss : List Scope) :
    ((fs.map fun f => mk f ss).flatMap preorder).map (·.facts) =
      fs.flatMap fun f => f :: (preorderOfScopes ss).map (·.facts) := by
  induction fs with
  | nil => rfl
  | cons f fs ih =>
    rw [List.map_cons, List.flatMap_cons, List.map_append, ih, List.flatMap_cons, preorder]
    rfl

/-- The declarations of a node declare what the node and the open declaration nodes below it
declare, if its scopes hold what is declared below it. -/
theorem facts_ofNode {above : List Located} {o : Option DeclarationKind} {k : DeclarationKind}
    {node : Located} {ss : List Scope}
    (hss : (preorderOfScopes ss).map (·.facts) = declaredIn (below above node))
    (hnone : k = .variable ∨ k = .enumCase → ss = []) :
    (((Facts.allOfNode o k node).map fun f => mk f ss).flatMap preorder).map (·.facts) =
      Facts.allOfNode o k node ++ declaredIn (below above node) := by
  rw [facts_flatMap_preorder, ← hss]
  by_cases hk : k = .variable ∨ k = .enumCase
  · rw [hnone hk, preorderOfScopes, List.map_nil, List.append_nil]
    exact List.flatMap_singleton' _
  · rw [not_or] at hk
    rw [allOfNode_eq_singleton hk.1 hk.2, List.flatMap_singleton, List.singleton_append]

theorem owner?_of_layer {node block : Located} {above : List Located}
    (h : block.kind.isScopeLayer = true) : Site.owner? ⟨node, block :: above⟩ =
      Site.owner? ⟨node, above⟩ := by
  rw [owner?, owner?, List.find?_cons, h]
  rfl

theorem owner?_of_declaration {node around : Located} {above : List Located}
    {k : DeclarationKind} (hk : around.kind = k.node) (hlayer : k.node.isScopeLayer = false) :
    Site.owner? ⟨node, around :: above⟩ = some k := by
  rw [owner?, List.find?_cons, hk, hlayer]
  simp [hk]

/-- The scopes of a declaration declare what its node declares below itself, if each block below
it does, once the owner of what stands in the block is known. -/
theorem facts_scopesOf {above : List Located} {o : Option DeclarationKind} {k : DeclarationKind}
    {node : Located} (hk : node.kind = k.node) (hs : node.tree.Shaped)
    (ho : ∀ n, Site.owner? ⟨n, above⟩ = o)
    (ih : ∀ o', ∀ block ∈ node.children, block.kind.isScope = true →
      (∀ n, Site.owner? ⟨n, block :: node :: above⟩ = o') → Faithful (node :: above) o' block) :
    (preorderOfScopes (scopesOf .default o k node fun o b _ => collect .default o b)).map
        (·.facts) = declaredIn (below above node) := by
  unfold scopesOf
  by_cases hcond : k = .conditionalBlock
  · subst hcond
    rw [if_pos rfl]
    refine facts_branchScopes hk hs fun block hmem hnode hblock => ?_
    refine ih o block hmem (by rw [hblock]; rfl) fun n => ?_
    rw [owner?_of_layer (by rw [hblock]; rfl), owner?_of_layer (by rw [hk]; rfl), ho]
  · rw [if_neg hcond]
    refine facts_memberScopes hk hcond hs fun block hmem hnode hblock => ?_
    have hcontent := Located.kind_mem_content hs hmem hnode
    rw [hk] at hcontent
    have hb : k.block? = some block.kind := by
      obtain hq | hb | ⟨hcond', -⟩ := DeclarationKind.isQuiet_of_content hcontent
      · exact absurd hq (Bool.eq_false_iff.1 (Kind.isQuiet_of_isScope hblock))
      · exact hb
      · exact absurd hcond' hcond
    obtain ⟨hlayer, hnolayer⟩ := DeclarationKind.isScopeLayer_of_block? hb
    refine ih (some k) block hmem hblock fun n => ?_
    rw [owner?_of_layer hlayer, owner?_of_declaration hk hnolayer]

/-- What is in no block of accessors is in none of a scope, and of a declaration, either. -/
theorem open_cons {above : List Located} {block : Located}
    (hopen : above.any (·.kind == .accessorBlock) = false) (hk : block.kind ≠ .accessorBlock) :
    (block :: above).any (·.kind == .accessorBlock) = false := by
  rw [List.any_cons, hopen]
  simpa using hk

/-- What an open declaration node makes, with the scopes below it, declares what the node and the
open declaration nodes below it declare, if each block below it does. -/
theorem facts_of_declaration {above : List Located} {o : Option DeclarationKind}
    {k : DeclarationKind} {node : Located} (hn : node.tree.isNode = true)
    (hk : DeclarationKind.ofNode? node.kind = some k) (hs : node.tree.Shaped)
    (hopen : above.any (·.kind == .accessorBlock) = false)
    (ho : ∀ n, Site.owner? ⟨n, above⟩ = o)
    (ih : ∀ o', ∀ block ∈ node.children, block.kind.isScope = true →
      (∀ n, Site.owner? ⟨n, block :: node :: above⟩ = o') → Faithful (node :: above) o' block) :
    (((Facts.allOfNode o k node).map fun f =>
        mk f (scopesOf .default o k node fun o b _ => collect .default o b)).flatMap preorder).map
          (·.facts) = declaredIn (nodesIn above node.start node.tree) := by
  have hknode := DeclarationKind.node_of_ofNode? hk
  have hdecl : node.kind.isDeclaration = true := by
    rw [← DeclarationKind.isSome_ofNode?, hk]
    rfl
  have hnodeopen : isOpenDeclaration ⟨node, above⟩ = true := by
    simp only [isOpenDeclaration, isOpen, hdecl, hopen]
    rfl
  have hdeclared : declared ⟨node, above⟩ = Facts.allOfNode o k node := by
    simp only [declared, hk, ho]
  rw [nodesIn_node _ hn, declaredIn_cons, hnodeopen, if_pos rfl, hdeclared]
  refine facts_ofNode (facts_scopesOf hknode hs ho ih) ?_
  -- variables and enum cases open no scopes
  rintro (rfl | rfl) <;> rfl

/-- Collecting the declarations of a scope finds what the open declaration nodes below it
declare, in document order. -/
theorem facts_collect {above : List Located} {o : Option DeclarationKind} {scope : Located}
    (hk : scope.kind.isScope = true) (hs : scope.tree.Shaped)
    (hopen : above.any (·.kind == .accessorBlock) = false)
    (ho : ∀ node, Site.owner? ⟨node, scope :: above⟩ = o) : Faithful above o scope := by
  induction hsize : sizeOf scope.tree using Nat.strongRecOn generalizing scope above o with
  | ind m ih =>
    subst hsize
    have hscope : scope.kind ≠ .accessorBlock := by
      intro h
      rw [h] at hk
      cases hk
    have hscopeopen := open_cons hopen hscope
    rw [Faithful, collect_eq, preorderOfAll_eq, List.flatMap_assoc, List.map_flatMap,
      declaredIn_below]
    refine List.flatMap_congr fun c hc => ?_
    have hcs := Located.shaped_of_mem hs hc
    have hcsize := Located.sizeOf_tree_lt_of_mem hc
    unfold ofNode
    cases hd : DeclarationKind.ofNode? c.kind with
    | none =>
      refine (declaredIn_of_quiet _ hcs fun hn => ?_).symm
      have hnot : c.kind.isDeclaration = false := by
        rw [← DeclarationKind.isSome_ofNode?, hd]
        rfl
      obtain hq | hdecl := Kind.isQuiet_of_scope hk (Located.kind_mem_content hs hc hn)
      · exact hq
      · rw [hnot] at hdecl
        cases hdecl
    | some k =>
      by_cases hn : c.tree.isNode = true
      · have hdeclaration : c.kind ≠ .accessorBlock := by
          intro h
          rw [h] at hd
          cases hd
        have hcopen := open_cons hscopeopen hdeclaration
        -- every scope below holds what is declared in it, by induction on the size
        have hih (o' : Option DeclarationKind) (block : Located) (hmem : block ∈ c.children)
            (hblock : block.kind.isScope = true)
            (ho' : ∀ node, Site.owner? ⟨node, block :: c :: scope :: above⟩ = o') :
            Faithful (c :: scope :: above) o' block :=
          ih _ (Nat.lt_trans (Located.sizeOf_tree_lt_of_mem hmem) hcsize) hblock
            (Located.shaped_of_mem hcs hmem) hcopen ho' rfl
        rw [← facts_of_declaration hn hd hcs hscopeopen ho hih]
        simp [hn, Config.isEnabled, Config.default]
      · cases ht : c.tree with
        | node j cs => simp [ht, Tree.isNode] at hn
        | token j x => simp [Tree.isNode, nodesIn, declaredIn]

/-- The scopes that a declaration opens are collected from blocks below its node, and at most
one of them holds members. -/
theorem scopesOf_collect {c : Config} {o : Option DeclarationKind} {k : DeclarationKind}
    {node : Located} {ss : List Scope}
    (h : scopesOf c o k node (fun o b _ => collect c o b) = ss) :
    (ss.filter (·.isMembers)).length ≤ 1 ∧
      ∀ s ∈ ss, ∃ o', ∃ block ∈ node.children, s.declarations = collect c o' block := by
  subst h
  unfold scopesOf
  split
  · rw [branchScopes_eq]
    refine ⟨?_, fun s hs => ?_⟩
    · rw [List.filter_eq_nil_iff.2]
      · exact Nat.zero_le _
      · intro s hs
        obtain ⟨clause, -, rfl⟩ := List.mem_map.1 hs
        simp [Scope.isMembers, Scope.head]
    · obtain ⟨clause, hclause, rfl⟩ := List.mem_map.1 hs
      exact ⟨o, clause, (List.mem_filter.1 hclause).1, rfl⟩
  · rw [memberScopes_eq]
    cases c.block? k with
    | none => exact ⟨Nat.zero_le _, by simp⟩
    | some b =>
      rw [Option.bind_some]
      cases hblock : node.child? (Tree.isNodeOf b) with
      | none => exact ⟨Nat.zero_le _, by simp⟩
      | some block =>
        refine ⟨List.length_filter_le _ _, fun s hs => ?_⟩
        obtain rfl := List.mem_singleton.1 hs
        exact ⟨some k, block, List.mem_of_find?_eq_some hblock, rfl⟩

theorem isPlain_of_mem_collect (c : Config) (o : Option DeclarationKind) (scope : Located) :
    ∀ e ∈ preorderOfAll (collect c o scope), e.IsPlain := by
  induction hsize : sizeOf scope.tree using Nat.strongRecOn generalizing scope o with
  | ind m ih =>
    subst hsize
    intro e he
    rw [preorderOfAll_eq, List.mem_flatMap] at he
    obtain ⟨d, hd, he⟩ := he
    rw [collect_eq, List.mem_flatMap] at hd
    obtain ⟨child, hchild, hd⟩ := hd
    unfold ofNode at hd
    split at hd
    · cases hd
    · next k _ =>
      split at hd
      · obtain ⟨f, -, rfl⟩ := List.mem_map.1 hd
        obtain ⟨hplain, hblocks⟩ := scopesOf_collect (c := c) (o := o) (k := k) rfl
        rw [preorder_eq, List.mem_cons, List.mem_flatMap] at he
        obtain rfl | ⟨d', hd', he⟩ := he
        · exact hplain
        · obtain ⟨s, hs, hd'⟩ := List.mem_flatMap.1 hd'
          obtain ⟨o', block, hblock, hdecls⟩ := hblocks s hs
          have hlt := Nat.lt_trans (Located.sizeOf_tree_lt_of_mem hblock)
            (Located.sizeOf_tree_lt_of_mem hchild)
          refine ih _ hlt o' block rfl e ?_
          rw [preorderOfAll_eq, List.mem_flatMap]
          exact ⟨d', hdecls ▸ hd', he⟩
      · cases hd

end Declaration

/-! ## source files -/

namespace Site

theorem shaped_of_mem_nodesIn {above : List Located} {start : Nat} {t : Tree} (ht : t.Shaped)
    {s : Site} (h : s ∈ nodesIn above start t) : s.node.tree.Shaped :=
  (of_mem_nodesIn (fun _ _ hnode _ hc => hnode.2.mem hc) ht h).2

/-- The nodes that a declaration stands for each: the bindings of a statement of variables, the
elements of a list of enum cases, else the node itself. -/
def declaring (s : Site) : List Located :=
  match s.node.kind with
  | .variableDecl => s.node.children.flatMap (Located.childrenWhere (Tree.isNodeOf .patternBinding))
  | .enumCaseDecl => s.node.childrenWhere (Tree.isNodeOf .enumCaseElement)
  | _ => [s.node]

/-- The bindings of a statement of variables are all in one list. -/
theorem childrenWhere_patternBinding {node : Located} (hk : node.kind = .variableDecl)
    (hs : node.tree.Shaped) :
    node.children.flatMap (Located.childrenWhere (Tree.isNodeOf .patternBinding)) =
      ((node.child? (Tree.isNodeOf .patternBindingList)).map
        (Located.childrenWhere (Tree.isNodeOf .patternBinding))).getD [] := by
  refine Located.flatMap_child? ?_ _ fun c hc hnot => ?_
  · cases ht : node.tree with
    | token j x => simp [Tree.children, Tree.kinds]
    | node j cs =>
      rw [ht] at hs
      obtain rfl : j = .variableDecl := by rw [← hk, Located.kind, ht]; rfl
      obtain hzero | hpos := Nat.eq_zero_or_pos ((Tree.kinds cs).count .patternBindingList)
      · exact hzero.trans_le (Nat.zero_le _)
      · exact (hs.1 _ (List.count_pos_iff.1 hpos)).resolve_left (by decide)
  · rw [Located.childrenWhere, List.filter_eq_nil_iff]
    intro b hb hbinding
    obtain ⟨hbn, hbk⟩ := Tree.isNodeOf_iff.1 hbinding
    have hcn := Located.isNode_of_mem hb
    have hck := Located.kind_mem_content hs hc hcn
    have hbk' := Located.kind_mem_content (Located.shaped_of_mem hs hc) hb hbn
    rw [hk] at hck
    have hbkind : b.kind = .patternBinding := hbk
    rw [hbkind] at hbk'
    have hlist : c.kind ≠ .patternBindingList := fun h =>
      Bool.eq_false_iff.1 hnot (Tree.isNodeOf_iff.2 ⟨hcn, h⟩)
    have hall : ∀ j ∈ (Kind.content .variableDecl).once ++ (Kind.content .variableDecl).many,
        j ≠ .patternBindingList → Kind.patternBinding ∉ j.content.once ++ j.content.many := by
      decide
    exact hall _ hck hlist hbk'

/-- An open declaration node declares something once at each of its bindings or enum cases, or
once where it starts itself. -/
theorem map_position_declared {s : Site} (hs : s.node.tree.Shaped)
    (hd : s.node.kind.isDeclaration = true) :
    s.declared.map (·.position) = s.declaring.map (·.start) := by
  obtain ⟨k, hk⟩ := Option.isSome_iff_exists.1
    ((DeclarationKind.isSome_ofNode? s.node.kind).trans hd)
  have hkind := DeclarationKind.node_of_ofNode? hk
  rw [declared, declaring, hk]
  by_cases hv : k = .variable
  · subst hv
    simp only [hkind, DeclarationKind.node]
    rw [childrenWhere_patternBinding hkind hs]
    simp only [Facts.allOfNode, Facts.ofBindings]
    cases s.node.child? (Tree.isNodeOf .patternBindingList) with
    | none => rfl
    | some list => simp [Facts.ofBinding]
  · by_cases he : k = .enumCase
    · subst he
      simp only [hkind, DeclarationKind.node, Facts.allOfNode, Facts.ofElements, List.map_map]
      rfl
    · dsimp only
      rw [Declaration.allOfNode_eq_singleton hv he, hkind]
      cases k <;> first | rfl | contradiction

end Site

/-- The declarations of a source file, in the order in which they are found, are what its open
declaration nodes declare, in document order. -/
theorem facts_declarations (source : String) :
    (Declaration.preorderOfAll (Analysis.ofSource .default source).declarations).map (·.facts) =
      (Site.openDeclarations (parse source).tree).flatMap Site.declared := by
  have hcollect : Declaration.Faithful [] none ⟨(parse source).tree, 0⟩ :=
    Declaration.facts_collect rfl (shaped_parse source) rfl fun _ => rfl
  have hscope := @Declaration.declaredIn_scope [] ⟨(parse source).tree, 0⟩ rfl rfl
  rw [Declaration.Faithful, ← hscope] at hcollect
  exact hcollect

/-- A walk through a source file, which enters the members of every declaration and the
branches of every conditional block, visits what each declaration node outside of blocks of
accessors declares, once, and nothing else. Such a node declares something at each of its
bindings if it is a statement of variables, at each of its elements if it is a list of enum
cases, and else once, where it starts. -/
theorem walk_visits_each_once (source : String) :
    ((Declaration.walkAll (Analysis.ofSource .default source).declarations).map
        (·.facts)).Perm ((Site.openDeclarations (parse source).tree).flatMap Site.declared) ∧
      ∀ s ∈ Site.openDeclarations (parse source).tree,
        s.declared.map (·.position) = s.declaring.map (·.start) := by
  refine ⟨?_, fun s hs => ?_⟩
  · rw [← facts_declarations]
    exact (Declaration.walkAll_perm _ (Declaration.isPlain_of_mem_collect _ _ _)).map _
  · obtain ⟨hmem, hopen⟩ := List.mem_filter.1 hs
    refine Site.map_position_declared (Site.shaped_of_mem_nodesIn (shaped_parse source) hmem) ?_
    exact (Bool.and_eq_true_iff.1 hopen).1

end SwiftOutline

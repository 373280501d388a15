import SwiftOutline.Tree.Query

/-!
# SwiftOutline.Located

Trees with the place they take in their source, and the nodes around them.

* `Located` — a tree and the offset it starts at;
* `Located.children` — what stands directly below, each part after the one before it;
* `Site` — a node together with the nodes around it;
* `Site.all` — every node of a tree with what is around it, in preorder.
-/

namespace SwiftOutline

/-- A tree and the offset where it starts. -/
structure Located where
  tree : Tree
  start : Nat
  deriving Repr, Inhabited

namespace Located

/-- The bytes that a tree covers; an empty tree stands where it starts. -/
def range (l : Located) : Span := ⟨l.start, l.start + l.tree.size⟩

/-- The kind of the root. -/
def kind (l : Located) : Kind := l.tree.kind

/-- Trees laid one after the other from an offset on. -/
def row (start : Nat) : List Tree → List Located
  | [] => []
  | t :: ts => ⟨t, start⟩ :: row (start + t.size) ts

/-- What stands directly below the root. -/
def children (l : Located) : List Located := row l.start l.tree.children

/-- What stands directly below and is as asked. -/
def childrenWhere (p : Tree → Bool) (l : Located) : List Located :=
  l.children.filter (p ·.tree)

/-- The first that stands directly below and is as asked. -/
def child? (p : Tree → Bool) (l : Located) : Option Located := l.children.find? (p ·.tree)

theorem map_tree_row (start : Nat) (ts : List Tree) : (row start ts).map (·.tree) = ts := by
  induction ts generalizing start with
  | nil => rfl
  | cons t ts ih => simp [row, ih]

@[simp] theorem map_tree_children (l : Located) :
    l.children.map (·.tree) = l.tree.children := map_tree_row _ _

theorem sizeOf_tree_lt_of_mem {l c : Located} (h : c ∈ l.children) :
    sizeOf c.tree < sizeOf l.tree := by
  have hc : c.tree ∈ l.tree.children := by
    rw [← map_tree_children]
    exact List.mem_map_of_mem h
  cases ht : l.tree with
  | token k s => simp [ht, Tree.children] at hc
  | node k cs =>
    rw [ht] at hc
    have := List.sizeOf_lt_of_mem (show c.tree ∈ cs from hc)
    simp only [Tree.node.sizeOf_spec]
    omega

end Located

/-! ## nodes and what is around them -/

/-- A node and the nodes around it, from the innermost one to the root. -/
structure Site where
  node : Located
  above : List Located
  deriving Repr, Inhabited

namespace Site

/-- The root of a tree. -/
def root (t : Tree) : Site := ⟨⟨t, 0⟩, []⟩

/-- The node right above. -/
def parent? (s : Site) : Option Site :=
  match s.above with
  | [] => none
  | node :: above => some ⟨node, above⟩

mutual

/-- Every node of a tree in preorder, with what is around it. -/
def nodesIn (above : List Located) (start : Nat) : Tree → List Site
  | .token .. => []
  | .node k cs =>
    ⟨⟨.node k cs, start⟩, above⟩ :: nodesInAll (⟨.node k cs, start⟩ :: above) start cs

/-- Every node of trees laid one after the other, with what is around it. -/
def nodesInAll (above : List Located) (start : Nat) : List Tree → List Site
  | [] => []
  | t :: ts => nodesIn above start t ++ nodesInAll above (start + t.size) ts

end

/-- Every node of a tree in preorder, with what is around it. -/
def all (t : Tree) : List Site := nodesIn [] 0 t

/-- The nodes of a kind in a tree, in preorder. -/
def allOf (k : Kind) (t : Tree) : List Site := (all t).filter (·.node.kind == k)

end Site

end SwiftOutline

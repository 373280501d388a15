import SwiftOutline.Declaration.Reading

/-!
# SwiftOutline.Declaration.Placement

Reading the declaration that one node of a tree makes, wherever the node stands.

* `Site.owner?` — the kind of declaration that a node's scope belongs to;
* `Misplaced` — why a node makes no declaration: it has the wrong kind, or it is not inside
  the node that it would be a part of;
* `Declaration.ofSite` — the declaration that a node makes.

A variable is made by one binding and an enum case by one element of a list, so these two
need the nodes around them.
-/

namespace SwiftOutline

/-! ## owners -/

/-- Nodes between a declaration and the declaration that owns its scope. -/
def Kind.isScopeLayer : Kind → Bool
  | .memberBlock | .codeBlock | .ifConfigClause | .ifConfigDecl | .patternBindingList
  | .variableDecl | .enumCaseDecl => true
  | _ => false

/-- The kind of declaration that owns the scope around a node; none if the scope belongs to
anything else. -/
def Site.owner? (s : Site) : Option DeclarationKind :=
  (s.above.find? (!·.kind.isScopeLayer)).bind fun n => DeclarationKind.ofNode? n.kind

/-! ## nodes out of place -/

/-- Why a node makes no declaration. -/
inductive Misplaced where
  /-- A node of another kind was expected. -/
  | unexpected (expected found : Kind) (range : Span)
  /-- A part does not stand inside a node of the expected kind. -/
  | detached (expected found : Kind) (range : Span)
  deriving DecidableEq, Repr, Inhabited

namespace Misplaced

/-- Where the node is. -/
def range : Misplaced → Span
  | unexpected _ _ r => r
  | detached _ _ r => r

/-- What is wrong. -/
def message : Misplaced → String
  | unexpected expected found _ => "expected " ++ expected.label ++ ", found " ++ found.label
  | detached expected found _ => found.label ++ " is not inside a " ++ expected.label

/-- What is wrong, said at the node itself. -/
def note : Misplaced → String
  | unexpected expected .. => "this is not a " ++ expected.label
  | detached expected .. => "no enclosing " ++ expected.label

end Misplaced

namespace Site

/-- A site whose node has the expected kind. -/
def expect (k : Kind) (s : Site) : Except Misplaced Site :=
  if s.node.kind = k then .ok s else .error (.unexpected k s.node.kind s.node.range)

/-- The site right above, whose node must have the expected kind for a part below it to be in
its place. -/
def enclosing (part : Located) (k : Kind) (s : Site) : Except Misplaced Site :=
  match s.parent? with
  | none => .error (.detached k part.kind part.range)
  | some p => if p.node.kind = k then .ok p else .error (.detached k part.kind part.range)

end Site

/-! ## declarations -/

namespace Declaration

/-- The variable that a binding makes. -/
def ofBindingSite (s : Site) : Except Misplaced Declaration := do
  let binding ← s.expect .patternBinding
  let list ← binding.enclosing s.node .patternBindingList
  let statement ← list.enclosing s.node .variableDecl
  return mk (.ofBinding statement.owner? statement.node list.node.tree s.node) []

/-- The enum case that an element of a list makes. -/
def ofElementSite (s : Site) : Except Misplaced Declaration := do
  let element ← s.expect .enumCaseElement
  let statement ← element.enclosing s.node .enumCaseDecl
  return mk (.ofElement statement.owner? statement.node s.node) []

/-- The declaration of a kind that a node makes, with all that is below it. -/
def ofSite (k : DeclarationKind) (s : Site) : Except Misplaced Declaration :=
  match k with
  | .variable => ofBindingSite s
  | .enumCase => ofElementSite s
  | _ => do
    let declaration ← s.expect k.node
    return ofDeclarationNode .default declaration.owner? k declaration.node

/-- The variables that a statement makes, one for each binding. -/
def variablesOfSite (s : Site) : Except Misplaced (List Declaration) := do
  let statement ← s.expect .variableDecl
  return (Facts.ofBindings statement.owner? statement.node).map fun f => mk f []

/-- The declarations at the top of a file. -/
def ofFileSite (s : Site) : Except Misplaced (List Declaration) := do
  let file ← s.expect .sourceFile
  return collect .default none file.node

end Declaration

end SwiftOutline

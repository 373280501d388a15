import SwiftOutline.Declaration.Placement

/-!
# SwiftOutline.Declaration.Variable

The variables of a statement, one for each binding. Each knows the bindings beside it, and finds
out each of its properties when it is first asked for it.

* `Variable` — a binding in its statement and what is known of it so far;
* `Variable.ofStatement`, `ofStatementSite`, `ofBindingSite` — the variables that a scope, a
  statement or a binding alone makes;
* `Variable.ask` — one question.
-/

namespace SwiftOutline

namespace Variable

/-- A property of a variable that is found out at most once. -/
inductive Property where
  | name
  | shape
  | initialValue
  | accessors
  | hasSetter
  deriving DecidableEq, Repr

/-- The values that a property takes. -/
def Property.Value : Property → Type
  | name => String
  | shape => TypeShape
  | initialValue => Option String
  | accessors => List Accessor
  | hasSetter => Bool

end Variable

/-- A binding in its statement and what is known of it so far. -/
structure Variable where
  owner : Option DeclarationKind
  statement : Located
  /-- The bindings of the statement. -/
  list : Tree
  binding : Located
  known : (p : Variable.Property) → Option p.Value

namespace Variable

/-- Nothing is known yet of a binding. -/
def start (owner : Option DeclarationKind) (statement : Located) (list : Tree)
    (binding : Located) : Variable :=
  ⟨owner, statement, list, binding, fun _ => none⟩

/-- What a variable is as a declaration. -/
def facts (v : Variable) : Facts := .ofBinding v.owner v.statement v.list v.binding

/-- What its binding says of a variable. -/
def details (v : Variable) : Binding where
  range := v.binding.range
  shape := Facts.bindingShape v.list v.binding.tree
  initialValue := v.binding.tree.initializer?
  accessors := Accessor.ofOwner v.binding.tree

/-- The value of a property by the nodes alone. -/
def find (v : Variable) : (p : Property) → p.Value
  | .name => v.facts.name
  | .shape => v.details.shape
  | .initialValue => v.details.initialValue
  | .accessors => v.details.accessors
  | .hasSetter => v.facts.hasSetter v.details

/-- The variable that knows a value of a property too. -/
def learn (v : Variable) (p : Property) (x : p.Value) : Variable :=
  { v with known := fun q => if h : p = q then some (h ▸ x) else v.known q }

/-- Ask for a property. -/
def ask (v : Variable) (p : Property) : p.Value × Variable :=
  match v.known p with
  | some x => (x, v)
  | none => (v.find p, v.learn p (v.find p))

/-! ## making variables -/

/-- The variables of a statement in a scope. -/
def ofStatement (owner : Option DeclarationKind) (node : Located) : List Variable :=
  match node.child? (Tree.isNodeOf .patternBindingList) with
  | none => []
  | some list =>
    (list.childrenWhere (Tree.isNodeOf .patternBinding)).map (start owner node list.tree)

/-- The variables of a statement, wherever it stands. -/
def ofStatementSite (s : Site) : Except Misplaced (List Variable) := do
  let statement ← s.expect .variableDecl
  return ofStatement statement.owner? statement.node

/-- The variable of a binding, wherever it stands. -/
def ofBindingSite (s : Site) : Except Misplaced Variable := do
  let binding ← s.expect .patternBinding
  let list ← binding.enclosing s.node .patternBindingList
  let statement ← list.enclosing s.node .variableDecl
  return start statement.owner? statement.node list.node.tree s.node

/-- The declarations that variables are. -/
def declarations (vs : List Variable) : List Declaration :=
  vs.map fun v => .mk v.facts []

theorem facts_start (owner : Option DeclarationKind) (statement : Located) (list : Tree)
    (binding : Located) :
    (start owner statement list binding).facts = .ofBinding owner statement list binding := rfl

theorem map_facts_ofStatement (owner : Option DeclarationKind) (node : Located) :
    (ofStatement owner node).map facts = Facts.ofBindings owner node := by
  unfold ofStatement Facts.ofBindings
  cases node.child? (Tree.isNodeOf .patternBindingList) with
  | none => rfl
  | some list => simp [Function.comp_def, facts_start]

end Variable

end SwiftOutline

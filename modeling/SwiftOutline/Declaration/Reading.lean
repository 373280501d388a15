import SwiftOutline.Declaration
import SwiftOutline.Located

/-!
# SwiftOutline.Declaration.Reading

Reading declarations off a syntax tree.

* `Facts.ofNode` — what is known of a declaration by its node;
* `Facts.ofBinding`, `Facts.ofElement` — the same for one binding of a variable statement
  and one element of a list of enum cases, each of which is a declaration of its own;
* `Declaration.collect` — the declarations of a scope, with all that is below them: one list in the
  order of the nodes, from which the collections by kind are filtered.
-/

namespace SwiftOutline

/-! ## details -/

namespace Precedence

/-- No properties. -/
def empty : Precedence := ⟨[], [], none, false⟩

/-- One more property; a later one replaces an earlier one of its name. -/
def step (p : Precedence) (property : Tree) : Precedence :=
  match property.words with
  | [] => p
  | label :: rest =>
    let values :=
      (rest.filter fun w => w.kind != .colon && w.kind != .comma).map (·.text)
    match label.text with
    | "higherThan" => { p with higherThan := values }
    | "lowerThan" => { p with lowerThan := values }
    | "associativity" =>
      { p with associativity := values.head?.bind Associativity.ofWord? }
    | "assignment" => { p with assignment := values.head? == some "true" }
    | _ => p

/-- The properties of a precedence group. -/
def ofDeclaration (t : Tree) : Precedence :=
  (t.childrenOf .precedenceGroupAttribute).foldl step empty

end Precedence

namespace Detail

/-- The shape of the type that stands after an equals sign. -/
def initializedShape? (t : Tree) : Option TypeShape :=
  (t.childOf? .typeInitializer).map TypeShape.ofWrapper

/-- The first precedence group that an operator names. -/
def precedenceGroup? (t : Tree) : Option String :=
  (t.childOf? .precedenceDesignation).bind fun d =>
    (d.words.find? (·.kind == .identifier)).map (·.text)

/-- What is known of a declaration by its kind. A variable statement and a list of enum cases
have no detail of their own. -/
def ofNode (k : DeclarationKind) (t : Tree) : Detail :=
  match k with
  | .associatedType => associatedType (initializedShape? t)
  | .typeAlias => typeAlias ((initializedShape? t).getD .empty)
  | .extensionOfType => extensionOfType (TypeShape.ofWrapper t)
  | .function => function (Signature.ofDeclaration t) (t.childOf? .codeBlock).isSome
  | .initializer =>
    initializer (Signature.ofDeclaration t) (t.hasToken .question || t.hasToken .bang)
  | .subscript =>
    subscript (Parameter.below .parameterClause t) (t.result?.getD .empty)
      (Accessor.ofOwner t)
  | .importOfModule => importOfModule ((t.words[1]?).map (·.text))
  | .operator => operator (precedenceGroup? t)
  | .precedenceGroup => precedenceGroup (Precedence.ofDeclaration t)
  | _ => plain

end Detail

/-! ## facts -/

namespace Facts

/-- The condition of a branch. -/
def condition? (clause : Tree) : Option String :=
  (clause.childOf? .ifConfigCondition).map Tree.normalizedText

/-- The name of a declaration by its kind and node. -/
def nameOf (k : DeclarationKind) (t : Tree) : String :=
  match k with
  | .conditionalBlock => ((t.childOf? .ifConfigClause).bind condition?).getD ""
  | .extensionOfType => (t.type?.map Tree.normalizedText).getD ""
  | .initializer => "init"
  | .deinitializer => "deinit"
  | .subscript => "subscript"
  | .importOfModule => ((t.childOf? .importPath).map Tree.normalizedText).getD ""
  | .precedenceGroup => ((t.childOf? .name).map Tree.normalizedText).getD ""
  | _ => t.declaredName

/-- The keyword of a declaration by its kind and node; the only word right below a
conditional block is the one that closes it. -/
def keywordOf (k : DeclarationKind) (t : Tree) : String :=
  if k = .conditionalBlock then "#if" else t.keyword

/-- What is known of a declaration by its node. -/
def ofNode (owner : Option DeclarationKind) (k : DeclarationKind) (node : Located) : Facts where
  kind := k
  name := nameOf k node.tree
  keyword := keywordOf k node.tree
  position := node.start
  range := node.range
  modifiers := Modifiers.ofDeclaration node.tree
  attributes := Attribute.ofDeclaration node.tree
  genericParameters := GenericParameter.ofDeclaration node.tree
  genericRequirements := GenericRequirement.ofDeclaration node.tree
  inheritance := inheritedTypes node.tree
  owner := owner
  detail := Detail.ofNode k node.tree

/-- The name that a binding binds, or its names in parentheses. -/
def patternName (binding : Tree) : String :=
  let pattern? := binding.children.find? fun t =>
    t.isNodeOf .identifierPattern || t.isNodeOf .tuplePattern
  (pattern?.map fun t => unescape t.normalizedText).getD ""

/-- The type that a binding declares, or that the first binding with a type declares. -/
def bindingShape (list binding : Tree) : TypeShape :=
  let sibling? := (list.childrenOf .patternBinding).findSome? (Tree.childOf? .annotatedType)
  match (binding.childOf? .annotatedType).or sibling? with
  | some clause => TypeShape.ofWrapper clause
  | none => .empty

/-- What is known of one binding of a variable statement. -/
def ofBinding (owner : Option DeclarationKind) (node : Located) (list : Tree)
    (binding : Located) : Facts :=
  { ofNode owner .variable node with
    name := patternName binding.tree
    position := binding.start
    detail := .variable
      { range := binding.range
        shape := bindingShape list binding.tree
        initialValue := binding.tree.initializer?
        accessors := Accessor.ofOwner binding.tree } }

/-- What is known of one element of a list of enum cases. -/
def ofElement (owner : Option DeclarationKind) (node element : Located) : Facts :=
  { ofNode owner .enumCase node with
    name := element.tree.declaredName
    position := element.start
    detail := .enumCase element.range (Parameter.below .enumCaseParameterClause element.tree)
      element.tree.initializer? }

/-- What is known of every binding of a variable statement. -/
def ofBindings (owner : Option DeclarationKind) (node : Located) : List Facts :=
  match node.child? (Tree.isNodeOf .patternBindingList) with
  | none => []
  | some list =>
    (list.childrenWhere (Tree.isNodeOf .patternBinding)).map (ofBinding owner node list.tree)

/-- What is known of every element of a list of enum cases. -/
def ofElements (owner : Option DeclarationKind) (node : Located) : List Facts :=
  (node.childrenWhere (Tree.isNodeOf .enumCaseElement)).map (ofElement owner node)

/-- What is known of the declarations that a node makes: one for each binding or enum case,
else one. -/
def allOfNode (owner : Option DeclarationKind) (k : DeclarationKind) (node : Located) :
    List Facts :=
  match k with
  | .variable => ofBindings owner node
  | .enumCase => ofElements owner node
  | _ => [ofNode owner k node]

end Facts

/-! ## the forest -/

namespace Declaration

/-- The declarations of a block below a node, given the owner they get. -/
abbrev Inner (node : Located) : Type :=
  Option DeclarationKind → (block : Located) → block ∈ node.children → List Declaration

/-- The scope of members that a declaration opens, if it opens one. -/
def memberScopes (c : Config) (k : DeclarationKind) (node : Located) (inner : Inner node) :
    List Scope :=
  match c.block? k with
  | none => []
  | some b =>
    match h : node.child? (Tree.isNodeOf b) with
    | none => []
    | some block => [.mk .members (inner (some k) block (List.mem_of_find?_eq_some h))]

/-- The branches of a conditional block. What they declare has the owner of the block. -/
def branchScopes (owner : Option DeclarationKind) (node : Located) (inner : Inner node) :
    List Scope :=
  (node.children.attach.filter (·.1.tree.isNodeOf .ifConfigClause)).map fun ⟨clause, h⟩ =>
    .mk (.branch clause.tree.keyword (Facts.condition? clause.tree) clause.range)
      (inner owner clause h)

/-- The scopes that a declaration of a kind opens. -/
def scopesOf (c : Config) (owner : Option DeclarationKind) (k : DeclarationKind)
    (node : Located) (inner : Inner node) : List Scope :=
  if k = .conditionalBlock then branchScopes owner node inner else memberScopes c k node inner

/-- The declarations that a node makes, if its kind is collected. -/
def ofNode (c : Config) (owner : Option DeclarationKind) (node : Located)
    (inner : Inner node) : List Declaration :=
  match DeclarationKind.ofNode? node.kind with
  | none => []
  | some k =>
    if node.tree.isNode && c.isEnabled k then
      (Facts.allOfNode owner k node).map fun f => mk f (scopesOf c owner k node inner)
    else []

/-- The declarations directly in a scope, each with all that is below it. -/
def collect (c : Config) (owner : Option DeclarationKind) (scope : Located) :
    List Declaration :=
  scope.children.attach.flatMap fun ⟨child, hc⟩ =>
    ofNode c owner child fun o block hb =>
      have := Located.sizeOf_tree_lt_of_mem hc
      have := Located.sizeOf_tree_lt_of_mem hb
      collect c o block
  termination_by sizeOf scope.tree

theorem collect_eq (c : Config) (owner : Option DeclarationKind) (scope : Located) :
    collect c owner scope =
      scope.children.flatMap fun child =>
        ofNode c owner child fun o block _ => collect c o block := by
  rw [collect, List.flatMap_subtype (g := fun child =>
    ofNode c owner child fun o block _ => collect c o block) (fun _ _ => rfl),
    List.unattach_attach]

/-- The declaration that a node of a kind makes, with all that is below it. -/
def ofDeclarationNode (c : Config) (owner : Option DeclarationKind) (k : DeclarationKind)
    (node : Located) : Declaration :=
  mk (Facts.ofNode owner k node) (scopesOf c owner k node fun o block _ => collect c o block)

/-- The declarations of a source file. -/
def collectFile (c : Config) (file : Tree) : List Declaration := collect c none ⟨file, 0⟩

end Declaration

end SwiftOutline

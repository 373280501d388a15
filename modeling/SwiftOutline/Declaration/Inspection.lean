import SwiftOutline.Declaration.Placement

/-!
# SwiftOutline.Declaration.Inspection

Looking at the properties of one declaration node, each of which is found out at most once:
the first request for a property decides its value, and every later request gets that value,
whatever it asks with.

* `Property` — the properties, with the type of their values and of what they are asked with;
* `Inspection` — a node and a cell for each property;
* `Inspection.find` — what is done to find out a property, closures that are run included;
* `Inspection.ask` — one request.
-/

namespace SwiftOutline

/-- A property of a declaration that is found out at most once. -/
inductive Property where
  | name
  | keyword
  | modifiers
  | attributes
  | genericParameters
  | genericRequirements
  | inheritance
  | members
  deriving DecidableEq, Repr

namespace Property

/-- The values that a property takes. A node that lacks the block asked for has no members. -/
def Value : Property → Type
  | name => String
  | keyword => String
  | modifiers => Modifiers
  | attributes => List Attribute
  | genericParameters => List GenericParameter
  | genericRequirements => List GenericRequirement
  | inheritance => List String
  | members => Option (List Declaration)

/-- What a property is asked with: a name with the closure that gives it, members with the kind of
their block and the owner they get. -/
def Request : Property → Type
  | name => Located → String
  | members => Kind × DeclarationKind
  | _ => Unit

end Property

/-- A node and what is known of it so far: a cell for each property, empty until the property is
first asked for. -/
structure Inspection where
  node : Located
  owner : Option DeclarationKind
  config : Config
  name? : Option String
  keyword? : Option String
  modifiers? : Option Modifiers
  attributes? : Option (List Attribute)
  genericParameters? : Option (List GenericParameter)
  genericRequirements? : Option (List GenericRequirement)
  inheritance? : Option (List String)
  /-- That there is no block to look into is known once it was looked for. -/
  members? : Option (Option (List Declaration))
  /-- How many closures that give a name were run. -/
  namings : Nat

namespace Inspection

/-- Nothing is known yet of a node in a scope. -/
def start (node : Located) (owner : Option DeclarationKind) (config : Config) : Inspection where
  node := node
  owner := owner
  config := config
  name? := none
  keyword? := none
  modifiers? := none
  attributes? := none
  genericParameters? := none
  genericRequirements? := none
  inheritance? := none
  members? := none
  namings := 0

/-- Start with a node of an expected kind; its owner is found in the tree. -/
def startAt (k : Kind) (s : Site) : Except Misplaced Inspection := do
  let site ← s.expect k
  return start site.node site.owner? .default

/-! ## cells -/

/-- What the cell of a property holds. -/
def known (i : Inspection) : (p : Property) → Option p.Value
  | .name => i.name?
  | .keyword => i.keyword?
  | .modifiers => i.modifiers?
  | .attributes => i.attributes?
  | .genericParameters => i.genericParameters?
  | .genericRequirements => i.genericRequirements?
  | .inheritance => i.inheritance?
  | .members => i.members?

/-- The inspection with a value in the cell of a property. -/
def fill (i : Inspection) : (p : Property) → p.Value → Inspection
  | .name, v => { i with name? := some v }
  | .keyword, v => { i with keyword? := some v }
  | .modifiers, v => { i with modifiers? := some v }
  | .attributes, v => { i with attributes? := some v }
  | .genericParameters, v => { i with genericParameters? := some v }
  | .genericRequirements, v => { i with genericRequirements? := some v }
  | .inheritance, v => { i with inheritance? := some v }
  | .members, v => { i with members? := some v }

@[simp] theorem known_fill_self (i : Inspection) (p : Property) (v : p.Value) :
    (i.fill p v).known p = some v := by
  cases p <;> rfl

/-- Filling a cell leaves the others as they are. -/
theorem known_fill_of_ne (i : Inspection) {p q : Property} (v : p.Value) (h : p ≠ q) :
    (i.fill p v).known q = i.known q := by
  cases p <;> cases q <;> first | rfl | exact absurd rfl h

@[simp] theorem node_fill (i : Inspection) (p : Property) (v : p.Value) :
    (i.fill p v).node = i.node := by
  cases p <;> rfl

@[simp] theorem config_fill (i : Inspection) (p : Property) (v : p.Value) :
    (i.fill p v).config = i.config := by
  cases p <;> rfl

@[simp] theorem namings_fill (i : Inspection) (p : Property) (v : p.Value) :
    (i.fill p v).namings = i.namings := by
  cases p <;> rfl

/-! ## requests -/

/-- Run a closure on the node for its name. That is counted. -/
def runClosure (i : Inspection) (resolve : Located → String) : String × Inspection :=
  (resolve i.node, { i with namings := i.namings + 1 })

/-- Find out a property by the node. -/
def find (i : Inspection) : (p : Property) → p.Request → p.Value × Inspection
  | .name, resolve => i.runClosure resolve
  | .keyword, _ => (i.node.tree.keyword, i)
  | .modifiers, _ => (Modifiers.ofDeclaration i.node.tree, i)
  | .attributes, _ => (Attribute.ofDeclaration i.node.tree, i)
  | .genericParameters, _ => (GenericParameter.ofDeclaration i.node.tree, i)
  | .genericRequirements, _ => (GenericRequirement.ofDeclaration i.node.tree, i)
  | .inheritance, _ => (inheritedTypes i.node.tree, i)
  | .members, (block, owner) =>
    ((i.node.child? (Tree.isNodeOf block)).map (Declaration.collect i.config (some owner)), i)

/-- Ask for a property: it is found out if its cell is empty, and then put there. -/
def ask (i : Inspection) (p : Property) (request : p.Request) : p.Value × Inspection :=
  match i.known p with
  | some v => (v, i)
  | none =>
    let (v, j) := i.find p request
    (v, j.fill p v)

end Inspection

end SwiftOutline

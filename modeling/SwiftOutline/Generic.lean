import SwiftOutline.Tree.Text

/-!
# SwiftOutline.Generic

Generic parameters, the requirements on them, and the types a declaration inherits from.
-/

namespace SwiftOutline

/-! ## parameters -/

/-- A generic parameter, the type that bounds it as written, and whether it is a pack. -/
structure GenericParameter where
  name : String
  bound : Option String
  isPack : Bool
  deriving DecidableEq, Repr, Inhabited

namespace GenericParameter

/-- A generic parameter as its node has it. -/
def ofNode (t : Tree) : GenericParameter where
  name := t.declaredName
  bound := t.type?.map Tree.normalizedText
  isPack := t.words.any (·.text == "each")

/-- The generic parameters of a declaration, in order. -/
def ofDeclaration (t : Tree) : List GenericParameter :=
  match t.childOf? .genericParameterClause with
  | some clause => (clause.childrenOf .genericParameter).map ofNode
  | none => []

/-- A generic parameter as it is shown. -/
def text (p : GenericParameter) : String :=
  let pack := if p.isPack then "each " else ""
  match p.bound with
  | some bound => pack ++ p.name ++ ": " ++ bound
  | none => pack ++ p.name

end GenericParameter

/-! ## requirements -/

/-- How the two sides of a requirement relate. -/
inductive Relation where
  | conformance
  | sameType
  deriving DecidableEq, Repr, Inhabited

/-- A requirement on two types, both as written. -/
structure GenericRequirement where
  left : String
  relation : Relation
  right : String
  deriving DecidableEq, Repr, Inhabited

namespace GenericRequirement

/-- A requirement as its node has it. -/
def ofNode (t : Tree) : GenericRequirement :=
  let types := t.typeChildren.map Tree.normalizedText
  { left := types[0]?.getD ""
    relation := if t.hasToken .colon then .conformance else .sameType
    right := types[1]?.getD "" }

/-- The requirements of a declaration, in order. -/
def ofDeclaration (t : Tree) : List GenericRequirement :=
  match t.childOf? .genericWhereClause with
  | some clause => (clause.childrenOf .genericRequirement).map ofNode
  | none => []

/-- A requirement as it is shown. -/
def text (r : GenericRequirement) : String :=
  match r.relation with
  | .conformance => r.left ++ ": " ++ r.right
  | .sameType => r.left ++ " == " ++ r.right

end GenericRequirement

/-! ## inheritance -/

/-- The types that a declaration inherits from or conforms to, as written. -/
def inheritedTypes (t : Tree) : List String :=
  match t.childOf? .inheritanceClause with
  | some clause => (clause.childrenOf .inheritedType).map Tree.normalizedText
  | none => []

end SwiftOutline

import SwiftOutline.Accessor
import SwiftOutline.Declaration.Kind
import SwiftOutline.Generic
import SwiftOutline.Parameter
import SwiftOutline.Unicode.Alphabetic

/-!
# SwiftOutline.Declaration

What is known of declarations, and the forest they form.

* `Facts` — what is known of one declaration: what all kinds share, and a `Detail` by kind;
* `Declaration` and `Scope` — a declaration with the scopes it opens: none, its members, or
  the branches of a conditional block;
* `Declaration.inSourceOrder` — the declarations of a scope by position;
* `Declaration.preorder` — a forest written out, each declaration before what is below it.

A scope is one list of declarations. The eighteen collections by kind that it stands for are that
list filtered by each of the kinds (`ofKind`), all declarations in the order of the collections are
these put behind one another (`grouped`), and the sum of the eighteen lengths is its length.
-/

namespace SwiftOutline

/-! ## details by kind -/

/-- On which side of its operands an operator stands. -/
inductive Fixity where
  | before
  | between
  | after
  deriving DecidableEq, Repr, Inhabited

/-- The label a fixity is shown under. -/
def Fixity.label : Fixity → String
  | before => "Prefix"
  | between => "Infix"
  | after => "Postfix"

/-- How operators of one precedence group themselves. -/
inductive Associativity where
  | left
  | right
  | none
  deriving DecidableEq, Repr, Inhabited

namespace Associativity

/-- The label an associativity is shown under. -/
def label : Associativity → String
  | left => "Left"
  | right => "Right"
  | none => "None"

/-- The associativity that a word names. -/
def ofWord? : String → Option Associativity
  | "left" => some left
  | "right" => some right
  | "none" => some none
  | _ => Option.none

end Associativity

/-- The properties of a precedence group. -/
structure Precedence where
  higherThan : List String
  lowerThan : List String
  associativity : Option Associativity
  assignment : Bool
  deriving DecidableEq, Repr, Inhabited

/-- One binding of a variable statement. -/
structure Binding where
  range : Span
  shape : TypeShape
  initialValue : Option String
  accessors : List Accessor
  deriving Repr, Inhabited

namespace Binding

/-- Whether a binding computes its value rather than storing it. -/
def isComputed (b : Binding) : Bool := b.accessors.any (·.kind.isGetter)

/-- Whether a getter may suspend or throw. -/
def hasEffectfulGetter (b : Binding) : Bool :=
  b.accessors.any fun a => a.kind == .get && a.effects.isEffectful

/-- Whether an accessor gives a setter. -/
def hasSettingAccessor (b : Binding) : Bool := b.accessors.any (·.kind.isSetter)

end Binding

/-- What is known of a declaration by its kind. -/
inductive Detail where
  | plain
  | associatedType (default : Option TypeShape)
  | typeAlias (shape : TypeShape)
  | extensionOfType (shape : TypeShape)
  | function (signature : Signature) (hasBody : Bool)
  | initializer (signature : Signature) (isFailable : Bool)
  | subscript (indices : List Parameter) (result : TypeShape) (accessors : List Accessor)
  | variable (binding : Binding)
  | enumCase (element : Span) (values : List Parameter) (rawValue : Option String)
  | importOfModule (what : Option String)
  | operator (group : Option String)
  | precedenceGroup (precedence : Precedence)
  deriving Repr, Inhabited

/-! ## facts -/

/-- What is known of a declaration. -/
structure Facts where
  kind : DeclarationKind
  name : String
  keyword : String
  position : Nat
  range : Span
  modifiers : Modifiers
  attributes : List Attribute
  genericParameters : List GenericParameter
  genericRequirements : List GenericRequirement
  inheritance : List String
  /-- The kind of declaration that the scope around belongs to; none at the top of a file. -/
  owner : Option DeclarationKind
  detail : Detail
  deriving Repr, Inhabited

namespace Facts

/-- The first type that a class inherits from. -/
def superclass (f : Facts) : Option String := f.inheritance.head?

/-- Whether cases may hold values of their own type. -/
def isIndirect (f : Facts) : Bool := f.modifiers.contains "indirect"

/-- Whether a function belongs to its type rather than to values of it. -/
def isStatic (f : Facts) : Bool := f.modifiers.contains "static" || f.modifiers.contains "class"

/-- Whether an initializer hands over to another one of its class. -/
def isConvenience (f : Facts) : Bool := f.modifiers.contains "convenience"

/-- Whether every subclass has to implement an initializer. -/
def isRequired (f : Facts) : Bool := f.modifiers.contains "required"

/-- Whether a name is one of an operator: its first character starts no identifier. -/
def isOperatorName (name : String) : Bool :=
  match name.toList with
  | [] => false
  | c :: _ => !(Unicode.isAlphabetic c || c == '_' || c == '\x60')

/-- Whether a function implements an operator. -/
def isOperator (f : Facts) : Bool := isOperatorName f.name

/-- The side that an operator stands on; between its operands unless a modifier says else. -/
def fixity (f : Facts) : Fixity :=
  if f.modifiers.contains "prefix" then .before
  else if f.modifiers.contains "postfix" then .after
  else .between

/-- The parts of a text between dots that are not empty. -/
def partsBetweenDots (s : String) : List String :=
  ((s.toList.splitOn '.').filter (!·.isEmpty)).map String.ofList

/-- The parts of the path of an import. -/
def pathComponents (f : Facts) : List String := partsBetweenDots f.name

/-- Whether an import names a part of a module, and no symbol in it. -/
def isSubmodule (f : Facts) : Bool :=
  match f.detail with
  | .importOfModule none => f.pathComponents.length > 1
  | _ => false

/-- Whether an import opens a module for tests. -/
def isTestable (f : Facts) : Bool := f.attributes.any (·.name == "testable")

/-- Whether values may be assigned through a subscript. -/
def isWritable (f : Facts) : Bool :=
  match f.detail with
  | .subscript _ _ accessors => accessors.any (·.kind.isSetter)
  | _ => false

/-- Whether a declaration is a requirement of a protocol. -/
def inProtocol (f : Facts) : Bool := f.owner == some .protocolType

/-- Whether the variable of a binding may be assigned. A getter with effects forbids it, else
an accessor that sets allows it; without either it takes a `var` that no modifier restricts
and no protocol requires. -/
def hasSetter (f : Facts) (b : Binding) : Bool :=
  if b.hasEffectfulGetter then false
  else if b.hasSettingAccessor then true
  else if f.keyword != "var" then false
  else if f.modifiers.anyWithDetail "set" then false
  else !f.inProtocol

end Facts

/-! ## the forest -/

/-- What a scope is to the declaration that opens it. -/
inductive ScopeHead where
  | members
  | branch (keyword : String) (condition : Option String) (range : Span)
  deriving DecidableEq, Repr, Inhabited

mutual

/-- A declaration with the scopes it opens. -/
inductive Declaration where
  | mk (facts : Facts) (scopes : List Scope)

/-- A scope with the declarations in it, in the order in which they were found. -/
inductive Scope where
  | mk (head : ScopeHead) (declarations : List Declaration)

end

namespace Scope

/-- What the scope is to the declaration that opens it. -/
def head : Scope → ScopeHead
  | mk h _ => h

/-- The declarations in a scope. -/
def declarations : Scope → List Declaration
  | mk _ ds => ds

/-- Whether a scope holds members. -/
def isMembers (s : Scope) : Bool := s.head == .members

end Scope

namespace Declaration

instance : Inhabited Declaration := ⟨mk default []⟩

/-- What is known of the declaration. -/
def facts : Declaration → Facts
  | mk f _ => f

/-- The scopes that a declaration opens. -/
def scopes : Declaration → List Scope
  | mk _ ss => ss

/-- The kind of a declaration. -/
def kind (d : Declaration) : DeclarationKind := d.facts.kind

/-- The name of a declaration. -/
def name (d : Declaration) : String := d.facts.name

/-- Where a declaration starts. -/
def position (d : Declaration) : Nat := d.facts.position

/-- The members of a declaration, for one that has a scope of them. -/
def members? (d : Declaration) : Option (List Declaration) :=
  (d.scopes.find? (·.isMembers)).map (·.declarations)

/-- The branches of a conditional block. -/
def branches (d : Declaration) : List Scope := d.scopes.filter (!·.isMembers)

/-! ## one scope -/

/-- The declarations of a kind. -/
def ofKind (k : DeclarationKind) (ds : List Declaration) : List Declaration :=
  ds.filter (·.kind == k)

/-- The declarations grouped by kind, in the order of the kinds. -/
def grouped (ds : List Declaration) : List Declaration :=
  DeclarationKind.all.flatMap fun k => ofKind k ds

/-- Declarations by position; those that start at one place keep their order. -/
def sortByPosition (ds : List Declaration) : List Declaration :=
  ds.mergeSort fun d e => d.position ≤ e.position

/-- The declarations of a scope in source order. Those that start at one place stand in the
order of their kinds. -/
def inSourceOrder (ds : List Declaration) : List Declaration := sortByPosition (grouped ds)

/-- The first declaration of a name in source order. -/
def find? (name : String) (ds : List Declaration) : Option Declaration :=
  (inSourceOrder ds).find? (·.name == name)

/-! ## the whole forest -/

mutual

/-- A declaration and all below it, in the order in which they were found. -/
def preorder : Declaration → List Declaration
  | mk f ss => mk f ss :: preorderOfScopes ss

/-- All declarations in scopes and below. -/
def preorderOfScopes : List Scope → List Declaration
  | [] => []
  | .mk _ ds :: ss => preorderOfAll ds ++ preorderOfScopes ss

/-- Declarations and all below them. -/
def preorderOfAll : List Declaration → List Declaration
  | [] => []
  | d :: ds => preorder d ++ preorderOfAll ds

end

end Declaration

end SwiftOutline

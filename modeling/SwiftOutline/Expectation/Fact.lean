import SwiftOutline.Declaration.Path
import SwiftOutline.Quoted

/-!
# SwiftOutline.Expectation.Fact

Facts that a declaration is expected to have.

* `Fact` — the facts, with the values expected of them;
* `Fact.check` — whether a declaration has a fact, and if not, why;
* `Unmet.message` — how that is said.

A fact about a property that a kind of declaration does not have is not met.
-/

namespace SwiftOutline

/-- What may be expected of a declaration. -/
inductive Fact where
  | keyword (text : String)
  | hasModifier (name : String)
  | modifierDetail (name detail : String)
  | hasAttribute (name : String)
  | genericParameterCount (n : Nat)
  | genericRequirementCount (n : Nat)
  | inherits (type : String)
  | type (text : String)
  | returnType (text : String)
  | initialValue (text : String)
  | isOptional (b : Bool)
  | hasSetter (b : Bool)
  | isComputed (b : Bool)
  | inProtocol (b : Bool)
  | isWritable (b : Bool)
  | hasAccessor (kind : AccessorKind)
  | accessorCount (n : Nat)
  | parameterCount (n : Nat)
  | parameterLabels (labels : List String)
  | isAsync (b : Bool)
  | isThrowing (b : Bool)
  | hasBody (b : Bool)
  | childCount (n : Nat)
  | children (names : List String)
  | rawValue (text : String)
  | importKind (text : String)
  | fixity (f : Fixity)
  | precedenceGroup (name : String)
  | associativity (a : Associativity)
  | branchCount (n : Nat)
  deriving DecidableEq, Repr, Inhabited

/-- A truth value as it is shown. -/
def boolText (b : Bool) : String := if b then "true" else "false"

/-- An associativity that may be missing, as it is shown. -/
def associativityText : Option Associativity → String
  | some a => "Some(" ++ a.label ++ ")"
  | none => "None"

/-! ## properties of declarations -/

namespace Detail

/-- The type that a declaration is about, as it is shown. -/
def typeText? : Detail → Option String
  | .variable b => some b.shape.text
  | typeAlias shape => some shape.text
  | associatedType default => some ((default.map (·.text)).getD "")
  | subscript _ result _ => some result.text
  | extensionOfType shape => some shape.text
  | _ => none

/-- The type that is returned, as it is shown. -/
def returnText? : Detail → Option String
  | function signature _ => some ((signature.output.map (·.text)).getD "")
  | subscript _ result _ => some result.text
  | _ => none

/-- The signature of a function or initializer. -/
def signature? : Detail → Option Signature
  | function signature _ => some signature
  | initializer signature _ => some signature
  | _ => none

/-- The binding of a variable. -/
def binding? : Detail → Option Binding
  | .variable b => some b
  | _ => none

/-- Whether there may be no value. -/
def isOptional? : Detail → Option Bool
  | .variable b => some b.shape.isOptional
  | initializer _ isFailable => some isFailable
  | subscript _ result _ => some result.isOptional
  | _ => none

/-- The accessors of a variable or subscript. -/
def accessors? : Detail → Option (List Accessor)
  | .variable b => some b.accessors
  | subscript _ _ accessors => some accessors
  | _ => none

/-- The parameters of a function, initializer, subscript or enum case. -/
def parameters? : Detail → Option (List Parameter)
  | function signature _ => some signature.input
  | initializer signature _ => some signature.input
  | subscript indices _ _ => some indices
  | enumCase _ values _ => some values
  | _ => none

/-- The labels of the parameters, with a mark for those without one. -/
def parameterLabels? (d : Detail) : Option (List String) :=
  d.parameters?.map fun ps => ps.map fun p => p.label.getD "_"

/-- Whether a function has a body. -/
def hasBody? : Detail → Option Bool
  | function _ hasBody => some hasBody
  | _ => none

/-- The raw value of an enum case; empty if it has none. -/
def rawValue? : Detail → Option String
  | enumCase _ _ rawValue => some (rawValue.getD "")
  | _ => none

/-- What an import is of; empty for a whole module. -/
def importKind? : Detail → Option String
  | importOfModule what => some (what.getD "")
  | _ => none

/-- The precedence group of an operator; empty if it has none. -/
def groupOfOperator? : Detail → Option String
  | operator group => some (group.getD "")
  | _ => none

/-- The associativity that a precedence group names, if it names one. -/
def associativity? : Detail → Option (Option Associativity)
  | precedenceGroup p => some p.associativity
  | _ => none

end Detail

/-! ## checks -/

/-- Why a declaration does not have a fact. -/
inductive Unmet where
  /-- Declarations of its kind do not have the property. -/
  | inapplicable
  /-- The property has another value. -/
  | differs (actual expected : String)
  | noModifier (name : String) (names : List String)
  | noAttribute (name : String)
  | noInheritance (type : String) (types : List String)
  | noAccessor (kind : AccessorKind) (kinds : List AccessorKind)
  deriving DecidableEq, Repr, Inhabited

namespace Fact

/-- The property that a fact is about, in words. -/
def property : Fact → String
  | keyword _ => "keyword"
  | hasModifier _ => "modifier"
  | modifierDetail .. => "modifier detail"
  | hasAttribute _ => "attribute"
  | genericParameterCount _ => "generic parameter count"
  | genericRequirementCount _ => "generic requirement count"
  | inherits _ => "inheritance"
  | type _ => "type"
  | returnType _ => "return type"
  | initialValue _ => "initial value"
  | isOptional _ => "optionality"
  | hasSetter _ => "has-setter"
  | isComputed _ => "computed"
  | inProtocol _ => "in-protocol"
  | isWritable _ => "writable"
  | hasAccessor _ => "accessor"
  | accessorCount _ => "accessor count"
  | parameterCount _ => "parameter count"
  | parameterLabels _ => "parameter labels"
  | isAsync _ => "async"
  | isThrowing _ => "throwing"
  | hasBody _ => "has-body"
  | childCount _ => "child count"
  | children _ => "children"
  | rawValue _ => "raw value"
  | importKind _ => "import kind"
  | fixity _ => "fixity"
  | precedenceGroup _ => "precedence group"
  | associativity _ => "associativity"
  | branchCount _ => "branch count"

/-- A fact as it is shown. -/
def text : Fact → String
  | keyword s => "Keyword(" ++ quoted s ++ ")"
  | hasModifier s => "Modifier(" ++ quoted s ++ ")"
  | modifierDetail s d => "ModifierDetail(" ++ quoted s ++ ", " ++ quoted d ++ ")"
  | hasAttribute s => "Attribute(" ++ quoted s ++ ")"
  | genericParameterCount n => "GenericParameterCount(" ++ toString n ++ ")"
  | genericRequirementCount n => "GenericRequirementCount(" ++ toString n ++ ")"
  | inherits s => "Inherits(" ++ quoted s ++ ")"
  | type s => "Type(" ++ quoted s ++ ")"
  | returnType s => "ReturnType(" ++ quoted s ++ ")"
  | initialValue s => "InitialValue(" ++ quoted s ++ ")"
  | isOptional b => "IsOptional(" ++ boolText b ++ ")"
  | hasSetter b => "HasSetter(" ++ boolText b ++ ")"
  | isComputed b => "IsComputed(" ++ boolText b ++ ")"
  | inProtocol b => "InProtocol(" ++ boolText b ++ ")"
  | isWritable b => "IsWritable(" ++ boolText b ++ ")"
  | hasAccessor k => "HasAccessor(" ++ k.label ++ ")"
  | accessorCount n => "AccessorCount(" ++ toString n ++ ")"
  | parameterCount n => "ParameterCount(" ++ toString n ++ ")"
  | parameterLabels ss => "ParameterLabels(" ++ quotedList ss ++ ")"
  | isAsync b => "IsAsync(" ++ boolText b ++ ")"
  | isThrowing b => "IsThrowing(" ++ boolText b ++ ")"
  | hasBody b => "HasBody(" ++ boolText b ++ ")"
  | childCount n => "ChildCount(" ++ toString n ++ ")"
  | children ss => "Children(" ++ quotedList ss ++ ")"
  | rawValue s => "RawValue(" ++ quoted s ++ ")"
  | importKind s => "ImportKind(" ++ quoted s ++ ")"
  | fixity f => "Fixity(" ++ f.label ++ ")"
  | precedenceGroup s => "PrecedenceGroup(" ++ quoted s ++ ")"
  | associativity a => "Associativity(" ++ a.label ++ ")"
  | branchCount n => "BranchCount(" ++ toString n ++ ")"

/-- Compare a property, which not every declaration has, with the value expected of it. -/
def compare {α : Type} [DecidableEq α] (shown : α → String) (actual? : Option α)
    (expected : α) : Option Unmet :=
  match actual? with
  | none => some .inapplicable
  | some actual =>
    if actual = expected then none else some (.differs (shown actual) (shown expected))

/-- Whether a list of things, which not every declaration has, holds the one expected. -/
def search {α : Type} [DecidableEq α] (missing : List α → Unmet) (items? : Option (List α))
    (expected : α) : Option Unmet :=
  match items? with
  | none => some .inapplicable
  | some items => if expected ∈ items then none else some (missing items)

/-- A property that declarations of some kinds have. -/
def onlyIf {α : Type} (b : Bool) (a : α) : Option α := if b then some a else none

/-- Why a declaration does not have a fact; none if it has it. -/
def check (d : Declaration) : Fact → Option Unmet
  | keyword s => compare quoted (some d.facts.keyword) s
  | hasModifier s => search (.noModifier s) (some d.facts.modifiers.names) s
  | modifierDetail s detail =>
    compare quoted (some ((d.facts.modifiers.detail? s).getD "")) detail
  | hasAttribute s =>
    search (fun _ => .noAttribute s) (some (d.facts.attributes.map (·.name))) s
  | genericParameterCount n =>
    compare toString (onlyIf d.kind.isGeneric d.facts.genericParameters.length) n
  | genericRequirementCount n =>
    compare toString (onlyIf d.kind.isGeneric d.facts.genericRequirements.length) n
  | inherits s => search (.noInheritance s) (onlyIf d.kind.inherits d.facts.inheritance) s
  | type s => compare quoted d.facts.detail.typeText? s
  | returnType s => compare quoted d.facts.detail.returnText? s
  | initialValue s =>
    compare quoted (d.facts.detail.binding?.map fun b => b.initialValue.getD "") s
  | isOptional b => compare boolText d.facts.detail.isOptional? b
  | hasSetter b => compare boolText (d.facts.detail.binding?.map d.facts.hasSetter) b
  | isComputed b => compare boolText (d.facts.detail.binding?.map (·.isComputed)) b
  | inProtocol b =>
    compare boolText (d.facts.detail.binding?.map fun _ => d.facts.inProtocol) b
  | isWritable b => compare boolText (onlyIf (d.kind == .subscript) d.facts.isWritable) b
  | hasAccessor k =>
    search (.noAccessor k) (d.facts.detail.accessors?.map fun as => as.map (·.kind)) k
  | accessorCount n => compare toString (d.facts.detail.accessors?.map (·.length)) n
  | parameterCount n => compare toString (d.facts.detail.parameters?.map (·.length)) n
  | parameterLabels ss => compare quotedList d.facts.detail.parameterLabels? ss
  | isAsync b => compare boolText (d.facts.detail.signature?.map (·.effects.isAsync)) b
  | isThrowing b => compare boolText (d.facts.detail.signature?.map (·.effects.isThrowing)) b
  | hasBody b => compare boolText d.facts.detail.hasBody? b
  | childCount n => compare toString (some d.nested.length) n
  | children ss => compare quotedList (some (d.nested.map (·.name))) ss
  | rawValue s => compare quoted d.facts.detail.rawValue? s
  | importKind s => compare quoted d.facts.detail.importKind? s
  | fixity f => compare Fixity.label (onlyIf (d.kind == .operator) d.facts.fixity) f
  | precedenceGroup s => compare quoted d.facts.detail.groupOfOperator? s
  | associativity a => compare associativityText d.facts.detail.associativity? (some a)
  | branchCount n => compare toString (onlyIf (d.kind == .conditionalBlock) d.branches.length) n

end Fact

/-- How it is said that the declaration at a path does not have a fact. -/
def Unmet.message (path : String) (f : Fact) : Unmet → String
  | inapplicable => f.text ++ " does not apply to declaration '" ++ path ++ "'"
  | differs actual expected =>
    "Declaration '" ++ path ++ "' has " ++ f.property ++ " " ++ actual ++ ", expected " ++
      expected
  | noModifier name names =>
    "Declaration '" ++ path ++ "' has no '" ++ name ++ "' modifier, modifiers are " ++
      quotedList names
  | noAttribute name => "Declaration '" ++ path ++ "' has no '@" ++ name ++ "' attribute"
  | noInheritance type types =>
    "Declaration '" ++ path ++ "' does not inherit '" ++ type ++ "', inheritance is " ++
      quotedList types
  | noAccessor kind kinds =>
    "Declaration '" ++ path ++ "' has no " ++ kind.keyword ++ " accessor, accessors are " ++
      bracketed (kinds.map (·.label))

end SwiftOutline

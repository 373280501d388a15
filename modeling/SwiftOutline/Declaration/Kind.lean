import SwiftOutline.Kind

/-!
# SwiftOutline.Declaration.Kind

The kinds of declarations, and which of them to collect.
-/

namespace SwiftOutline

/-- The kinds of declarations. -/
inductive DeclarationKind where
  | actor
  | associatedType
  | classType
  | conditionalBlock
  | deinitializer
  | enumCase
  | enumeration
  | extensionOfType
  | function
  | importOfModule
  | initializer
  | operator
  | precedenceGroup
  | protocolType
  | structType
  | subscript
  | typeAlias
  | variable
  deriving DecidableEq, Repr, Inhabited

namespace DeclarationKind

/-- All kinds of declarations, in the order in which collections group them. -/
def all : List DeclarationKind := [
  .actor, .associatedType, .classType, .conditionalBlock, .deinitializer, .enumCase,
  .enumeration, .extensionOfType, .function, .importOfModule, .initializer, .operator,
  .precedenceGroup, .protocolType, .structType, .subscript, .typeAlias, .variable]

theorem mem_all (k : DeclarationKind) : k ∈ all := by cases k <;> decide

/-- The label a kind is shown under. -/
def label : DeclarationKind → String
  | actor => "Actor"
  | associatedType => "AssociatedType"
  | classType => "Class"
  | conditionalBlock => "ConditionalCompilationBlock"
  | deinitializer => "Deinitializer"
  | enumCase => "EnumCase"
  | enumeration => "Enumeration"
  | extensionOfType => "Extension"
  | function => "Function"
  | importOfModule => "Import"
  | initializer => "Initializer"
  | operator => "Operator"
  | precedenceGroup => "PrecedenceGroup"
  | protocolType => "Protocol"
  | structType => "Structure"
  | subscript => "Subscript"
  | typeAlias => "TypeAlias"
  | .variable => "Variable"

/-- The kind shown under a label. -/
def ofLabel? (s : String) : Option DeclarationKind := all.find? (·.label == s)

/-- A kind in words. -/
def words : DeclarationKind → String
  | actor => "actor"
  | associatedType => "associated type"
  | classType => "class"
  | conditionalBlock => "conditional compilation block"
  | deinitializer => "deinitializer"
  | enumCase => "enum case"
  | enumeration => "enumeration"
  | extensionOfType => "extension"
  | function => "function"
  | importOfModule => "import"
  | initializer => "initializer"
  | operator => "operator"
  | precedenceGroup => "precedence group"
  | protocolType => "protocol"
  | structType => "structure"
  | subscript => "subscript"
  | typeAlias => "type alias"
  | .variable => "variable"

/-- The name of the group that a collection keeps a kind in. -/
def group : DeclarationKind → String
  | actor => "actors"
  | associatedType => "associated_types"
  | classType => "classes"
  | conditionalBlock => "conditional_compilation_blocks"
  | deinitializer => "deinitializers"
  | enumCase => "enum_cases"
  | enumeration => "enumerations"
  | extensionOfType => "extensions"
  | function => "functions"
  | importOfModule => "imports"
  | initializer => "initializers"
  | operator => "operators"
  | precedenceGroup => "precedence_groups"
  | protocolType => "protocols"
  | structType => "structures"
  | subscript => "subscripts"
  | typeAlias => "type_aliases"
  | .variable => "variables"

/-- The kind of node that makes a declaration of a kind. -/
def node : DeclarationKind → Kind
  | actor => .actorDecl
  | associatedType => .associatedTypeDecl
  | classType => .classDecl
  | conditionalBlock => .ifConfigDecl
  | deinitializer => .deinitializerDecl
  | enumCase => .enumCaseDecl
  | enumeration => .enumDecl
  | extensionOfType => .extensionDecl
  | function => .functionDecl
  | importOfModule => .importDecl
  | initializer => .initializerDecl
  | operator => .operatorDecl
  | precedenceGroup => .precedenceGroupDecl
  | protocolType => .protocolDecl
  | structType => .structDecl
  | subscript => .subscriptDecl
  | typeAlias => .typeAliasDecl
  | .variable => .variableDecl

/-- The kind of declaration that a node of a kind makes. -/
def ofNode? (k : Kind) : Option DeclarationKind := all.find? (·.node == k)

@[simp] theorem ofNode?_node (k : DeclarationKind) : ofNode? k.node = some k := by
  cases k <;> rfl

theorem isSome_ofNode? (k : Kind) : (ofNode? k).isSome = k.isDeclaration := by
  cases k <;> rfl

/-- The kind of node that holds the members of a declaration, for kinds that have any. -/
def block? : DeclarationKind → Option Kind
  | actor | classType | enumeration | extensionOfType | protocolType | structType =>
    some .memberBlock
  | deinitializer | function | initializer => some .codeBlock
  | _ => none

/-- Whether declarations of a kind have a body of statements. -/
def hasCode (k : DeclarationKind) : Bool := k.block? == some .codeBlock

/-- Whether declarations of a kind may inherit from types. -/
def inherits : DeclarationKind → Bool
  | actor | associatedType | classType | enumeration | extensionOfType | protocolType
  | structType => true
  | _ => false

/-- Whether declarations of a kind may have generic parameters or requirements. -/
def isGeneric (k : DeclarationKind) : Bool :=
  k.inherits || k == function || k == initializer || k == subscript || k == typeAlias

end DeclarationKind

/-! ## what to collect -/

/-- Which declarations to collect. -/
structure Config where
  /-- Bodies of functions, initializers and deinitializers own no declarations. -/
  skipsFunctionBodies : Bool
  /-- Kinds that are left out of every collection. -/
  disabled : List DeclarationKind
  deriving DecidableEq, Repr

namespace Config

/-- Everything is collected. -/
def default : Config := ⟨false, []⟩

instance : Inhabited Config := ⟨default⟩

/-- Leave a kind out. -/
def disable (c : Config) (k : DeclarationKind) : Config := { c with disabled := k :: c.disabled }

/-- Leave the bodies of functions out. -/
def skipFunctionBodies (c : Config) : Config := { c with skipsFunctionBodies := true }

/-- Whether a kind is collected. -/
def isEnabled (c : Config) (k : DeclarationKind) : Bool := !c.disabled.contains k

/-- The kinds that are collected. -/
def enabled (c : Config) : List DeclarationKind := DeclarationKind.all.filter c.isEnabled

/-- The kind of node that holds the members which are collected of a declaration. -/
def block? (c : Config) (k : DeclarationKind) : Option Kind :=
  if c.skipsFunctionBodies && k.hasCode then none else k.block?

end Config

end SwiftOutline

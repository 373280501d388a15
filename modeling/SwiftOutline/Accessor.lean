import SwiftOutline.Attribute
import SwiftOutline.Effects
import SwiftOutline.Modifier

/-!
# SwiftOutline.Accessor

Accessors of variables and subscripts.
-/

namespace SwiftOutline

/-- What an accessor does. -/
inductive AccessorKind where
  | get
  | set
  | willSet
  | didSet
  | read
  | modify
  deriving DecidableEq, Repr, Inhabited

namespace AccessorKind

/-- All kinds of accessors. -/
def all : List AccessorKind := [.get, .set, .willSet, .didSet, .read, .modify]

/-- The word that an accessor starts with. -/
def keyword : AccessorKind → String
  | get => "get"
  | set => "set"
  | willSet => "willSet"
  | didSet => "didSet"
  | read => "_read"
  | modify => "_modify"

/-- The label a kind is shown under. -/
def label : AccessorKind → String
  | get => "Get"
  | set => "Set"
  | willSet => "WillSet"
  | didSet => "DidSet"
  | read => "Read"
  | modify => "Modify"

/-- The kind of accessor that a word starts. -/
def ofKeyword? (s : String) : Option AccessorKind := all.find? (·.keyword == s)

@[simp] theorem ofKeyword?_keyword (k : AccessorKind) : ofKeyword? k.keyword = some k := by
  cases k <;> rfl

/-- Whether an accessor gives its owner a setter; access in place does not count. -/
def isSetter : AccessorKind → Bool
  | set | willSet | didSet => true
  | _ => false

/-- Whether an accessor computes the value of its owner. -/
def isGetter : AccessorKind → Bool
  | get | read => true
  | _ => false

end AccessorKind

/-- An accessor. -/
structure Accessor where
  kind : AccessorKind
  attributes : List Attribute
  modifier : Option String
  effects : Effects
  parameter : Option String
  hasBody : Bool
  deriving DecidableEq, Repr, Inhabited

namespace Accessor

/-- The getter that is written as a bare body. -/
def bareGetter : Accessor := ⟨.get, [], none, .none, none, true⟩

/-- An accessor as its node has it, if the node starts with the word of one. -/
def ofNode? (t : Tree) : Option Accessor :=
  (t.keyword?.bind AccessorKind.ofKeyword?).map fun kind =>
    { kind
      attributes := Attribute.ofDeclaration t
      modifier := (Modifiers.ofDeclaration t).names.head?
      effects := Effects.ofParent t
      parameter := (t.childOf? .accessorParameter).bind fun p =>
        (p.words.find? (·.kind == .identifier)).map (·.text)
      hasBody := (t.childOf? .codeBlock).isSome }

/-- The accessors of a binding or subscript. A block without accessors in it is a getter's
body. -/
def ofOwner (t : Tree) : List Accessor :=
  match t.childOf? .accessorBlock with
  | none => []
  | some block =>
    match block.childrenOf .accessorDecl with
    | [] => [bareGetter]
    | explicit => explicit.filterMap ofNode?

end Accessor

end SwiftOutline

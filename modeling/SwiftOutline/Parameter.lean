import SwiftOutline.TypeShape

/-!
# SwiftOutline.Parameter

Parameters of functions, initializers and subscripts, the values that come with enum cases,
and signatures.

A parameter has up to two names: the label that callers write and the name that the body
uses. One name serves as both, and `_` as neither.
-/

namespace SwiftOutline

/-- The text of the expression that initializes what a tree declares. -/
def Tree.initializer? (t : Tree) : Option String :=
  ((t.childOf? .initializer).bind (Tree.childOf? .expression)).map Tree.trimmedText

/-- A parameter. -/
structure Parameter where
  attributes : List Attribute
  firstName : Option String
  secondName : Option String
  shape : TypeShape
  isInout : Bool
  isVariadic : Bool
  default : Option String
  deriving Repr, Inhabited

namespace Parameter

/-- The names among the words of a parameter: those before the colon, without an ellipsis. -/
def namesIn (words : List Lexeme) : List String :=
  ((words.takeWhile (·.kind != .colon)).filter (·.kind != .ellipsis)).map
    fun w => unescape w.text

/-- The type of a parameter, in a clause of its own or directly. -/
def typeOf? (t : Tree) : Option Tree :=
  ((t.childOf? .annotatedType).bind Tree.type?).or t.type?

/-- A parameter as its node has it. -/
def ofNode (t : Tree) : Parameter where
  attributes := Attribute.ofDeclaration t
  firstName := (namesIn t.words)[0]?
  secondName := (namesIn t.words)[1]?
  shape := ((typeOf? t).map TypeShape.ofTree).getD .empty
  isInout := (typeOf? t).any fun u => u.kind == .typeAttributed && u.hasToken .kwInout
  isVariadic := t.hasToken .ellipsis
  default := t.initializer?

/-- The label that callers write. -/
def label (p : Parameter) : Option String := p.firstName.filter (· != "_")

/-- The name that the body uses. -/
def name (p : Parameter) : Option String := (p.secondName.or p.firstName).filter (· != "_")

/-- A parameter as it is shown. -/
def text (p : Parameter) : String :=
  let names :=
    match p.firstName, p.secondName with
    | some first, some second => first ++ " " ++ second ++ ": "
    | some first, none => first ++ ": "
    | none, _ => ""
  let default :=
    match p.default with
    | some value => " = " ++ value
    | none => ""
  names ++ (if p.isInout then "inout " else "") ++ p.shape.text ++
    (if p.isVariadic then "..." else "") ++ default

/-- The parameters in a clause. -/
def ofClause (t : Tree) : List Parameter :=
  (t.children.filter fun c =>
    c.isNodeOf .functionParameter || c.isNodeOf .enumCaseParameter).map ofNode

/-- The parameters in the clause of a kind below a tree. -/
def below (k : Kind) (t : Tree) : List Parameter := ((t.childOf? k).map ofClause).getD []

end Parameter

/-- The shape of the result that a declaration names, if it names one. -/
def Tree.result? (t : Tree) : Option TypeShape :=
  (t.childOf? .returnClause).map TypeShape.ofWrapper

/-- What a function takes, does and returns. -/
structure Signature where
  input : List Parameter
  effects : Effects
  output : Option TypeShape
  deriving Repr, Inhabited

namespace Signature

/-- The signature that takes, does and returns nothing. -/
def empty : Signature := ⟨[], .none, none⟩

/-- A signature as its node has it. -/
def ofNode (t : Tree) : Signature := ⟨Parameter.below .parameterClause t, .ofParent t, t.result?⟩

/-- The signature of a declaration. -/
def ofDeclaration (t : Tree) : Signature :=
  ((t.childOf? .functionSignature).map ofNode).getD empty

/-- A signature as it is shown. -/
def text (s : Signature) : String :=
  let throwing :=
    match s.effects.throwing with
    | some t => " " ++ t.word
    | none => ""
  let output :=
    match s.output with
    | some t => " -> " ++ t.text
    | none => ""
  "(" ++ ", ".intercalate (s.input.map (·.text)) ++ ")" ++
    (if s.effects.isAsync then " async" else "") ++ throwing ++ output

end Signature

end SwiftOutline

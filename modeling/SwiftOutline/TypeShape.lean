import SwiftOutline.Attribute
import SwiftOutline.Effects

/-!
# SwiftOutline.TypeShape

The shape of a type, whatever the spelling: `Int?` and `Optional<Int>` have the same one, and
so have `[String]` and `Array<String>`.

* `TypeShape` — the shapes;
* `TypeShape.ofTree` — the shape of a type in a syntax tree;
* `TypeShape.text` — a shape as it is shown.
-/

namespace SwiftOutline

/-- The shape of a type. A type that is none of the known ones is `simple`, as written; where
there is no type the shape is `empty`. -/
inductive TypeShape where
  | empty
  | simple (text : String)
  | optional (wrapped : TypeShape)
  | array (element : TypeShape)
  | set (element : TypeShape)
  | dictionary (key value : TypeShape)
  | tuple (elements : List TypeShape)
  | closure (inputs : List TypeShape) (isAsync isThrowing isEscaping : Bool)
      (output : TypeShape)
  | result (success failure : TypeShape)
  | void
  deriving Repr, Inhabited

namespace TypeShape

/-- Whether there is no type. -/
def isEmpty : TypeShape → Bool
  | empty => true
  | _ => false

/-- Whether a type is optional. -/
def isOptional : TypeShape → Bool
  | optional _ => true
  | _ => false

/-- The type that an optional wraps; any other type is itself. -/
def unwrapped : TypeShape → TypeShape
  | optional wrapped => wrapped
  | other => other

/-! ## reading -/

/-- An element of a tuple in a syntax tree: its shape and what stands around the type. -/
structure Element where
  shape : TypeShape
  isLabelled : Bool
  isVariadic : Bool
  deriving Inhabited

/-- The shape of an element; several values of a type come as an array. -/
def Element.value (e : Element) : TypeShape := if e.isVariadic then array e.shape else e.shape

/-- The first of some shapes, if there is one. -/
def first (shapes : List TypeShape) : TypeShape := shapes.head?.getD empty

/-- A shape by the name of a type and its arguments, for the names that have one. -/
def ofName? (name : String) (arguments : List TypeShape) : Option TypeShape :=
  match name, arguments with
  | "Optional", [t] => some (optional t)
  | "Array", [t] => some (array t)
  | "Set", [t] => some (set t)
  | "Dictionary", [k, v] => some (dictionary k v)
  | "Result", [s, f] => some (result s f)
  | "Void", [] => some void
  | _, _ => none

/-- The shape of a path, by the names and arguments of its parts. The known types may be
spelled with the module they come from. -/
def ofPath (written : String) (segments : List (String × List TypeShape)) : TypeShape :=
  let known :=
    match segments with
    | [(name, arguments)] => ofName? name arguments
    | [(module, _), (name, arguments)] =>
      if module == "Swift" then ofName? name arguments else none
    | _ => none
  known.getD (simple written)

/-- The shape of a tuple. One element without a label is only a type in parentheses. -/
def ofElements : List Element → TypeShape
  | [] => void
  | [e] => if e.isLabelled then tuple [e.value] else e.shape
  | es => tuple (es.map Element.value)

/-- Whether the attributes of a type say that a closure escapes. -/
def isEscaping (t : Tree) : Bool :=
  ((t.childrenOf .attributeList).flatMap (·.children)).any fun a =>
    (a.childOf? .name).any (·.normalizedText == "escaping")

/-- A shape under the attributes of its type: they decide whether a closure escapes. -/
def withEscaping (escaping : Bool) : TypeShape → TypeShape
  | closure inputs isAsync isThrowing _ output =>
    closure inputs isAsync isThrowing escaping output
  | other => other

mutual

/-- The shape of a type in a syntax tree. -/
def ofTree : Tree → TypeShape
  | .token .. => empty
  | .node k cs =>
    match k with
    | .typePath => ofPath (Tree.node k cs).normalizedText (segmentsIn cs)
    | .typeOptional | .typeImplicitlyUnwrapped => optional (first (typesIn cs))
    | .typeArray => array (first (typesIn cs))
    | .typeDictionary =>
      let types := typesIn cs
      dictionary (first types) (first types.tail)
    | .typeTuple => ofElements (elementsIn cs)
    | .typeFunction =>
      let effects := Effects.ofParent (.node k cs)
      closure ((inputsIn cs).map Element.value) effects.isAsync effects.isThrowing false
        (first (typesIn cs).tail)
    | .typeAttributed => withEscaping (isEscaping (.node k cs)) (first (typesIn cs))
    | .typeSome | .typeAny | .typeComposition => simple (Tree.node k cs).normalizedText
    | _ => empty

/-- The shapes of the types among trees. -/
def typesIn : List Tree → List TypeShape
  | [] => []
  | t :: ts => if t.isType then ofTree t :: typesIn ts else typesIn ts

/-- The names and arguments of the parts of a path among trees. -/
def segmentsIn : List Tree → List (String × List TypeShape)
  | [] => []
  | .node .typePathSegment cs :: ts =>
    ((Tree.node .typePathSegment cs).keyword, argumentsIn cs) :: segmentsIn ts
  | _ :: ts => segmentsIn ts

/-- The shapes of the arguments in the first clause of arguments among trees. -/
def argumentsIn : List Tree → List TypeShape
  | [] => []
  | .node .genericArgumentClause cs :: _ => typesIn cs
  | _ :: ts => argumentsIn ts

/-- The elements of a tuple among trees. -/
def elementsIn : List Tree → List Element
  | [] => []
  | .node .typeTupleElement cs :: ts =>
    ⟨first (typesIn cs), (Tree.node .typeTupleElement cs).hasToken .colon,
      (Tree.node .typeTupleElement cs).hasToken .ellipsis⟩ :: elementsIn ts
  | _ :: ts => elementsIn ts

/-- The elements of the first tuple among trees. -/
def inputsIn : List Tree → List Element
  | [] => []
  | .node .typeTuple cs :: _ => elementsIn cs
  | _ :: ts => inputsIn ts

end

/-- The shape of the type that stands below a tree. -/
def ofWrapper (t : Tree) : TypeShape := (t.type?.map ofTree).getD empty

/-! ## showing -/

mutual

/-- A shape as it is shown. -/
def text : TypeShape → String
  | empty => ""
  | simple s => s
  | optional (closure i a t e o) => "(" ++ text (closure i a t e o) ++ ")?"
  | optional t => text t ++ "?"
  | array t => "[" ++ text t ++ "]"
  | set t => "Set<" ++ text t ++ ">"
  | dictionary k v => "[" ++ text k ++ ": " ++ text v ++ "]"
  | tuple ts => "(" ++ textOfAll ts ++ ")"
  | closure inputs isAsync isThrowing isEscaping output =>
    (if isEscaping then "@escaping " else "") ++ "(" ++ textOfAll inputs ++ ")" ++
      (if isAsync then " async" else "") ++ (if isThrowing then " throws" else "") ++
      " -> " ++ text output
  | result s f => "Result<" ++ text s ++ ", " ++ text f ++ ">"
  | void => "Void"

/-- Shapes as they are shown, with commas between them. -/
def textOfAll : List TypeShape → String
  | [] => ""
  | [t] => text t
  | t :: u :: ts => text t ++ ", " ++ textOfAll (u :: ts)

end

end TypeShape

end SwiftOutline

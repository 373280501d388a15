import SwiftOutline.Grammar.Attribute
import SwiftOutline.Grammar.Effect

/-!
# SwiftOutline.Grammar.Type

Types.

```
type      := ('some' | 'any') type | attributes ownership* attributes type
           | suffixed ('&' suffixed)*
suffixed  := primary ('?' | '!')*          the suffixes joined to what precedes them
primary   := path | '[' type (':' type)? ']' | '(' elements ')' (effects? '->' type)?
path      := segment ('.' segment)*
segment   := name ('<' types '>')?
```

The rules of a type are given the rule for the types inside it; `typeFrom` closes the circle
by recursion on the number of words.
-/

namespace SwiftOutline.Grammar

open Rule

variable {n : Nat}

/-! ## what starts a type -/

/-- Names that may stand before a type to say who owns it or where it may go. -/
def ownershipNames : List String :=
  ["__owned", "__shared", "consuming", "borrowing", "isolated", "sending"]

/-- Whether a type stands next where a list of types may also end. -/
def atTypeStart : List Word → Bool :=
  atAny [.identifier, .kwSelfType, .kwClass, .kwProtocol, .openParen, .openBracket, .atSign,
    .kwInout]

/-- Whether a word on ownership stands next. -/
def atOwnership (ws : List Word) : Bool := at? .kwInout ws || atName ownershipNames ws

/-- Whether an attribute or a word on ownership stands next. -/
def atTypeAttribute (ws : List Word) : Bool := at? .atSign ws || atOwnership ws

/-- Whether `some` or `any` stands next and is followed by a type. -/
def atConstraint (ws : List Word) : Bool :=
  atName ["some", "any"] ws &&
    atAny [.identifier, .kwSelfType, .openParen, .openBracket] ws.tail

/-- How many words the label of a type takes: a name, or two, and a colon; none if no label
stands next. -/
def labelLength (ws : List Word) : Nat :=
  if atPair .identifier .colon ws then 2
  else if atPair .identifier .identifier ws && at? .colon (ws.drop 2) then 3
  else 0

/-- Take the label that stands next. -/
def label : Rule n :=
  ifAt (fun ws => labelLength ws == 2) (bump >> bump)
    (optional (fun ws => labelLength ws == 3) (bump >> bump >> bump))

/-! ## types, given the rule for those inside -/

section

variable (inside : Rule n)

/-- Arguments between angle brackets. -/
def genericArguments : Rule n :=
  node .genericArgumentClause
    (bump >> commaList atTypeStart inside >> expect .closeAngle .unclosedGenericArguments)

/-- A name of a path, with its arguments. -/
def pathSegment : Rule (n + 1) :=
  node .typePathSegment (after (optional (at? .openAngle) (genericArguments inside)))

/-- Whether a dot and another name of a path stand next. -/
def atPathTail (ws : List Word) : Bool :=
  at? .dot ws && atAny [.identifier, .kwSelfType, .kwProtocol] ws.tail

/-- Names with dots between them. -/
def path : Rule (n + 1) :=
  node .typePath (pathSegment inside >> whileAt atPathTail (pathSegment inside))

/-- An array, or a dictionary if a colon follows the first type. -/
def collectionType : Rule (n + 1) :=
  onWord fun w r h =>
    let element := inside r h
    let close : Rule n := expect .closeBracket .unclosedCollectionType
    let finish := fun (kind : Kind) (tail : Rule n) =>
      (Parsed.cons w (element.append
        (tail element.rest (element.length_rest_lt h)))).node kind
    if at? .colon element.rest then finish .typeDictionary (bump >> inside >> close)
    else finish .typeArray close

/-- An element of a tuple: a type with its label and, for parameters, an ellipsis. -/
def tupleElement : Rule n :=
  node .typeTupleElement
    (label >>
      ifAt atTypeStart inside
        (fault .noType >> optional (atOther [.comma, .closeParen]) bump) >>
      eat .ellipsis)

/-- What makes a function type of the tuple before it. -/
def functionTypeTail : Rule n :=
  effectSpecifiers >> expect .arrow .noFunctionTypeArrow >> inside

/-- A tuple, or a function type if an effect or an arrow follows it. -/
def tupleOrFunctionType : Rule (n + 1) :=
  onWord fun w r h =>
    let elements : Rule n :=
      commaList (atOther [.closeParen]) (tupleElement inside) >>
        expect .closeParen .unclosedTupleType
    let inner := elements r h
    let tuple := (Parsed.cons w inner).node .typeTuple
    if atEffect inner.rest || at? .arrow inner.rest then
      (tuple.append (functionTypeTail inside inner.rest
        (inner.length_rest_lt h))).node .typeFunction
    else tuple

/-- A type without prefixes and suffixes. -/
def primaryType : Rule (n + 1) :=
  ifAt (at? .openParen) (tupleOrFunctionType inside)
    (ifAt (at? .openBracket) (collectionType inside)
      (ifAt (atAny [.identifier, .kwSelfType, .kwClass, .kwProtocol]) (path inside)
        (gap >> fault .noType)))

end

/-! ## suffixes and compositions -/

/-- The kind of type that the suffix which stands next makes. -/
def suffixKind? (ws : List Word) : Option Kind :=
  if !isJoined ws then none
  else if at? .question ws then some .typeOptional
  else if at? .bang ws then some .typeImplicitlyUnwrapped
  else none

/-- Sketches of a type wrapped by the suffixes among some words, and the words after those.
Each suffix wraps all that precedes it. -/
def wrapSuffixes (sketches : List Sketch) : List Word → List Sketch × List Word
  | [] => (sketches, [])
  | w :: r =>
    match suffixKind? (w :: r) with
    | some k => wrapSuffixes [.node k (sketches ++ [.word w])] r
    | none => (sketches, w :: r)

theorem wordsOfAll_wrapSuffixes (sketches : List Sketch) (ws : List Word) :
    Sketch.wordsOfAll (wrapSuffixes sketches ws).1 ++ (wrapSuffixes sketches ws).2 =
      Sketch.wordsOfAll sketches ++ ws := by
  fun_induction wrapSuffixes sketches ws with
  | case1 => rfl
  | case2 sketches w r k _ ih => simp [ih]
  | case3 => rfl

/-- A type and the suffixes after it. -/
def withSuffixes {ws : List Word} (p : Parsed ws) : Parsed ws :=
  ⟨(wrapSuffixes p.sketches p.rest).1, (wrapSuffixes p.sketches p.rest).2, by
    rw [wordsOfAll_wrapSuffixes, p.covers]⟩

section

variable (inside : Rule n)

/-- A type without prefixes, and its suffixes. -/
def suffixedType : Rule (n + 1) := fun ws h => withSuffixes (primaryType inside ws h)

/-- One type, or several with ampersands between them. -/
def composedType : Rule (n + 1) := fun ws h =>
  let first := suffixedType inside ws h
  if at? .ampersand first.rest then
    (first.append (whileAt (at? .ampersand) (suffixedType inside) first.rest
      (first.length_rest_lt h))).node .typeComposition
  else first

end

/-! ## prefixes -/

/-- Attributes and words on ownership before a type. -/
def typeAttributes : Rule n :=
  ifAt (at? .atSign) attributeList bump >> (whileAt atOwnership done >> attributeList)

theorem advances_typeAttributes : Advances atTypeAttribute (typeAttributes : Rule n) :=
  (advances_ifAt advances_attributeList advances_bump.of_atWord).seq _

section

variable (inside : Rule n)

/-- A type behind attributes or words on ownership. -/
def attributedType : Rule (n + 1) :=
  node .typeAttributed
    (advancing atTypeAttribute typeAttributes advances_typeAttributes inside)

/-- A type, given the rule for the types inside it. -/
def typeWith : Rule (n + 1) :=
  ifAt atConstraint
    (ifAt (atName ["some"]) (node .typeSome (after inside)) (node .typeAny (after inside)))
    (ifAt atTypeAttribute (attributedType inside) (composedType inside))

end

/-- The type that stands next. -/
def typeFrom (ws : List Word) : Parsed ws :=
  typeWith (fun r _ => typeFrom r) ws (Nat.lt_succ_self ws.length)
  termination_by ws.length

/-- A type. -/
def type : Rule n := fun ws _ => typeFrom ws

end SwiftOutline.Grammar

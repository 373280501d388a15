import SwiftOutline.Tree.Text

/-!
# SwiftOutline.Attribute

Attributes of declarations and types, such as `@objc` or `@available(iOS 13, *)`.
-/

namespace SwiftOutline

/-- One argument of an attribute. -/
structure AttributeArgument where
  label : Option String
  value : String
  deriving DecidableEq, Repr, Inhabited

/-- An attribute; its name is without the sign. -/
structure Attribute where
  name : String
  arguments : List AttributeArgument
  deriving DecidableEq, Repr, Inhabited

namespace AttributeArgument

/-- Whether the words of an argument start with a label. -/
def isLabelled (words : List Lexeme) : Bool :=
  match words with
  | a :: b :: _ => a.kind == .identifier && b.kind == .colon
  | _ => false

/-- An argument as its node has it. A label ends at the first colon. -/
def ofNode (t : Tree) : AttributeArgument :=
  let text := t.normalizedText
  let chars := text.toList
  if isLabelled t.words && chars.contains ':' then
    ⟨some (Unicode.trim (String.ofList (chars.takeWhile (· != ':')))),
      Unicode.trim (String.ofList (chars.dropWhile (· != ':')).tail)⟩
  else ⟨none, text⟩

/-- An argument as it is shown. -/
def text (a : AttributeArgument) : String :=
  match a.label with
  | some label => label ++ ": " ++ a.value
  | none => a.value

end AttributeArgument

namespace Attribute

/-- An attribute as its node has it. -/
def ofNode (t : Tree) : Attribute where
  name := ((t.childOf? .name).map Tree.normalizedText).getD ""
  arguments :=
    match t.childOf? .attributeArguments with
    | some arguments => (arguments.childrenOf .attributeArgument).map AttributeArgument.ofNode
    | none => []

/-- The attributes of a declaration, in order. -/
def ofDeclaration (t : Tree) : List Attribute :=
  match t.childOf? .attributeList with
  | some list => (list.childrenOf .attribute).map ofNode
  | none => []

/-- An attribute as it is shown. -/
def text (a : Attribute) : String :=
  let arguments :=
    if a.arguments.isEmpty then ""
    else "(" ++ ", ".intercalate (a.arguments.map (·.text)) ++ ")"
  "@" ++ a.name ++ arguments

end Attribute

end SwiftOutline

import SwiftOutline.Grammar.Group

/-!
# SwiftOutline.Grammar.Attribute

Attributes and modifiers, which may precede any declaration.

* `atModifier` — whether a modifier stands next;
* `skipAttributesAndModifiers` — what stands after attributes and modifiers in any order,
  without taking them;
* `attributeList`, `modifierList` — the rules that take them, attributes first.
-/

namespace SwiftOutline.Grammar

open Rule

/-! ## looking ahead -/

/-- Names that are modifiers where a modifier may stand. -/
def modifierNames : List String := [
  "open", "package", "final", "override", "required", "convenience", "mutating",
  "nonmutating", "lazy", "weak", "unowned", "optional", "dynamic", "indirect", "prefix",
  "infix", "postfix", "nonisolated", "distributed", "consuming", "borrowing", "__consuming"]

/-- Words after which `class` is a modifier. -/
def memberWords : List Kind :=
  [.kwFunc, .kwVar, .kwLet, .kwSubscript, .kwTypealias, .kwInit]

/-- Whether a modifier stands next. The word `class` is one before a member or before another
modifier. -/
def atModifier : List Word → Bool
  | [] => false
  | w :: r =>
    match w.kind with
    | .kwPublic | .kwPrivate | .kwFileprivate | .kwInternal | .kwStatic => true
    | .kwClass => atAny memberWords r || atModifier r
    | .identifier => modifierNames.contains w.text
    | _ => false

/-- What stands after dots and names in turn. -/
def skipDottedNames : List Word → List Word
  | d :: i :: r =>
    if d.kind = .dot ∧ i.kind = .identifier then skipDottedNames r else d :: i :: r
  | ws => ws

/-- What stands after a group that is joined to the word before it. -/
def skipArguments (ws : List Word) : List Word :=
  if atJoinedParen ws then ws.drop (groupLength ws) else ws

theorem length_skipDottedNames_le (ws : List Word) :
    (skipDottedNames ws).length ≤ ws.length := by
  fun_induction skipDottedNames ws with
  | case1 d i r _ ih => exact Nat.le_trans ih (by simp; omega)
  | case2 => exact Nat.le_refl _
  | case3 => exact Nat.le_refl _

theorem length_skipArguments_le (ws : List Word) : (skipArguments ws).length ≤ ws.length := by
  unfold skipArguments
  split <;> simp

/-- What stands after attributes and modifiers, each with the arguments joined to it. -/
def skipAttributesAndModifiers : List Word → List Word
  | [] => []
  | w :: r =>
    if w.kind = .atSign then
      skipAttributesAndModifiers (skipArguments (skipDottedNames r.tail))
    else if atModifier (w :: r) then
      skipAttributesAndModifiers (skipArguments r)
    else w :: r
  termination_by ws => ws.length
  decreasing_by
  · have h₁ := length_skipArguments_le (skipDottedNames r.tail)
    have h₂ := length_skipDottedNames_le r.tail
    simp only [List.length_tail, List.length_cons] at *
    omega
  · have := length_skipArguments_le r
    simp only [List.length_cons]
    omega

/-! ## attributes -/

variable {n : Nat}

/-- One argument of an attribute: groups and words up to a comma or the closing one. -/
def attributeArgument : Rule n :=
  node .attributeArgument
    (many (atOther [.comma, .closeParen])
      (ifAt (atAny [.openParen, .openBracket, .openBrace]) group bump)
      (advances_group.of_atWord.ifAt advances_bump.of_atWord))

/-- The arguments of an attribute in parentheses. -/
def attributeArguments : Rule n :=
  node .attributeArguments
    (bump >> commaList (atOther [.closeParen]) attributeArgument >>
      expect .closeParen .unclosedAttributeArguments)

/-- The name of an attribute: whatever word follows the sign, and dotted names. -/
def attributeName : Rule n :=
  node .name (ifAt atWord (bump >> whileAt (atPair .dot .identifier) bump)
    (fault .noAttributeName))

/-- An attribute. -/
def oneAttribute : Rule n :=
  node .attribute (bump >> (attributeName >> optional atJoinedParen attributeArguments))

theorem advances_oneAttribute : Advances atWord (oneAttribute : Rule n) :=
  (advances_bump.seq _).node _

/-- The attributes that stand next. -/
def attributeList : Rule n :=
  optional (at? .atSign)
    (node .attributeList (many (at? .atSign) oneAttribute advances_oneAttribute.of_atWord))

theorem advances_attributeList : Advances (at? .atSign) (attributeList : Rule n) :=
  advances_optional ((advances_many _).node _)

/-! ## modifiers -/

/-- A modifier, with the detail in parentheses that is joined to it. -/
def oneModifier : Rule n :=
  node .modifier (bump >> optional atJoinedParen (node .modifierDetail group))

theorem advances_oneModifier : Advances atWord (oneModifier : Rule n) :=
  (advances_bump.seq _).node _

/-- The modifiers that stand next. -/
def modifierList : Rule n :=
  optional atModifier
    (node .modifierList (many atModifier oneModifier advances_oneModifier.of_atWord))

/-- Attributes, then modifiers. -/
def attributesAndModifiers : Rule n := attributeList >> modifierList

end SwiftOutline.Grammar

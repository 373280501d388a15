import SwiftOutline.Grammar.Type

/-!
# SwiftOutline.Grammar.Clause

Clauses that several declarations share: names, generic parameters and requirements,
inheritance, annotations.
-/

namespace SwiftOutline.Grammar

open Rule

variable {n : Nat}

/-! ## names -/

/-- A name that is an identifier. -/
def identifierName : Rule n := node .name (expect .identifier .noName)

/-- Marks that may be part of an operator's name. -/
def operatorMarks : List Kind :=
  [.customOperator, .openAngle, .closeAngle, .equals, .bang, .question, .ampersand, .ellipsis,
    .dot]

/-- Whether another mark of an operator's name stands next, joined to the one before it. -/
def atOperatorTail (ws : List Word) : Bool := atAny operatorMarks ws && isJoined ws

/-- A name that is an identifier or an operator, all of whose marks are joined. -/
def operatorName : Rule n :=
  node .name
    (ifAt (at? .identifier) bump
      (ifAt (atAny operatorMarks) (bump >> whileAt atOperatorTail done)
        (fault .noNameOrOperator)))

/-! ## types and what they stand behind -/

/-- A colon and a type. -/
def annotatedType : Rule n := node .annotatedType (bump >> type)

/-- An equals sign and a type. -/
def typeInitializer : Rule n := node .typeInitializer (bump >> type)

/-- The arrow and the type of a result. -/
def returnClause : Rule n := optional (at? .arrow) (node .returnClause (bump >> type))

/-! ## generics -/

/-- Whether the word `each` stands before a name, which makes a parameter pack. -/
def atPack (ws : List Word) : Bool := atName ["each"] ws && at? .identifier ws.tail

/-- A generic parameter with the type that bounds it. -/
def genericParameter : Rule n :=
  node .genericParameter
    (attributeList >> optional atPack bump >> identifierName >>
      optional (at? .colon) (bump >> type) >> eat .ellipsis)

/-- Generic parameters between angle brackets. -/
def genericParameters : Rule n :=
  optional (at? .openAngle)
    (node .genericParameterClause
      (bump >> commaList (atAny [.identifier, .atSign]) genericParameter >>
        expect .closeAngle .unclosedGenericParameters))

/-- Whether the operator for equal types stands next. -/
def atSameType (ws : List Word) : Bool :=
  ws.head?.any fun w => w.kind == .customOperator && w.text == "=="

/-- A requirement on two types. -/
def genericRequirement : Rule n :=
  node .genericRequirement
    (type >>
      ifAt (at? .colon) (bump >> type)
        (ifAt atSameType (bump >> type) (fault .noRequirementRelation)))

/-- The requirements on generic parameters. -/
def genericRequirements : Rule n :=
  optional (at? .kwWhere)
    (node .genericWhereClause (bump >> commaList (fun _ => true) genericRequirement))

/-! ## inheritance -/

/-- The types that a declaration inherits from or conforms to. -/
def inheritance : Rule n :=
  optional (at? .colon)
    (node .inheritanceClause (bump >> commaList (fun _ => true) (node .inheritedType type)))

end SwiftOutline.Grammar

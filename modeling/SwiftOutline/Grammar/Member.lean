import SwiftOutline.Grammar.Clause
import SwiftOutline.Grammar.Expression

/-!
# SwiftOutline.Grammar.Member

Declarations that hold no others, from their keyword on: enum cases, type aliases, associated
types, imports, operators and precedence groups.

```
cases         := 'case' element (',' element)*
element       := name ('(' values ')')? ('=' expression)?
alias         := 'typealias' name generics? '=' type requirements?
associated    := 'associatedtype' name inheritance? ('=' type)? requirements?
imported      := 'import' kind? name ('.' name)* ('.' operator)?
operator      := 'operator' name (':' group (',' group)*)?
precedence    := 'precedencegroup' name properties
```
-/

namespace SwiftOutline.Grammar

open Rule

variable {n : Nat}

/-! ## enum cases -/

/-- A value that comes with an enum case. -/
def associatedValue : Rule n :=
  node .enumCaseParameter
    (label >> type >> optional (at? .equals) (initializer false))

/-- The values that come with an enum case. -/
def associatedValues : Rule n :=
  optional (at? .openParen)
    (node .enumCaseParameterClause
      (bump >> commaList (atOther [.closeParen]) associatedValue >>
        expect .closeParen .unclosedAssociatedValues))

/-- One case. -/
def enumCaseElement : Rule n :=
  node .enumCaseElement
    (identifierName >> associatedValues >> optional (at? .equals) (initializer false))

/-- Cases of an enum. -/
def enumCases : Rule n := bump >> commaList (fun _ => true) enumCaseElement

/-! ## types by other names -/

/-- A type alias. -/
def typeAlias : Rule n :=
  bump >>
    (identifierName >> genericParameters >>
      ifAt (at? .equals) typeInitializer (fault .noAliasedType) >> genericRequirements)

/-- An associated type. -/
def associatedType : Rule n :=
  bump >>
    (identifierName >> inheritance >> optional (at? .equals) typeInitializer >>
      genericRequirements)

/-! ## imports -/

/-- Kinds of words that say what is imported from a module. -/
def importKinds : List Kind :=
  [.kwTypealias, .kwStruct, .kwClass, .kwEnum, .kwProtocol, .kwLet, .kwVar, .kwFunc]

/-- Whether a dot stands next, joined to the word before it. -/
def atJoinedDot (ws : List Word) : Bool := at? .dot ws && isJoined ws

/-- The path to what is imported; its last part may be an operator. -/
def importPath : Rule n :=
  node .importPath
    (ifAt (at? .identifier)
      (bump >> whileAt (fun ws => atJoinedDot ws && at? .identifier ws.tail) bump >>
        optional atJoinedDot (bump >> whileAt atOperatorTail done))
      (fault .noModuleName))

/-- An import. -/
def importDeclaration : Rule n :=
  bump >> (optional (atAny importKinds) bump >> importPath)

/-! ## operators -/

/-- The precedence groups of an operator. -/
def precedenceDesignation : Rule n :=
  optional (at? .colon)
    (node .precedenceDesignation
      (bump >> commaList (fun _ => true) (expect .identifier .noPrecedenceGroupName)))

/-- An operator. -/
def operatorDeclaration : Rule n := bump >> (operatorName >> precedenceDesignation)

/-- A property of a precedence group and its values. -/
def precedenceAttribute : Rule n :=
  node .precedenceGroupAttribute
    (bump >>
      (bump >>
        ifAt (atAny [.identifier, .boolean])
          (bump >> whileAt (atPair .comma .identifier) bump)
          (fault .noPrecedenceGroupValue)))

/-- The properties of a precedence group, and complaints on words that are none. -/
def precedenceAttributes : Rule n :=
  many (atOther [.closeBrace])
    (ifAt (atPair .identifier .colon) precedenceAttribute
      (fault .noPrecedenceGroupAttribute >> bump))
    (((advances_bump.seq _).node _ |>.ifAt (advances_bump.seq_right _)).of_atWord)

/-- A precedence group. -/
def precedenceGroup : Rule n :=
  bump >>
    (identifierName >>
      ifAt (at? .openBrace)
        (bump >> precedenceAttributes >> expect .closeBrace .unclosedPrecedenceGroup)
        (fault .noBody))

end SwiftOutline.Grammar

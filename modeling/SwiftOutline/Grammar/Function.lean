import SwiftOutline.Grammar.Block
import SwiftOutline.Grammar.Clause
import SwiftOutline.Grammar.Expression

/-!
# SwiftOutline.Grammar.Function

Functions, initializers, deinitializers and subscripts, from their keyword on.

```
function      := 'func' name generics? signature requirements? body?
initializer   := 'init' ('?' | '!')? generics? signature requirements? body?
deinitializer := 'deinit' body?
subscript     := 'subscript' generics? parameters result? requirements? accessors?
signature     := parameters effects? result?
```
-/

namespace SwiftOutline.Grammar

open Rule

variable {n : Nat}

/-! ## parameters -/

/-- Kinds of words that may name a parameter. -/
def parameterWords : List Kind :=
  [.identifier, .kwClass, .kwStruct, .kwEnum, .kwProtocol, .kwExtension, .kwFunc, .kwImport,
    .kwInit, .kwLet, .kwVar, .kwCase, .kwWhere, .kwIs, .kwAs, .kwStatic, .kwOperator,
    .kwSubscript, .kwTypealias, .kwTry, .kwThrows, .kwRethrows]

/-- One name of a parameter or two. -/
def parameterNames : Rule n :=
  ifAt (atAny parameterWords) (bump >> optional (atAny parameterWords) bump)
    (fault .noParameterLabel)

/-- A parameter. What cannot be read is passed over up to the end of the parameter. -/
def parameter : Rule n :=
  node .functionParameter
    (attributeList >> parameterNames >>
      ifAt (at? .colon) annotatedType (fault .noParameterType) >>
      eat .ellipsis >>
      optional (at? .equals) (initializer false) >>
      whileAt (atOther [.comma, .closeParen, .openBrace, .closeBrace]) done)

/-- Parameters in parentheses. -/
def parameters : Rule n :=
  node .parameterClause
    (ifAt (at? .openParen)
      (bump >> commaList (atOther [.closeParen]) parameter >>
        expect .closeParen .unclosedParameters)
      (fault .noParameters))

/-- Parameters, effects and the result. -/
def signature : Rule n :=
  node .functionSignature (parameters >> effectSpecifiers >> returnClause)

/-! ## declarations -/

/-- The mark of an initializer that may fail. -/
def atFailable (ws : List Word) : Bool := atAny [.question, .bang] ws && isJoined ws

variable (inside : List Kind → Rule n)

/-- A function. -/
def function : Rule (n + 1) :=
  bump >>
    (operatorName >> genericParameters >> signature >> genericRequirements >> body inside)

/-- An initializer. -/
def initializerDeclaration : Rule (n + 1) :=
  bump >>
    (optional atFailable bump >> genericParameters >> signature >> genericRequirements >>
      body inside)

/-- A deinitializer. -/
def deinitializer : Rule (n + 1) := bump >> body inside

/-- A subscript. -/
def subscript : Rule (n + 1) :=
  bump >>
    (genericParameters >> parameters >> returnClause >> genericRequirements >>
      optionalAccessors inside)

end SwiftOutline.Grammar

import SwiftOutline.Grammar.Block
import SwiftOutline.Grammar.Clause
import SwiftOutline.Grammar.Expression

/-!
# SwiftOutline.Grammar.Variable

Variables and constants, from their keyword on.

```
variable := ('var' | 'let') binding (',' binding)*
binding  := (name | group) (':' type)? ('=' expression)? accessors?
```
-/

namespace SwiftOutline.Grammar

open Rule

variable {n : Nat}

/-- What a binding binds: a name, or names in parentheses. -/
def pattern : Rule n :=
  ifAt (at? .identifier) (node .identifierPattern bump)
    (ifAt (at? .openParen) (node .tuplePattern group) (fault .noVariableName))

variable (inside : List Kind → Rule n)

/-- A binding. -/
def patternBinding : Rule (n + 1) :=
  node .patternBinding
    (pattern >> optional (at? .colon) annotatedType >>
      optional (at? .equals) (initializer true) >> optionalAccessors inside)

/-- Variables or constants. -/
def bindings : Rule (n + 1) :=
  bump >> node .patternBindingList (commaList (fun _ => true) (patternBinding inside))

end SwiftOutline.Grammar

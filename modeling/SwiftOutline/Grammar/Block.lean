import SwiftOutline.Grammar.Accessor
import SwiftOutline.Grammar.Effect

/-!
# SwiftOutline.Grammar.Block

What stands between braces: the members of a type, the items of a body, accessors. The rule
for the items inside is an argument; it is told which kinds of words end the scope.
-/

namespace SwiftOutline.Grammar

open Rule

variable {n : Nat} (inside : List Kind → Rule n)

/-- Items up to a closing brace, after the opening one. -/
def braced (unclosed : Fault) : Rule (n + 1) :=
  after (inside [.closeBrace] >> expect .closeBrace unclosed)

/-- The members of a type. -/
def memberBlock : Rule (n + 1) :=
  node .memberBlock (ifAt (at? .openBrace) (braced inside .unclosedBody) (fault .noBody))

/-- A body; a brace opens it. -/
def codeBlock : Rule (n + 1) := node .codeBlock (braced inside .unclosedBlock)

/-- A body, if there is one. -/
def body : Rule (n + 1) := optional (at? .openBrace) (codeBlock inside)

/-! ## accessors -/

/-- The name of the value that an accessor is given. -/
def accessorParameter : Rule n :=
  optional (at? .openParen)
    (node .accessorParameter
      (bump >> expect .identifier .noAccessorParameterName >>
        expect .closeParen .unclosedAccessorParameter))

/-- An accessor: its name with attributes and modifiers before it, effects, a body. -/
def oneAccessor : Rule (n + 1) :=
  node .accessorDecl
    ((attributesAndModifiers >> bump) >> (accessorParameter >> effectSpecifiers >> body inside))

theorem advances_oneAccessor : Advances atWord (oneAccessor inside) :=
  ((advances_bump.seq_right _).seq _).node _

/-- Accessors, and complaints on words that start none. -/
def accessors : Rule (n + 1) :=
  many (atOther [.closeBrace])
    (ifAt atAccessor (oneAccessor inside) (fault .noAccessor >> bump))
    (((advances_oneAccessor inside).ifAt (advances_bump.seq_right _)).of_atWord)

/-- Accessors between braces, or the body of a getter. -/
def accessorBlock : Rule (n + 1) :=
  node .accessorBlock
    (ifAt atAccessorBlock
      (bump >> accessors inside >> expect .closeBrace .unclosedAccessors)
      (braced inside .unclosedAccessors))

/-- Accessors or the body of a getter, if there are any. -/
def optionalAccessors : Rule (n + 1) := optional (at? .openBrace) (accessorBlock inside)

end SwiftOutline.Grammar

import SwiftOutline.Grammar.Group

/-!
# SwiftOutline.Grammar.Effect

Effects of functions and accessors: `async`, `throws` with the type it may name, and so on,
in any order.
-/

namespace SwiftOutline.Grammar

open Rule

variable {n : Nat}

/-- Whether an effect stands next. -/
def atEffect (ws : List Word) : Bool :=
  atAny [.kwThrows, .kwRethrows] ws || atName ["async", "reasync"] ws

/-- An effect; only `throws` may be joined to a type in parentheses. -/
def effect : Rule n :=
  ifAt (at? .kwThrows) (bump >> optional atJoinedParen group) bump

theorem advances_effect : Advances atWord (effect : Rule n) :=
  (advances_bump.seq _).ifAt advances_bump

/-- The effects that stand next. -/
def effectSpecifiers : Rule n :=
  optional atEffect
    (node .effectSpecifiers (many atEffect effect advances_effect.of_atWord))

end SwiftOutline.Grammar

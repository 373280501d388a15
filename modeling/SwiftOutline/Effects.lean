import SwiftOutline.Tree.Text

/-!
# SwiftOutline.Effects

What a function, a closure type or an accessor may do besides returning: suspend, or throw
an error, of a type that may be named.

The words of the clause are read from left to right. The words in parentheses after `throws`
are the type of the error, joined without spaces.
-/

namespace SwiftOutline

/-- How errors are passed on. -/
inductive Throwing where
  | throwing
  | rethrowing
  deriving DecidableEq, Repr, Inhabited

/-- The word for a way of passing errors on. -/
def Throwing.word : Throwing → String
  | throwing => "throws"
  | rethrowing => "rethrows"

/-- The effects of a function, a closure type or an accessor. -/
structure Effects where
  isAsync : Bool
  throwing : Option Throwing
  thrownType : Option String
  deriving DecidableEq, Repr, Inhabited

namespace Effects

/-- No effects. -/
def none : Effects := ⟨false, .none, .none⟩

/-- Whether errors are passed on. -/
def isThrowing (e : Effects) : Bool := e.throwing.isSome

/-- Whether there is any effect. -/
def isEffectful (e : Effects) : Bool := e.isAsync || e.isThrowing

/-! ## reading -/

/-- Effects as far as they are read, the open parentheses, what of the error's type is read,
and whether a parenthesis would open such a type. -/
structure Reading where
  effects : Effects
  depth : Nat
  thrown : String
  afterThrows : Bool
  deriving Inhabited

namespace Reading

/-- What is read before the first word. -/
def start : Reading := ⟨.none, 0, "", false⟩

/-- A word that is neither `throws` nor the outermost parenthesis of an error's type: inside
that type it is a part of it. -/
def plain (r : Reading) (text : String) : Reading :=
  if r.depth = 0 then { r with afterThrows := false }
  else { r with thrown := r.thrown ++ text }

/-- The next word is read. -/
def step (r : Reading) (w : Lexeme) : Reading :=
  match w.kind with
  | .kwThrows =>
    { r with effects := { r.effects with throwing := some .throwing }, afterThrows := true }
  | .kwRethrows =>
    plain { r with effects := { r.effects with throwing := some .rethrowing } } w.text
  | .openParen =>
    if !r.afterThrows then r.plain w.text
    else if r.depth = 0 then { r with depth := 1 }
    else plain { r with depth := r.depth + 1 } w.text
  | .closeParen =>
    if r.depth = 0 then r.plain w.text
    else if r.depth = 1 then
      ⟨{ r.effects with thrownType := some r.thrown }, 0, "", false⟩
    else plain { r with depth := r.depth - 1 } w.text
  | .identifier =>
    if r.depth = 0 && (w.text == "async" || w.text == "reasync") then
      plain { r with effects := { r.effects with isAsync := true } } w.text
    else r.plain w.text
  | _ => r.plain w.text

end Reading

/-- The effects that a clause of effects names. -/
def ofClause (clause : Tree) : Effects := (clause.words.foldl Reading.step .start).effects

/-- The effects that the clause below a tree names; without a clause there are none. -/
def ofParent (parent : Tree) : Effects :=
  match parent.childOf? .effectSpecifiers with
  | some clause => ofClause clause
  | .none => none

end Effects

end SwiftOutline

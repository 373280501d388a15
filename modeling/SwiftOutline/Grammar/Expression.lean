import SwiftOutline.Grammar.Accessor

/-!
# SwiftOutline.Grammar.Expression

Expressions and statements, which are not analysed: each is a run of words, with brackets
nested, that ends where the words say so.

* `continuesLine` — whether the next word goes on with the line before it;
* `expression` — the words of a value;
* `statement` — the words of a statement.
-/

namespace SwiftOutline.Grammar

open Rule

variable {n : Nat}

/-- Whether the next word, on a new line, goes on with the line before it. -/
def continuesLine (ws : List Word) : Bool :=
  atAny [.dot, .customOperator, .question] ws || atName ["else", "catch"] ws

/-- Whether the next word breaks off a run of words that has begun. -/
def startsLine (begun : Bool) (ws : List Word) : Bool :=
  begun && ws.head?.any (·.onNewLine) && !continuesLine ws

/-! ## expressions -/

/-- Kinds of words that end an expression outside all brackets. -/
def expressionEnds : List Kind :=
  [.comma, .semicolon, .closeParen, .closeBracket, .closeBrace, .poundElseif, .poundElse,
    .poundEndif]

/-- Whether an expression ends here, outside all brackets. An opening brace ends it only
before accessors, and where those may follow. -/
def endsExpression (accessorsFollow begun : Bool) (ws : List Word) : Bool :=
  if at? .openBrace ws then accessorsFollow && atAccessorBlock ws
  else atAny expressionEnds ws || startsLine begun ws

/-- The words of an expression from a given bracket depth on. -/
def expressionWords (accessorsFollow : Bool) (depth : Nat) (begun : Bool) :
    (ws : List Word) → Parsed ws
  | [] => .done []
  | w :: r =>
    if depth == 0 && endsExpression accessorsFollow begun (w :: r) then .done (w :: r)
    else .cons w (expressionWords accessorsFollow (depthAfter depth w.kind) true r)

/-- An expression, of at least one word. -/
def expression (accessorsFollow : Bool) : Rule n :=
  node .expression
    (ifAt (fun ws => ws.isEmpty || endsExpression accessorsFollow false ws)
      (fault .noExpression)
      (fun ws _ => expressionWords accessorsFollow 0 false ws))

/-- An equals sign and an expression. -/
def initializer (accessorsFollow : Bool) : Rule n :=
  node .initializer (bump >> expression accessorsFollow)

/-! ## statements -/

/-- Whether a statement ends here, outside all brackets, at the end of the scope around it or
at a new line. -/
def endsStatement (stop : List Kind) (begun : Bool) (ws : List Word) : Bool :=
  atAny stop ws || at? .closeBrace ws || startsLine begun ws

/-- The words of a statement from a given bracket depth on. Outside all brackets a semicolon
is its last word. -/
def statementWords (stop : List Kind) (depth : Nat) (begun : Bool) :
    (ws : List Word) → Parsed ws
  | [] => .done []
  | w :: r =>
    if depth == 0 && endsStatement stop begun (w :: r) then .done (w :: r)
    else if depth == 0 && w.kind == .semicolon then .take w r
    else .cons w (statementWords stop (depthAfter depth w.kind) true r)

/-- Whether a closing bracket stands next. -/
def atCloser (ws : List Word) : Bool := (kind? ws).any Kind.isCloser

/-- A statement; a closing bracket that closes nothing is one by itself. -/
def statement (stop : List Kind) : Rule n :=
  node .statement
    (ifAt atCloser (fault .unexpectedCloser >> bump)
      (fun ws _ => statementWords stop 0 false ws))

theorem length_rest_statementWords_lt {stop : List Kind} {w : Word} {r : List Word}
    (h : endsStatement stop false (w :: r) = false) :
    (statementWords stop 0 false (w :: r)).rest.length < (w :: r).length := by
  unfold statementWords
  rw [h, Bool.and_false, if_neg Bool.false_ne_true]
  split
  · exact Nat.lt_succ_self _
  · exact Nat.lt_succ_of_le (Parsed.length_rest_le (statementWords stop _ true r))

/-- No statement ends before its first word where the scope around it goes on. -/
theorem endsStatement_start {stop : List Kind} {w : Word} {r : List Word}
    (hother : atOther stop (w :: r) = true) (hcloser : ¬atCloser (w :: r) = true) :
    endsStatement stop false (w :: r) = false := by
  have hb : w.kind ≠ .closeBrace := by
    rintro hk
    simp [atCloser, kind?, hk, Kind.isCloser] at hcloser
  simp only [atOther, Bool.and_eq_true, Bool.not_eq_true'] at hother
  simp [endsStatement, startsLine, hother.2, at?, kind?, hb]

/-- A statement takes a word wherever one stands that does not end the scope around it. -/
theorem advances_statement (stop : List Kind) :
    Advances (atOther stop) (statement stop : Rule n) := by
  refine Advances.node (fun ws h hc => ?_) _
  cases ws with
  | nil => simp [atOther, atWord] at hc
  | cons w r =>
    unfold ifAt
    split
    · exact advances_bump.seq_right _ _ h rfl
    · next hcl => exact length_rest_statementWords_lt (endsStatement_start hc hcl)

end SwiftOutline.Grammar

import SwiftOutline.Proofs.Announced

/-!
# SwiftOutline.Proofs.Loops

The loops of the grammar, turn by turn.

* `Turn`, `Runs` — what a turn of a loop does, and the turns it takes to leave it. Nothing is
  said of whether a loop is ever left;
* `Ends` — every turn that goes on lowers a measure, so that the loop is left after that many
  turns at most, with a given result;
* `Loop` — the three forms of loops that rules are made of: a rule again and again, a rule behind
  one word each, elements with commas between them;
* `Repetition` — the loops of the grammar, with the rules they stand in;
* `Loop.ends` and the lemmas after it — all of them end, by the number of words that are left.
-/

namespace SwiftOutline

/-! ## turns -/

/-- What a turn of a loop does: it goes on in a state or leaves with a result. -/
inductive Turn (S A : Type) where
  | again (s : S)
  | leave (a : A)

section

variable {S A : Type}

/-- The turns of a loop from a state on: how many of them go on, and the result that the last one
leaves with. -/
inductive Runs (turn : S → Turn S A) : S → Nat → A → Prop where
  | leave {s : S} {a : A} : turn s = .leave a → Runs turn s 0 a
  | again {s s' : S} {k : Nat} {a : A} :
    turn s = .again s' → Runs turn s' k a → Runs turn s (k + 1) a

/-- A loop ends: a turn that goes on lowers a measure, and from every state on the loop is left
after no more turns than that, with a result. -/
structure Ends (turn : S → Turn S A) (measure : S → Nat) (result : S → A) : Prop where
  lowers : ∀ s s', turn s = .again s' → measure s' < measure s
  runs : ∀ s, ∃ k ≤ measure s, Runs turn s k (result s)

/-- A turn keeps a result: it leaves with it, or goes on, as a relation of states allows, where the
result is the same. -/
def Keeps (turn : S → Turn S A) (allowed : S → S → Prop) (result : S → A) (s : S) : Prop :=
  (∃ a, turn s = .leave a ∧ result s = a) ∨
    ∃ s', turn s = .again s' ∧ allowed s s' ∧ result s = result s'

theorem Keeps.allowed {turn : S → Turn S A} {allowed : S → S → Prop} {result : S → A} {s s' : S}
    (h : Keeps turn allowed result s) (hagain : turn s = .again s') : allowed s s' := by
  obtain ⟨a, hleave, -⟩ | ⟨s'', hturn, hallowed, -⟩ := h
  · rw [hagain] at hleave
    cases hleave
  · rw [hagain] at hturn
    cases hturn
    exact hallowed

/-- A loop whose turns lower a measure ends with a result that each of them keeps. -/
theorem Ends.of_keeps {turn : S → Turn S A} {measure : S → Nat} {result : S → A}
    (h : ∀ s, Keeps turn (fun s s' => measure s' < measure s) result s) :
    Ends turn measure result := by
  refine ⟨fun s s' => (h s).allowed, fun s => ?_⟩
  induction hm : measure s using Nat.strongRecOn generalizing s with
  | ind m ih =>
    subst hm
    obtain ⟨a, hturn, hresult⟩ | ⟨s', hturn, hlt, hresult⟩ := h s
    · exact ⟨0, Nat.zero_le _, hresult ▸ .leave hturn⟩
    · obtain ⟨k, hk, hruns⟩ := ih _ hlt s' rfl
      exact ⟨k + 1, Nat.lt_of_le_of_lt hk hlt, hresult ▸ .again hturn hruns⟩

end

namespace Grammar

open Rule

/-! ## forms of loops -/

/-- Fewer than `n` words. -/
abbrev Words (n : Nat) : Type := {ws : List Word // ws.length < n}

theorem length_tail_lt {ws : List Word} {n : Nat} (h : ws.length < n) : ws.tail.length < n :=
  Nat.lt_of_le_of_lt (List.length_tail ▸ Nat.sub_le _ _) h

/-- All but the first of some words. -/
def Words.tail {n : Nat} (ws : Words n) : Words n := ⟨ws.1.tail, length_tail_lt ws.2⟩

/-- What a rule leaves of some words. -/
def Words.after {n : Nat} (ws : Words n) (p : Rule n) : Words n :=
  ⟨(p ws.1 ws.2).rest, (p ws.1 ws.2).length_rest_lt ws.2⟩

/-- A condition that does not hold at the end holds only where a word is left. -/
theorem length_tail_lt_of {c : List Word → Bool} (hc : c [] = false) {ws : List Word}
    (h : c ws = true) : ws.tail.length < ws.length := by
  cases ws with
  | nil =>
    rw [hc] at h
    cases h
  | cons w r => exact Nat.lt_succ_self _

/-- A loop of a rule. -/
inductive Loop (n : Nat) where
  /-- While a condition holds, a rule that advances there. -/
  | many (c : List Word → Bool) (p : Rule n) (h : Advances c p)
  /-- While a condition holds and words are left, a word and a rule. -/
  | behind (c : List Word → Bool) (p : Rule n)
  /-- While a condition holds, a rule and a comma; without a comma it is left. -/
  | list (c : List Word → Bool) (p : Rule n)

namespace Loop

variable {n : Nat}

/-- A turn of a loop, which leaves with the words that it has not taken. -/
def turn : Loop n → Words n → Turn (Words n) (List Word)
  | many c p _, ws => if c ws.1 then .again (ws.after p) else .leave ws.1
  | behind c p, ws => if atWord ws.1 && c ws.1 then .again (ws.tail.after p) else .leave ws.1
  | list c p, ws =>
    if c ws.1 then
      if at? .comma (ws.after p).1 then .again (ws.after p).tail else .leave (ws.after p).1
    else .leave ws.1

/-- The rule that a loop is. -/
def rule : Loop n → Rule n
  | many c p h => Rule.many c p h
  | behind c p => whileAt c p
  | list c p => commaList c p

/-! ### what the rules leave -/

theorem rest_many {c : List Word → Bool} {p : Rule n} (hp : Advances c p) (ws : List Word)
    (h : ws.length < n) :
    (Rule.many c p hp ws h).rest =
      if c ws then (Rule.many c p hp (p ws h).rest ((p ws h).length_rest_lt h)).rest else ws := by
  rw [Rule.many]
  split <;> rfl

theorem rest_whileAt {c : List Word → Bool} {p : Rule n} {w : Word} {r : List Word}
    (h : (w :: r).length < n) (hr : r.length < n) :
    (whileAt c p (w :: r) h).rest =
      if c (w :: r) then (whileAt c p (p r hr).rest ((p r hr).length_rest_lt hr)).rest
      else w :: r := by
  rw [whileAt]
  split <;> rfl

theorem rest_commaList {c : List Word → Bool} {p : Rule n} (ws : List Word) (h : ws.length < n) :
    (commaList c p ws h).rest =
      if c ws then (commaTail c p (p ws h).rest ((p ws h).length_rest_lt h)).rest else ws := by
  show (if c ws then _ else _ : Parsed ws).rest = _
  split <;> rfl

/-- Behind a comma a list starts anew. -/
theorem rest_commaTail {c : List Word → Bool} {p : Rule n} (ws : List Word) (h : ws.length < n) :
    (commaTail c p ws h).rest =
      if at? .comma ws then (commaList c p ws.tail (length_tail_lt h)).rest else ws := by
  cases ws with
  | nil =>
    rw [commaTail]
    rfl
  | cons w r =>
    rw [commaTail]
    by_cases hw : w.kind = .comma
    · have hcomma : at? .comma (w :: r) = true := by simp [at?, kind?, hw]
      rw [if_pos hw, if_pos hcomma, rest_commaList]
      show _ = if c r then _ else r
      split <;> rfl
    · have hcomma : ¬at? .comma (w :: r) = true := by simp [at?, kind?, hw]
      rw [if_neg hw, if_neg hcomma]
      rfl

/-- The turns of a loop lower the number of words that are left, and leave the words that the rule
leaves. -/
theorem ends (l : Loop n) :
    Ends l.turn (fun ws => ws.1.length) (fun ws => (l.rule ws.1 ws.2).rest) := by
  refine .of_keeps fun ⟨ws, h⟩ => ?_
  -- each turn takes at least one word where it goes on
  cases l with
  | many c p hp =>
    by_cases hc : c ws = true
    · exact .inr ⟨_, if_pos hc, hp ws h hc, (rest_many hp ws h).trans (if_pos hc)⟩
    · exact .inl ⟨_, if_neg hc, (rest_many hp ws h).trans (if_neg hc)⟩
  | behind c p =>
    cases ws with
    | nil =>
      refine .inl ⟨[], rfl, ?_⟩
      show (whileAt c p [] h).rest = []
      rw [whileAt]
      rfl
    | cons w r =>
      have hr : r.length < n := Nat.lt_trans (Nat.lt_succ_self _) h
      by_cases hc : c (w :: r) = true
      · exact .inr ⟨_, if_pos hc, Nat.lt_succ_of_le (p r hr).length_rest_le,
          (rest_whileAt h hr).trans (if_pos hc)⟩
      · exact .inl ⟨_, if_neg hc, (rest_whileAt h hr).trans (if_neg hc)⟩
  | list c p =>
    by_cases hc : c ws = true
    · have hrest := (rest_commaList (p := p) ws h).trans (if_pos hc)
      rw [rest_commaTail] at hrest
      by_cases hcomma : at? .comma (p ws h).rest = true
      · exact .inr ⟨_, (if_pos hc).trans (if_pos hcomma),
          Nat.lt_of_lt_of_le (length_tail_lt_of (c := at? .comma) rfl hcomma)
            (p ws h).length_rest_le,
          hrest.trans (if_pos hcomma)⟩
      · exact .inl ⟨_, (if_pos hc).trans (if_neg hcomma), hrest.trans (if_neg hcomma)⟩
    · exact .inl ⟨_, if_neg hc, (rest_commaList ws h).trans (if_neg hc)⟩

end Loop

/-! ## loops of the grammar -/

/-- The loops of the grammar, each with the form it has. -/
inductive Repetition where
  | attributes
  | attributeNames
  | attributeArguments
  | argumentWords
  | modifiers
  | effects
  | operatorMarks
  | genericParameters
  | genericRequirements
  | inheritedTypes
  | genericArguments
  | pathSegments
  | composedTypes
  | tupleElements
  | ownership
  | importedNames
  | importedMarks
  | parameters
  | unreadWords
  | enumCases
  | associatedValues
  | precedenceGroups
  | precedenceValues
  | precedenceAttributes
  | bindings
  | accessors
  | branches (stop : List Kind)
  | conditionWords

namespace Repetition

variable {n : Nat} (inside : List Kind → Rule n)

theorem advances_accessorOrWord :
    Advances (atOther [.closeBrace])
      (ifAt atAccessor (oneAccessor inside) (fault .noAccessor >> bump)) :=
  ((advances_oneAccessor inside).ifAt (advances_bump.seq_right _)).of_atWord

theorem advances_atBranch (stop : List Kind) : Advances atBranch (branch inside stop) :=
  (advances_branch inside stop).of_atWord

/-- The form of a loop, with its condition and what it repeats. -/
def loop : Repetition → Loop (n + 1)
  | attributes => .many (at? .atSign) oneAttribute advances_oneAttribute.of_atWord
  | attributeNames => .behind (atPair .dot .identifier) bump
  | attributeArguments => .list (atOther [.closeParen]) attributeArgument
  | argumentWords =>
    .many (atOther [.comma, .closeParen])
      (ifAt (atAny [.openParen, .openBracket, .openBrace]) group bump)
      (advances_group.of_atWord.ifAt advances_bump.of_atWord)
  | modifiers => .many atModifier oneModifier advances_oneModifier.of_atWord
  | effects => .many atEffect effect advances_effect.of_atWord
  | operatorMarks => .behind atOperatorTail done
  | genericParameters => .list (atAny [.identifier, .atSign]) genericParameter
  | genericRequirements => .list (fun _ => true) genericRequirement
  | inheritedTypes => .list (fun _ => true) (node .inheritedType type)
  | genericArguments => .list atTypeStart type
  | pathSegments => .behind atPathTail (pathSegment type)
  | composedTypes => .behind (at? .ampersand) (suffixedType type)
  | tupleElements => .list (atOther [.closeParen]) (tupleElement type)
  | ownership => .behind atOwnership done
  | importedNames => .behind (fun ws => atJoinedDot ws && at? .identifier ws.tail) bump
  | importedMarks => .behind atOperatorTail done
  | parameters => .list (atOther [.closeParen]) parameter
  | unreadWords => .behind (atOther [.comma, .closeParen, .openBrace, .closeBrace]) done
  | enumCases => .list (fun _ => true) enumCaseElement
  | associatedValues => .list (atOther [.closeParen]) associatedValue
  | precedenceGroups =>
    .list (fun _ => true) (expect .identifier .noPrecedenceGroupName)
  | precedenceValues => .behind (atPair .comma .identifier) bump
  | precedenceAttributes =>
    .many (atOther [.closeBrace])
      (ifAt (atPair .identifier .colon) precedenceAttribute
        (fault .noPrecedenceGroupAttribute >> bump))
      (((advances_bump.seq _).node _ |>.ifAt (advances_bump.seq_right _)).of_atWord)
  | bindings => .list (fun _ => true) (patternBinding inside)
  | accessors =>
    .many (atOther [.closeBrace])
      (ifAt atAccessor (oneAccessor inside) (fault .noAccessor >> bump))
      (advances_accessorOrWord inside)
  | branches stop => .many atBranch (branch inside stop) (advances_atBranch inside stop)
  | conditionWords => .behind (fun ws => !ws.head?.any (·.onNewLine)) done

/-- How many words the rule that a loop stands in is for. -/
def bound (n : Nat) : Repetition → Nat
  | tupleElements => n + 2
  | _ => n + 1

/-- The rule that a loop stands in. -/
def owner : (l : Repetition) → Rule (l.bound n)
  | attributes => attributeList
  | attributeNames => attributeName
  | attributeArguments => Grammar.attributeArguments
  | argumentWords => attributeArgument
  | modifiers => modifierList
  | effects => effectSpecifiers
  | operatorMarks => operatorName
  | genericParameters => Grammar.genericParameters
  | genericRequirements => Grammar.genericRequirements
  | inheritedTypes => inheritance
  | genericArguments => Grammar.genericArguments type
  | pathSegments => path type
  | composedTypes => composedType type
  | tupleElements => tupleOrFunctionType type
  | ownership => typeAttributes
  | importedNames => importPath
  | importedMarks => importPath
  | parameters => Grammar.parameters
  | unreadWords => parameter
  | enumCases => Grammar.enumCases
  | associatedValues => Grammar.associatedValues
  | precedenceGroups => precedenceDesignation
  | precedenceValues => precedenceAttribute
  | precedenceAttributes => precedenceGroup
  | bindings => Grammar.bindings inside
  | accessors => accessorBlock inside
  | branches stop => conditionalBlock inside stop
  | conditionWords => condition

/-- The rule that a loop stands in, with another rule in the place of the loop. -/
def within : (l : Repetition) → Rule (n + 1) → Rule (l.bound n)
  | attributes, run => optional (at? .atSign) (node .attributeList run)
  | attributeNames, run =>
    node .name (ifAt atWord (bump >> run) (fault .noAttributeName))
  | attributeArguments, run =>
    node .attributeArguments (bump >> run >> expect .closeParen .unclosedAttributeArguments)
  | argumentWords, run => node .attributeArgument run
  | modifiers, run => optional atModifier (node .modifierList run)
  | effects, run => optional atEffect (node .effectSpecifiers run)
  | operatorMarks, run =>
    node .name
      (ifAt (at? .identifier) bump
        (ifAt (atAny Grammar.operatorMarks) (bump >> run) (fault .noNameOrOperator)))
  | genericParameters, run =>
    optional (at? .openAngle)
      (node .genericParameterClause
        (bump >> run >> expect .closeAngle .unclosedGenericParameters))
  | genericRequirements, run =>
    optional (at? .kwWhere) (node .genericWhereClause (bump >> run))
  | inheritedTypes, run => optional (at? .colon) (node .inheritanceClause (bump >> run))
  | genericArguments, run =>
    node .genericArgumentClause (bump >> run >> expect .closeAngle .unclosedGenericArguments)
  | pathSegments, run => node .typePath (pathSegment type >> run)
  | composedTypes, run => fun ws h =>
    let first := suffixedType type ws h
    if at? .ampersand first.rest then
      (first.append (run first.rest (first.length_rest_lt h))).node .typeComposition
    else first
  | tupleElements, run =>
    onWord fun w r h =>
      let elements : Rule (n + 1) := run >> expect .closeParen .unclosedTupleType
      let inner := elements r h
      let tuple := (Parsed.cons w inner).node .typeTuple
      if atEffect inner.rest || at? .arrow inner.rest then
        (tuple.append (functionTypeTail type inner.rest
          (inner.length_rest_lt h))).node .typeFunction
      else tuple
  | ownership, run => ifAt (at? .atSign) attributeList bump >> (run >> attributeList)
  | importedNames, run =>
    node .importPath
      (ifAt (at? .identifier)
        (bump >> run >> optional atJoinedDot (bump >> whileAt atOperatorTail done))
        (fault .noModuleName))
  | importedMarks, run =>
    node .importPath
      (ifAt (at? .identifier)
        (bump >> whileAt (fun ws => atJoinedDot ws && at? .identifier ws.tail) bump >>
          optional atJoinedDot (bump >> run))
        (fault .noModuleName))
  | parameters, run =>
    node .parameterClause
      (ifAt (at? .openParen) (bump >> run >> expect .closeParen .unclosedParameters)
        (fault .noParameters))
  | unreadWords, run =>
    node .functionParameter
      (attributeList >> parameterNames >>
        ifAt (at? .colon) annotatedType (fault .noParameterType) >>
        eat .ellipsis >> optional (at? .equals) (initializer false) >> run)
  | enumCases, run => bump >> run
  | associatedValues, run =>
    optional (at? .openParen)
      (node .enumCaseParameterClause
        (bump >> run >> expect .closeParen .unclosedAssociatedValues))
  | precedenceGroups, run => optional (at? .colon) (node .precedenceDesignation (bump >> run))
  | precedenceValues, run =>
    node .precedenceGroupAttribute
      (bump >>
        (bump >>
          ifAt (atAny [.identifier, .boolean]) (bump >> run) (fault .noPrecedenceGroupValue)))
  | precedenceAttributes, run =>
    bump >>
      (identifierName >>
        ifAt (at? .openBrace) (bump >> run >> expect .closeBrace .unclosedPrecedenceGroup)
          (fault .noBody))
  | bindings, run => bump >> node .patternBindingList run
  | accessors, run =>
    node .accessorBlock
      (ifAt atAccessorBlock (bump >> run >> expect .closeBrace .unclosedAccessors)
        (braced inside .unclosedAccessors))
  | branches _, run => run >> expect .poundEndif .unclosedConditionalBlock
  | conditionWords, run =>
    node .ifConfigCondition (ifAt atWord (bump >> run) (fault .noCondition))

/-- Each loop is run by the rule that it stands in. -/
theorem owner_eq (l : Repetition) : l.owner inside = l.within inside (l.loop inside).rule := by
  cases l <;> rfl

end Repetition

/-! ## runs of words -/

/-- A turn of an expression: at a bracket depth, with a word taken or none, before some words. -/
def expressionTurn (accessorsFollow : Bool) :
    Nat × Bool × List Word → Turn (Nat × Bool × List Word) (List Word)
  | (_, _, []) => .leave []
  | (depth, begun, w :: r) =>
    if depth == 0 && endsExpression accessorsFollow begun (w :: r) then .leave (w :: r)
    else .again (depthAfter depth w.kind, true, r)

theorem ends_expressionTurn (accessorsFollow : Bool) :
    Ends (expressionTurn accessorsFollow) (fun s => s.2.2.length)
      (fun s => (expressionWords accessorsFollow s.1 s.2.1 s.2.2).rest) := by
  refine .of_keeps fun ⟨depth, begun, ws⟩ => ?_
  cases ws with
  | nil => exact .inl ⟨_, rfl, rfl⟩
  | cons w r =>
    simp only [Keeps, expressionTurn, expressionWords]
    by_cases hends : (depth == 0 && endsExpression accessorsFollow begun (w :: r)) = true
    · rw [if_pos hends, if_pos hends]
      exact .inl ⟨_, rfl, rfl⟩
    · rw [if_neg hends, if_neg hends]
      exact .inr ⟨_, rfl, Nat.lt_succ_self _, rfl⟩

/-- A turn of a statement; outside all brackets it leaves behind a semicolon. -/
def statementTurn (stop : List Kind) :
    Nat × Bool × List Word → Turn (Nat × Bool × List Word) (List Word)
  | (_, _, []) => .leave []
  | (depth, begun, w :: r) =>
    if depth == 0 && endsStatement stop begun (w :: r) then .leave (w :: r)
    else if depth == 0 && w.kind == .semicolon then .leave r
    else .again (depthAfter depth w.kind, true, r)

theorem ends_statementTurn (stop : List Kind) :
    Ends (statementTurn stop) (fun s => s.2.2.length)
      (fun s => (statementWords stop s.1 s.2.1 s.2.2).rest) := by
  refine .of_keeps fun ⟨depth, begun, ws⟩ => ?_
  cases ws with
  | nil => exact .inl ⟨_, rfl, rfl⟩
  | cons w r =>
    simp only [Keeps, statementTurn, statementWords]
    by_cases hends : (depth == 0 && endsStatement stop begun (w :: r)) = true
    · rw [if_pos hends, if_pos hends]
      exact .inl ⟨_, rfl, rfl⟩
    · rw [if_neg hends, if_neg hends]
      by_cases hsemicolon : (depth == 0 && w.kind == .semicolon) = true
      · rw [if_pos hsemicolon, if_pos hsemicolon]
        exact .inl ⟨_, rfl, rfl⟩
      · rw [if_neg hsemicolon, if_neg hsemicolon]
        exact .inr ⟨_, rfl, Nat.lt_succ_self _, rfl⟩

/-- A turn of a group, which leaves where the bracket depth is back at zero. -/
def groupTurn : Nat × List Word → Turn (Nat × List Word) (List Word)
  | (_, []) => .leave []
  | (depth, w :: r) =>
    match depthAfter depth w.kind with
    | 0 => .leave r
    | d + 1 => .again (d + 1, r)

theorem ends_groupTurn :
    Ends groupTurn (fun s => s.2.length) (fun s => (groupFrom s.1 s.2).rest) := by
  refine .of_keeps fun ⟨depth, ws⟩ => ?_
  cases ws with
  | nil => exact .inl ⟨_, rfl, rfl⟩
  | cons w r =>
    simp only [Keeps, groupTurn, groupFrom]
    cases depthAfter depth w.kind with
    | zero => exact .inl ⟨_, rfl, rfl⟩
    | succ d => exact .inr ⟨_, rfl, Nat.lt_succ_self _, rfl⟩

/-- A turn of the names of a parameter, of which so many may still follow. -/
def nameTurn : Nat × List Word → Turn (Nat × List Word) (List Word)
  | (0, ws) => .leave ws
  | (k + 1, ws) => if atAny parameterWords ws then .again (k, ws.tail) else .leave ws

/-- The words behind so many names of a parameter at most. -/
def behindNames : Nat → List Word → List Word
  | 0, ws => ws
  | k + 1, ws => if atAny parameterWords ws then behindNames k ws.tail else ws

theorem ends_nameTurn :
    Ends nameTurn (fun s => s.2.length) (fun s => behindNames s.1 s.2) := by
  refine .of_keeps fun ⟨k, ws⟩ => ?_
  cases k with
  | zero => exact .inl ⟨_, rfl, rfl⟩
  | succ k =>
    by_cases hname : atAny parameterWords ws = true
    · have hlt := length_tail_lt_of (c := atAny parameterWords) rfl hname
      exact .inr ⟨_, if_pos hname, hlt, if_pos hname⟩
    · exact .inl ⟨_, if_neg hname, if_neg hname⟩

/-- A parameter has two names at most. -/
theorem rest_parameterNames {n : Nat} (ws : List Word) (h : ws.length < n) :
    (parameterNames ws h).rest = behindNames 2 ws := by
  have hbump (ws : List Word) (h : ws.length < n) : ((bump : Rule n) ws h).rest = ws.tail := by
    cases ws <;> rfl
  have hsecond (ws : List Word) (h : ws.length < n) :
      (optional (atAny parameterWords) bump ws h).rest = behindNames 1 ws := by
    simp only [behindNames, Rule.optional, Rule.ifAt]
    split
    · exact hbump ws h
    · rfl
  rw [behindNames, ← hbump ws h, ← hsecond _ ((bump ws h : Parsed ws).length_rest_lt h)]
  show (if _ then _ else _ : Parsed ws).rest = _
  split <;> rfl

/-- A turn of the suffixes of a type, each around all that precedes it. -/
def suffixTurn :
    List Sketch × List Word → Turn (List Sketch × List Word) (List Sketch × List Word)
  | (sketches, []) => .leave (sketches, [])
  | (sketches, w :: r) =>
    match suffixKind? (w :: r) with
    | some k => .again ([.node k (sketches ++ [.word w])], r)
    | none => .leave (sketches, w :: r)

theorem ends_suffixTurn :
    Ends suffixTurn (fun s => s.2.length) (fun s => wrapSuffixes s.1 s.2) := by
  refine .of_keeps fun ⟨sketches, ws⟩ => ?_
  cases ws with
  | nil => exact .inl ⟨_, rfl, rfl⟩
  | cons w r =>
    simp only [Keeps, suffixTurn, wrapSuffixes]
    cases suffixKind? (w :: r) with
    | none => exact .inl ⟨_, rfl, rfl⟩
    | some k => exact .inr ⟨_, rfl, Nat.lt_succ_self _, rfl⟩

/-! ## items -/

/-- An item takes a word wherever one stands that does not end the scope. -/
theorem length_rest_nextItem_lt {stop : List Kind} {ws : List Word} (h : atOther stop ws = true) :
    (nextItem stop ws).rest.length < ws.length := advances_item _ stop ws (length_lt_succ ws) h

/-- A turn of a scope. -/
def scopeTurn (stop : List Kind) (ws : List Word) : Turn (List Word) (List Word) :=
  if atOther stop ws then .again (nextItem stop ws).rest else .leave ws

theorem ends_scopeTurn (stop : List Kind) :
    Ends (scopeTurn stop) List.length (fun ws => (itemsFrom stop ws).rest) := by
  refine .of_keeps fun ws => ?_
  have hrest := congrArg Parsed.rest (itemsFrom_eq stop ws)
  by_cases hother : atOther stop ws = true
  · rw [if_pos hother] at hrest
    exact .inr ⟨_, if_pos hother, length_rest_nextItem_lt hother, hrest⟩
  · rw [if_neg hother] at hrest
    exact .inl ⟨_, if_neg hother, hrest⟩

end Grammar

end SwiftOutline

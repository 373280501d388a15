import SwiftOutline.Proofs.Loops
import SwiftOutline.Proofs.Look
import SwiftOutline.Proofs.Runaway

/-!
# SwiftOutline.Proofs.Progress

Reading a source file comes to an end: every loop goes on only behind a word, every look ahead
only to a higher index, every scope and type only inside fewer words.

* `Climbs` — a loop over indexes of some words: each turn that goes on starts at a word and raises
  the index;
* `ahead_*` — the looks ahead by index climb, and find what the looks at the words that are left
  say;
* `itemsWithin`, `typeWithin` — scopes and types to a given depth, with anything at all below it:
  as many levels as there are words are enough;
* `parse_progresses` — all of this for a source file, and that an item takes the cursor on.
-/

namespace SwiftOutline

namespace Grammar

/-! ## looking ahead by index -/

/-- A loop over indexes of some words: a turn that goes on starts at a word and raises the index,
so that the loop ends with a result. -/
structure Climbs {S A : Type} (ws : List Word) (turn : S → Turn S A) (index : S → Nat)
    (result : S → A) : Prop where
  raises : ∀ s s', turn s = .again s' → index s < index s' ∧ index s < ws.length
  ends : Ends turn (fun s => ws.length - index s) result

variable {ws : List Word}

/-- A loop over indexes whose turns climb ends with a result that each of them keeps. -/
theorem Climbs.of_keeps {S A : Type} {turn : S → Turn S A} {index : S → Nat} {result : S → A}
    (h : ∀ s, Keeps turn (fun s s' => index s < index s' ∧ index s < ws.length) result s) :
    Climbs ws turn index result := by
  refine ⟨fun s s' => (h s).allowed, .of_keeps fun s => ?_⟩
  obtain hleave | ⟨s', hturn, hlt, hresult⟩ := h s
  · exact .inl hleave
  · exact .inr ⟨s', hturn, by omega, hresult⟩

/-- Where a condition holds that does not hold at the end, a word stands. -/
theorem lt_length_of_drop {c : List Word → Bool} (hc : c [] = false) {i : Nat}
    (h : c (ws.drop i) = true) : i < ws.length := by
  by_contra hle
  rw [List.drop_of_length_le (Nat.le_of_not_lt hle), hc] at h
  cases h

theorem drop_succ_of_cons {i : Nat} {w : Word} {r : List Word} (h : ws.drop i = w :: r) :
    ws.drop (i + 1) = r ∧ i < ws.length := by
  constructor
  · rw [← List.tail_drop, h, List.tail_cons]
  · have hlen := congrArg List.length h
    rw [List.length_drop, List.length_cons] at hlen
    omega

variable (ws)

/-! ### groups -/

/-- A turn of the way through a group, at a bracket depth; it leaves with the index behind it. -/
def groupLengthTurn : Nat × Nat → Turn (Nat × Nat) Nat
  | (depth, i) =>
    match ws.drop i with
    | [] => .leave i
    | w :: _ =>
      match depthAfter depth w.kind with
      | 0 => .leave (i + 1)
      | d + 1 => .again (d + 1, i + 1)

theorem climbs_groupLength :
    Climbs ws (groupLengthTurn ws) Prod.snd
      (fun s => s.2 + groupLengthFrom s.1 (ws.drop s.2)) := by
  refine .of_keeps fun ⟨depth, i⟩ => ?_
  simp only [Keeps, groupLengthTurn]
  cases hdrop : ws.drop i with
  | nil => exact .inl ⟨_, rfl, rfl⟩
  | cons w r =>
    obtain ⟨hnext, hlt⟩ := drop_succ_of_cons hdrop
    simp only [groupLengthFrom]
    cases depthAfter depth w.kind with
    | zero => exact .inl ⟨_, rfl, rfl⟩
    | succ d =>
      refine .inr ⟨_, rfl, ⟨Nat.lt_succ_self i, hlt⟩, ?_⟩
      rw [hnext]
      exact Nat.add_right_comm i _ 1

/-! ### modifiers -/

/-- A turn of the look for a modifier: the word `class` is one if the next word is one. -/
def modifierTurn (i : Nat) : Turn Nat Bool :=
  match ws.drop i with
  | [] => .leave false
  | w :: r =>
    match w.kind with
    | .kwPublic | .kwPrivate | .kwFileprivate | .kwInternal | .kwStatic => .leave true
    | .kwClass => if atAny memberWords r then .leave true else .again (i + 1)
    | .identifier => .leave (modifierNames.contains w.text)
    | _ => .leave false

theorem climbs_modifier : Climbs ws (modifierTurn ws) id (fun i => atModifier (ws.drop i)) := by
  refine .of_keeps fun i => ?_
  simp only [Keeps, modifierTurn]
  cases hdrop : ws.drop i with
  | nil => exact .inl ⟨_, rfl, rfl⟩
  | cons w r =>
    obtain ⟨hnext, hlt⟩ := drop_succ_of_cons hdrop
    simp only [atModifier]
    generalize w.kind = k
    -- both sides look at the same kind; only for `class` (`h_6`) does the look go on
    split
    case h_6 =>
      by_cases hmember : atAny memberWords r = true
      · exact .inl ⟨true, if_pos hmember, by rw [hmember, Bool.true_or]⟩
      · refine .inr ⟨_, if_neg hmember, ⟨Nat.lt_succ_self i, hlt⟩, ?_⟩
        rw [Bool.eq_false_of_not_eq_true hmember, Bool.false_or, hnext]
    case h_8 => exact .inl ⟨false, rfl, by simp_all⟩
    all_goals exact .inl ⟨_, rfl, rfl⟩

/-! ### attributes and modifiers -/

theorem skipDottedNames_eq (ws : List Word) :
    skipDottedNames ws =
      if at? .dot ws && at? .identifier ws.tail then skipDottedNames ws.tail.tail else ws := by
  match ws with
  | [] => rfl
  | [_] => simp [skipDottedNames, at?, kind?]
  | d :: i :: r => simp [skipDottedNames, at?, kind?]

theorem skipDottedNames_suffix (ws : List Word) : skipDottedNames ws <:+ ws := by
  fun_induction skipDottedNames ws with
  | case1 d i r _ ih => exact (ih.trans (List.suffix_cons i r)).trans (List.suffix_cons d (i :: r))
  | case2 => exact List.suffix_refl _
  | case3 => exact List.suffix_refl _

theorem skipAttributesAndModifiers_eq (ws : List Word) :
    skipAttributesAndModifiers ws =
      if at? .atSign ws then
        skipAttributesAndModifiers (skipArguments (skipDottedNames ws.tail.tail))
      else if atModifier ws then skipAttributesAndModifiers (skipArguments ws.tail) else ws := by
  cases ws with
  | nil => simp [skipAttributesAndModifiers, at?, kind?, atModifier]
  | cons w r =>
    rw [skipAttributesAndModifiers]
    simp [at?, kind?]

theorem skipAccessorModifiers_eq (ws : List Word) :
    skipAccessorModifiers ws =
      if at? .atSign ws then skipAccessorModifiers (skipArguments ws.tail.tail)
      else if atName accessorModifierNames ws then skipAccessorModifiers ws.tail else ws := by
  cases ws with
  | nil => simp [skipAccessorModifiers, at?, kind?, atName]
  | cons w r =>
    rw [skipAccessorModifiers]
    simp [at?, kind?]

theorem skipAccessorModifiers_suffix (ws : List Word) : skipAccessorModifiers ws <:+ ws := by
  fun_induction skipAccessorModifiers ws with
  | case1 => exact List.suffix_refl _
  | case2 w r _ ih =>
    have harguments : skipArguments r.tail <:+ r.tail := by
      unfold skipArguments
      split
      · exact List.drop_suffix _ _
      · exact List.suffix_refl _
    exact ((ih.trans harguments).trans (List.tail_suffix r)).trans (List.suffix_cons w r)
  | case3 w r _ _ ih => exact ih.trans (List.suffix_cons w r)
  | case4 => exact List.suffix_refl _

/-! ### attributes and modifiers by index -/

/-- The index at which a look from another index on ends. -/
def indexBehind (skip : List Word → List Word) (ws : List Word) (i : Nat) : Nat :=
  i + ((ws.drop i).length - (skip (ws.drop i)).length)

theorem drop_indexBehind {skip : List Word → List Word} (h : ∀ ws, skip ws <:+ ws) (i : Nat) :
    ws.drop (indexBehind skip ws i) = skip (ws.drop i) := by
  rw [indexBehind, ← List.drop_drop]
  exact (List.suffix_iff_eq_drop.1 (h (ws.drop i))).symm

theorem le_indexBehind (skip : List Word → List Word) (i : Nat) : i ≤ indexBehind skip ws i :=
  Nat.le_add_right _ _

/-- The index behind a group that is joined to the word before it. -/
def afterArguments (ws : List Word) (i : Nat) : Nat :=
  if atJoinedParen (ws.drop i) then i + groupLength (ws.drop i) else i

theorem drop_afterArguments (i : Nat) :
    ws.drop (afterArguments ws i) = skipArguments (ws.drop i) := by
  unfold afterArguments skipArguments
  split
  · rw [List.drop_drop]
  · rfl

theorem le_afterArguments (i : Nat) : i ≤ afterArguments ws i := by
  unfold afterArguments
  split
  · exact Nat.le_add_right _ _
  · exact Nat.le_refl _

theorem tail_tail_drop (i : Nat) : (ws.drop i).tail.tail = ws.drop (i + 2) := by
  rw [List.tail_drop, List.tail_drop]

/-- A turn of the way over dots and names in turn. -/
def dottedTurn (i : Nat) : Turn Nat (List Word) :=
  if at? .dot (ws.drop i) && at? .identifier (ws.drop (i + 1)) then .again (i + 2)
  else .leave (ws.drop i)

theorem climbs_dotted :
    Climbs ws (dottedTurn ws) id (fun i => skipDottedNames (ws.drop i)) := by
  refine .of_keeps fun i => ?_
  have hskip := skipDottedNames_eq (ws.drop i)
  rw [tail_tail_drop, List.tail_drop] at hskip
  by_cases hc : (at? .dot (ws.drop i) && at? .identifier (ws.drop (i + 1))) = true
  · have hlt : i < ws.length :=
      lt_length_of_drop (c := at? .dot) rfl (Bool.and_eq_true_iff.1 hc).1
    exact .inr ⟨i + 2, if_pos hc, ⟨Nat.lt_add_of_pos_right Nat.two_pos, hlt⟩,
      hskip.trans (if_pos hc)⟩
  · exact .inl ⟨_, if_neg hc, hskip.trans (if_neg hc)⟩

/-- A turn of the way over attributes and modifiers, each with the arguments joined to it. -/
def leadTurn (i : Nat) : Turn Nat (List Word) :=
  if at? .atSign (ws.drop i) then
    .again (afterArguments ws (indexBehind skipDottedNames ws (i + 2)))
  else if atModifier (ws.drop i) then .again (afterArguments ws (i + 1))
  else .leave (ws.drop i)

theorem climbs_lead :
    Climbs ws (leadTurn ws) id (fun i => skipAttributesAndModifiers (ws.drop i)) := by
  refine .of_keeps fun i => ?_
  have hskip := skipAttributesAndModifiers_eq (ws.drop i)
  rw [tail_tail_drop, List.tail_drop, ← drop_indexBehind ws skipDottedNames_suffix,
    ← drop_afterArguments, ← drop_afterArguments] at hskip
  have hdotted := le_indexBehind ws skipDottedNames (i + 2)
  have hattribute := le_afterArguments ws (indexBehind skipDottedNames ws (i + 2))
  have hmodifier := le_afterArguments ws (i + 1)
  by_cases hsign : at? .atSign (ws.drop i) = true
  · have hlt : i < ws.length := lt_length_of_drop (c := at? .atSign) rfl hsign
    exact .inr ⟨_, if_pos hsign, ⟨by simp only [id]; omega, hlt⟩, hskip.trans (if_pos hsign)⟩
  · rw [if_neg hsign] at hskip
    by_cases hat : atModifier (ws.drop i) = true
    · have hlt : i < ws.length := lt_length_of_drop (c := atModifier) rfl hat
      exact .inr ⟨_, (if_neg hsign).trans (if_pos hat), ⟨hmodifier, hlt⟩,
        hskip.trans (if_pos hat)⟩
    · exact .inl ⟨_, (if_neg hsign).trans (if_neg hat), hskip.trans (if_neg hat)⟩

/-! ### accessors by index -/

/-- A turn of the way over attributes and modifiers of an accessor. -/
def accessorModifierTurn (i : Nat) : Turn Nat (List Word) :=
  if at? .atSign (ws.drop i) then .again (afterArguments ws (i + 2))
  else if atName accessorModifierNames (ws.drop i) then .again (i + 1)
  else .leave (ws.drop i)

theorem climbs_accessorModifier :
    Climbs ws (accessorModifierTurn ws) id (fun i => skipAccessorModifiers (ws.drop i)) := by
  refine .of_keeps fun i => ?_
  have hskip := skipAccessorModifiers_eq (ws.drop i)
  rw [tail_tail_drop, List.tail_drop, ← drop_afterArguments] at hskip
  have hattribute := le_afterArguments ws (i + 2)
  by_cases hsign : at? .atSign (ws.drop i) = true
  · have hlt : i < ws.length := lt_length_of_drop (c := at? .atSign) rfl hsign
    exact .inr ⟨_, if_pos hsign, ⟨by simp only [id]; omega, hlt⟩, hskip.trans (if_pos hsign)⟩
  · rw [if_neg hsign] at hskip
    by_cases hname : atName accessorModifierNames (ws.drop i) = true
    · have hlt : i < ws.length := lt_length_of_drop (c := atName accessorModifierNames) rfl hname
      exact .inr ⟨_, (if_neg hsign).trans (if_pos hname), ⟨Nat.lt_succ_self i, hlt⟩,
        hskip.trans (if_pos hname)⟩
    · exact .inl ⟨_, (if_neg hsign).trans (if_neg hname), hskip.trans (if_neg hname)⟩

/-- A turn of the look for an accessor. A name that another name follows is one if that is the
name of an effect or starts an accessor. -/
def accessorTurn (i : Nat) : Turn Nat Bool :=
  let j := indexBehind skipAccessorModifiers ws i
  if atName accessorNames (ws.drop j) then
    if atAny afterAccessorName (ws.drop (j + 1)) then .leave true
    else if at? .identifier (ws.drop (j + 1)) then
      if atName ["async"] (ws.drop (j + 1)) then .leave true else .again (j + 1)
    else .leave false
  else .leave false

/-- An accessor is its name behind modifiers, and what follows the name. -/
theorem atAccessor_skip (ws : List Word) :
    atAccessor ws =
      (atName accessorNames (skipAccessorModifiers ws) &&
        (atAny afterAccessorName (skipAccessorModifiers ws).tail ||
          (at? .identifier (skipAccessorModifiers ws).tail &&
            (atName ["async"] (skipAccessorModifiers ws).tail ||
              atAccessor (skipAccessorModifiers ws).tail)))) := by
  rw [atAccessor_eq]
  cases skipAccessorModifiers ws <;> rfl

theorem climbs_accessor : Climbs ws (accessorTurn ws) id (fun i => atAccessor (ws.drop i)) := by
  refine .of_keeps fun i => ?_
  have hat := atAccessor_skip (ws.drop i)
  rw [← drop_indexBehind ws skipAccessorModifiers_suffix, List.tail_drop] at hat
  have hle := le_indexBehind ws skipAccessorModifiers i
  simp only [Keeps, accessorTurn]
  generalize indexBehind skipAccessorModifiers ws i = j at hle hat ⊢
  by_cases hname : atName accessorNames (ws.drop j) = true
  · have hlt : i < ws.length :=
      Nat.lt_of_le_of_lt hle (lt_length_of_drop (c := atName accessorNames) rfl hname)
    rw [hname, Bool.true_and] at hat
    rw [if_pos hname]
    by_cases hafter : atAny afterAccessorName (ws.drop (j + 1)) = true
    · exact .inl ⟨true, if_pos hafter, by rw [hat, hafter, Bool.true_or]⟩
    · rw [Bool.eq_false_of_not_eq_true hafter, Bool.false_or] at hat
      rw [if_neg hafter]
      by_cases hidentifier : at? .identifier (ws.drop (j + 1)) = true
      · rw [hidentifier, Bool.true_and] at hat
        rw [if_pos hidentifier]
        by_cases hasync : atName ["async"] (ws.drop (j + 1)) = true
        · exact .inl ⟨true, if_pos hasync, by rw [hat, hasync, Bool.true_or]⟩
        · rw [Bool.eq_false_of_not_eq_true hasync, Bool.false_or] at hat
          exact .inr ⟨j + 1, if_neg hasync, ⟨Nat.lt_succ_of_le hle, hlt⟩, hat⟩
      · rw [Bool.eq_false_of_not_eq_true hidentifier, Bool.false_and] at hat
        exact .inl ⟨false, if_neg hidentifier, hat⟩
  · rw [Bool.eq_false_of_not_eq_true hname, Bool.false_and] at hat
    exact .inl ⟨false, if_neg hname, hat⟩

/-! ## to a given depth -/

/-- A type to a given depth, with anything at all in the place of types that are deeper. -/
def typeWithin (giveUp : (ws : List Word) → Parsed ws) : Nat → (ws : List Word) → Parsed ws
  | 0, ws => giveUp ws
  | depth + 1, ws => typeWith (fun r _ => typeWithin giveUp depth r) ws (length_lt_succ ws)

theorem typeWithin_eq (giveUp : (ws : List Word) → Parsed ws) {depth : Nat} {ws : List Word}
    (h : ws.length < depth) : typeWithin giveUp depth ws = typeFrom ws := by
  induction depth generalizing ws with
  | zero => exact absurd h (Nat.not_lt_zero _)
  | succ depth ih =>
    have hinside : (fun r _ => typeWithin giveUp depth r : Rule ws.length) =
        fun r _ => typeFrom r :=
      funext fun r => funext fun hr => ih (Nat.lt_of_lt_of_le hr (Nat.le_of_lt_succ h))
    rw [typeWithin, hinside, typeFrom]

/-- The items of a scope after a given number of steps, into a scope or on to the next item, with
anything at all in the place of what is behind those. -/
def itemsWithin (giveUp : List Kind → (ws : List Word) → Parsed ws) :
    Nat → List Kind → (ws : List Word) → Parsed ws
  | 0, stop, ws => giveUp stop ws
  | steps + 1, stop, ws =>
    if atOther stop ws then
      let p := item (fun stop r (_ : r.length < ws.length) => itemsWithin giveUp steps stop r) stop
        ws (length_lt_succ ws)
      p.append (itemsWithin giveUp steps stop p.rest)
    else .done ws

theorem itemsWithin_eq (giveUp : List Kind → (ws : List Word) → Parsed ws) {steps : Nat}
    {stop : List Kind} {ws : List Word} (h : ws.length < steps) :
    itemsWithin giveUp steps stop ws = itemsFrom stop ws := by
  induction steps generalizing stop ws with
  | zero => exact absurd h (Nat.not_lt_zero _)
  | succ steps ih =>
    have hinside : (fun stop r (_ : r.length < ws.length) => itemsWithin giveUp steps stop r) =
        fun stop r _ => itemsFrom stop r :=
      funext fun stop => funext fun r => funext fun hr =>
        ih (Nat.lt_of_lt_of_le hr (Nat.le_of_lt_succ h))
    rw [itemsWithin, hinside, itemsFrom_eq]
    split
    · next hother =>
      have hlt := length_rest_nextItem_lt hother
      exact congrArg (nextItem stop ws).append
        (ih (Nat.lt_of_lt_of_le hlt (Nat.le_of_lt_succ h)))
    · rfl

end Grammar

/-! ## source files -/

open Grammar

/-- An item takes a cursor on, from wherever a word stands that does not end the scope. -/
theorem Cursor.position_lt_of_item {source : String} {c : Cursor} {front rest : List Placed}
    (h : At source c front rest) (opening : Kind → List Sketch → Option Nat) {stop : List Kind}
    (hother : atOther stop (left source c) = true) :
    ∃ c' front' rest',
      playAll? source opening none (nextItem stop (left source c)).sketches c = some c' ∧
        At source c' front' rest' ∧ left source c' = (nextItem stop (left source c)).rest ∧
          c.position < c'.position := by
  obtain ⟨c', front', rest', hplay, hat, hleft⟩ :=
    playAll?_left opening h (nextItem stop (left source c)).covers
  refine ⟨c', front', rest', hplay, hat, hleft, ?_⟩
  have hlt := length_rest_nextItem_lt hother
  rw [← hleft, left, left, List.length_drop, List.length_drop] at hlt
  omega

/-- Runs of words end: those of an expression, a statement and a group, the names of a parameter
and the suffixes of a type. -/
structure RunsEnd : Prop where
  expression : ∀ accessorsFollow,
    Ends (expressionTurn accessorsFollow) (fun s => s.2.2.length)
      (fun s => (expressionWords accessorsFollow s.1 s.2.1 s.2.2).rest)
  statement : ∀ stop,
    Ends (statementTurn stop) (fun s => s.2.2.length)
      (fun s => (statementWords stop s.1 s.2.1 s.2.2).rest)
  group : Ends groupTurn (fun s => s.2.length) (fun s => (groupFrom s.1 s.2).rest)
  names : Ends nameTurn (fun s => s.2.length) (fun s => behindNames s.1 s.2)
  twoNames : ∀ n ws (h : ws.length < n), (parameterNames ws h).rest = behindNames 2 ws
  suffixes : Ends suffixTurn (fun s => s.2.length) (fun s => wrapSuffixes s.1 s.2)

/-- Looking ahead climbs: for modifiers, through groups, over dotted names, over attributes and
modifiers, and for accessors. -/
structure LooksClimb (ws : List Word) : Prop where
  modifier : Climbs ws (modifierTurn ws) id (fun i => atModifier (ws.drop i))
  group : Climbs ws (groupLengthTurn ws) Prod.snd
    (fun s => s.2 + groupLengthFrom s.1 (ws.drop s.2))
  dotted : Climbs ws (dottedTurn ws) id (fun i => skipDottedNames (ws.drop i))
  lead : Climbs ws (leadTurn ws) id (fun i => skipAttributesAndModifiers (ws.drop i))
  accessorModifier : Climbs ws (accessorModifierTurn ws) id
    (fun i => skipAccessorModifiers (ws.drop i))
  accessor : Climbs ws (accessorTurn ws) id (fun i => atAccessor (ws.drop i))

/-- Reading a source file always comes to an end. An item takes the cursor on, from wherever a
word stands that does not end the scope, and so a scope is left after no more items than there
are words. Every other loop of the grammar, in the rule that it stands in, goes on only with
fewer words, and is left with the words that the rule leaves. Looking ahead goes on only from a
word and to a higher index. Scopes and types need no more steps than there are words: what is read
does not depend on what would stand in the place of the steps after those. -/
theorem parse_progresses (source : String) :
    (∀ c front rest, Cursor.At source c front rest → ∀ opening stop,
      atOther stop (Cursor.left source c) = true → ∃ c' front' rest',
        Cursor.playAll? source opening none (nextItem stop (Cursor.left source c)).sketches c =
            some c' ∧
          Cursor.At source c' front' rest' ∧
          Cursor.left source c' = (nextItem stop (Cursor.left source c)).rest ∧
          c.position < c'.position) ∧
      (∀ stop, Ends (scopeTurn stop) List.length (fun ws => (itemsFrom stop ws).rest)) ∧
      (∀ n (inside : List Kind → Rule n) (l : Repetition),
        l.owner inside = l.within inside (l.loop inside).rule ∧
          Ends (l.loop inside).turn (fun ws => ws.1.length)
            (fun ws => ((l.loop inside).rule ws.1 ws.2).rest)) ∧
      RunsEnd ∧
      (∀ ws, LooksClimb ws) ∧
      (∀ giveUp ws depth, ws.length < depth → typeWithin giveUp depth ws = typeFrom ws) ∧
      ∀ giveUp steps, (Word.ofLexemes (Lexeme.lex source)).length < steps →
        itemsWithin giveUp steps [] (Word.ofLexemes (Lexeme.lex source)) =
          fileItems (Word.ofLexemes (Lexeme.lex source)) := by
  refine ⟨fun c front rest h opening stop => Cursor.position_lt_of_item h opening,
    ends_scopeTurn, fun n inside l => ⟨l.owner_eq inside, (l.loop inside).ends⟩, ?_, ?_,
    fun giveUp ws depth => typeWithin_eq giveUp, fun giveUp steps => itemsWithin_eq giveUp⟩
  · exact ⟨ends_expressionTurn, ends_statementTurn, ends_groupTurn, ends_nameTurn,
      fun _ => rest_parameterNames, ends_suffixTurn⟩
  · exact fun ws => ⟨climbs_modifier ws, climbs_groupLength ws, climbs_dotted ws, climbs_lead ws,
      climbs_accessorModifier ws, climbs_accessor ws⟩

/-- The declaration at the start of a file takes the cursor on. -/
theorem parse_progresses_class :
    Cursor.At "class A" .start [] (Cursor.lexemes "class A") ∧
      atOther [] (Cursor.left "class A" .start) = true ∧
        ∃ c', Cursor.playAll? "class A" (fun _ _ => none) none
            (nextItem [] (Cursor.left "class A" .start)).sketches .start = some c' ∧
          0 < c'.position := by
  have hat : Cursor.At "class A" .start [] (Cursor.lexemes "class A") := ⟨rfl, rfl, rfl⟩
  have hother : atOther [] (Cursor.left "class A" .start) = true := by decide +kernel
  obtain ⟨c', _, _, hplay, _, _, hlt⟩ :=
    (parse_progresses "class A").1 _ _ _ hat (fun _ _ => none) [] hother
  exact ⟨hat, hother, c', hplay, hlt⟩

end SwiftOutline

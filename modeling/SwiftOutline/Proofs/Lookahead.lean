import SwiftOutline.Grammar.Declaration

/-!
# SwiftOutline.Proofs.Lookahead

Attributes and modifiers are passed twice: by a look ahead, which takes them in any order, and
by the rules, which take attributes first and modifiers after them.

* `afterLead` — what the rules leave: `skipAttributes`, then `skipModifiers`
  (`rest_attributesAndModifiers`);
* `afterParen` — the arguments of an attribute end at a parenthesis for the rules, at any
  closing bracket for the look ahead; `parenEnds` says that these are the same;
* `afterLead_eq_iff` — where the arguments end alike, both leave the same words exactly if no
  attribute stands behind a modifier.
-/

namespace SwiftOutline.Grammar

open Rule

variable {n : Nat}

/-! ## groups -/

theorem rest_groupFrom (depth : Nat) (ws : List Word) :
    (groupFrom depth ws).rest = ws.drop (groupLengthFrom depth ws) := by
  induction ws generalizing depth with
  | nil => rfl
  | cons w r ih =>
    rw [groupFrom, groupLengthFrom]
    split
    · rfl
    · rw [Parsed.rest_cons, ih, List.drop_succ_cons]

theorem rest_group (ws : List Word) (h : ws.length < n) :
    (group ws h).rest = ws.drop (groupLength ws) := rest_groupFrom 0 ws

/-- Brackets that were open before do not change what a word does to the depth. -/
theorem depthAfter_add {a : Nat} (ha : 0 < a) (b : Nat) (k : Kind) :
    depthAfter (a + b) k = depthAfter a k + b := by
  unfold depthAfter
  split
  · omega
  · split <;> omega

theorem groupLengthFrom_of_zero {depth : Nat} {w : Word} (r : List Word)
    (h : depthAfter depth w.kind = 0) : groupLengthFrom depth (w :: r) = 1 := by
  rw [groupLengthFrom, h]

theorem groupLengthFrom_of_pos {depth : Nat} {w : Word} (r : List Word)
    (h : 0 < depthAfter depth w.kind) :
    groupLengthFrom depth (w :: r) = groupLengthFrom (depthAfter depth w.kind) r + 1 := by
  rw [groupLengthFrom]
  cases hd : depthAfter depth w.kind with
  | zero => omega
  | succ d => rfl

/-- To leave two depths is to leave the inner one, then the outer one. -/
theorem groupLengthFrom_add {a b : Nat} (ha : 0 < a) (hb : 0 < b) (ws : List Word) :
    groupLengthFrom (a + b) ws =
      groupLengthFrom a ws + groupLengthFrom b (ws.drop (groupLengthFrom a ws)) := by
  induction ws generalizing a with
  | nil => rfl
  | cons w r ih =>
    have hdepth := depthAfter_add ha b w.kind
    rw [groupLengthFrom_of_pos r (by omega), hdepth]
    obtain hzero | hpos := Nat.eq_zero_or_pos (depthAfter a w.kind)
    · rw [groupLengthFrom_of_zero r hzero, hzero, Nat.zero_add, List.drop_succ_cons,
        List.drop_zero, Nat.add_comm]
    · rw [groupLengthFrom_of_pos r hpos, ih hpos, List.drop_succ_cons]
      omega

/-- A bracket that opens is the first word of its group. -/
theorem groupLength_of_isOpener {w : Word} (r : List Word) (h : w.kind.isOpener = true) :
    groupLength (w :: r) = groupLengthFrom 1 r + 1 := by
  rw [groupLength, groupLengthFrom, depthAfter, if_pos h]

/-! ## the arguments of an attribute -/

/-- What stands after the parenthesis that ends the arguments of an attribute. Groups inside
are passed as a whole. -/
def afterParen : List Word → List Word
  | [] => []
  | w :: r =>
    if w.kind = .closeParen then r
    else if w.kind.isOpener then afterParen (r.drop (groupLengthFrom 1 r))
    else afterParen r
  termination_by ws => ws.length
  decreasing_by all_goals simp only [List.length_drop, List.length_cons]; omega

/-- Whether brackets that are open up to a depth end with a parenthesis, or nowhere. -/
def parenEnds (depth : Nat) : List Word → Bool
  | [] => true
  | w :: r =>
    match depthAfter depth w.kind with
    | 0 => w.kind == .closeParen
    | d + 1 => parenEnds (d + 1) r

theorem parenEnds_of_zero {depth : Nat} {w : Word} (r : List Word)
    (h : depthAfter depth w.kind = 0) :
    parenEnds depth (w :: r) = (w.kind == .closeParen) := by
  rw [parenEnds, h]

theorem parenEnds_of_pos {depth : Nat} {w : Word} (r : List Word)
    (h : 0 < depthAfter depth w.kind) :
    parenEnds depth (w :: r) = parenEnds (depthAfter depth w.kind) r := by
  rw [parenEnds]
  cases hd : depthAfter depth w.kind with
  | zero => omega
  | succ d => rfl

theorem parenEnds_add {a b : Nat} (ha : 0 < a) (hb : 0 < b) (ws : List Word) :
    parenEnds (a + b) ws = parenEnds b (ws.drop (groupLengthFrom a ws)) := by
  induction ws generalizing a with
  | nil => rfl
  | cons w r ih =>
    have hdepth := depthAfter_add ha b w.kind
    rw [parenEnds_of_pos r (by omega), hdepth]
    obtain hzero | hpos := Nat.eq_zero_or_pos (depthAfter a w.kind)
    · rw [groupLengthFrom_of_zero r hzero, hzero, Nat.zero_add, List.drop_succ_cons,
        List.drop_zero]
    · rw [groupLengthFrom_of_pos r hpos, ih hpos, List.drop_succ_cons]

/-- Arguments that end with a parenthesis end where their group does. -/
theorem afterParen_eq_drop {ws : List Word} (h : parenEnds 1 ws = true) :
    afterParen ws = ws.drop (groupLengthFrom 1 ws) := by
  fun_induction afterParen ws with
  | case1 => rfl
  | case2 w r hw =>
    have hdepth : depthAfter 1 w.kind = 0 := by rw [hw]; rfl
    rw [groupLengthFrom_of_zero r hdepth]
    rfl
  | case3 w r hw hopen ih =>
    have hdepth : depthAfter 1 w.kind = 1 + 1 := by rw [depthAfter, if_pos hopen]
    have hpos : 0 < depthAfter 1 w.kind := by omega
    rw [parenEnds_of_pos r hpos, hdepth, parenEnds_add Nat.one_pos Nat.one_pos] at h
    rw [ih h, groupLengthFrom_of_pos r hpos, hdepth, List.drop_succ_cons,
      groupLengthFrom_add Nat.one_pos Nat.one_pos, List.drop_drop]
  | case4 w r hw hopen ih =>
    have hdepth : depthAfter 1 w.kind = 1 := by
      rw [depthAfter, if_neg hopen]
      split
      · next hclose =>
        have hzero : depthAfter 1 w.kind = 0 := by rw [depthAfter, if_neg hopen, if_pos hclose]
        rw [parenEnds_of_zero r hzero] at h
        exact absurd (by simpa using h) hw
      · rfl
    have hpos : 0 < depthAfter 1 w.kind := by omega
    rw [parenEnds_of_pos r hpos, hdepth] at h
    rw [ih h, groupLengthFrom_of_pos r hpos, hdepth, List.drop_succ_cons]

/-! ## what loops leave -/

/-- What every step of a loop keeps holds after the loop, and the loop goes on no further. -/
theorem many_rest {c : List Word → Bool} {p : Rule n} {hp : Advances c p}
    {I : List Word → Prop} (hstep : ∀ ws h, c ws = true → I ws → I (p ws h).rest)
    (ws : List Word) (h : ws.length < n) (hI : I ws) :
    I (many c p hp ws h).rest ∧ c (many c p hp ws h).rest = false := by
  induction hlen : ws.length using Nat.strongRecOn generalizing ws with
  | ind l ih =>
    subst hlen
    unfold many
    split
    · next hc => exact ih _ (hp ws h hc) _ _ (hstep ws h hc hI) rfl
    · next hc => exact ⟨hI, by simpa using hc⟩

/-- What elements and commas keep holds after a list. The list ends behind an element, without
a comma, or behind a comma that no element follows. -/
theorem commaTail_rest {c : List Word → Bool} {p : Rule n} {I J : List Word → Prop}
    (helement : ∀ ws h, c ws = true → I ws → J (p ws h).rest)
    (hcomma : ∀ w r, w.kind = .comma → J (w :: r) → I r)
    (ws : List Word) (h : ws.length < n) (hJ : J ws) :
    (J (commaTail c p ws h).rest ∧ at? .comma (commaTail c p ws h).rest = false) ∨
      (I (commaTail c p ws h).rest ∧ c (commaTail c p ws h).rest = false) := by
  induction hlen : ws.length using Nat.strongRecOn generalizing ws with
  | ind l ih =>
    subst hlen
    cases ws with
    | nil =>
      unfold commaTail
      exact .inl ⟨hJ, rfl⟩
    | cons w r =>
      unfold commaTail
      split
      · next hw =>
        split
        · next hc =>
          have hlt := Nat.lt_succ_of_le (p r (Nat.lt_trans (Nat.lt_succ_self _) h)).length_rest_le
          exact ih _ hlt _ _ (helement r _ hc (hcomma w r hw hJ)) rfl
        · next hc => exact .inr ⟨hcomma w r hw hJ, by simpa using hc⟩
      · next hw => exact .inl ⟨hJ, by simpa [at?, kind?] using hw⟩

theorem commaList_rest {c : List Word → Bool} {p : Rule n} {I J : List Word → Prop}
    (helement : ∀ ws h, c ws = true → I ws → J (p ws h).rest)
    (hcomma : ∀ w r, w.kind = .comma → J (w :: r) → I r)
    (ws : List Word) (h : ws.length < n) (hI : I ws) :
    (J (commaList c p ws h).rest ∧ at? .comma (commaList c p ws h).rest = false) ∨
      (I (commaList c p ws h).rest ∧ c (commaList c p ws h).rest = false) := by
  unfold commaList Rule.optional Rule.ifAt
  split
  · next hc => exact commaTail_rest helement hcomma _ _ (helement ws h hc hI)
  · next hc =>
    have hend : c ws = false := by simpa using hc
    exact .inr ⟨hI, hend⟩

/-! ## what the rules leave -/

theorem rest_bump (ws : List Word) (h : ws.length < n) : (bump ws h).rest = ws.tail := by
  cases ws with
  | nil => rfl
  | cons w r => rfl

theorem rest_dottedNames (ws : List Word) (h : ws.length < n) :
    (whileAt (atPair .dot .identifier) bump ws h).rest = skipDottedNames ws := by
  fun_induction skipDottedNames ws with
  | case1 d i r hdi ih =>
    unfold whileAt
    rw [if_pos (by simp [atPair, at?, kind?, hdi])]
    exact ih _
  | case2 d i r hdi =>
    unfold whileAt
    rw [if_neg (by simpa [atPair, at?, kind?] using hdi)]
    rfl
  | case3 ws hws =>
    cases ws with
    | nil =>
      unfold whileAt
      rfl
    | cons w r =>
      cases r with
      | nil =>
        unfold whileAt
        rw [if_neg (by simp [atPair, at?, kind?])]
        rfl
      | cons i r => exact absurd rfl (hws w i r)

theorem rest_attributeName (ws : List Word) (h : ws.length < n) :
    (attributeName ws h).rest = skipDottedNames ws.tail := by
  cases ws with
  | nil => rfl
  | cons w r => exact rest_dottedNames r _

/-- An argument of an attribute ends before a comma or the closing parenthesis. -/
theorem attributeArgument_rest (ws : List Word) (h : ws.length < n) :
    afterParen (attributeArgument ws h).rest = afterParen ws ∧
      atOther [.comma, .closeParen] (attributeArgument ws h).rest = false := by
  refine many_rest (I := fun r => afterParen r = afterParen ws) ?_ ws h rfl
  intro r hr hc hI
  rw [← hI]
  cases r with
  | nil => cases hc
  | cons w r =>
    have hparen : w.kind ≠ .closeParen := by
      rintro hw
      simp [atOther, atWord, atAny, kind?, hw] at hc
    rw [afterParen.eq_2, if_neg hparen]
    unfold ifAt
    by_cases hopen : w.kind.isOpener = true
    · have hat : atAny [.openParen, .openBracket, .openBrace] (w :: r) = true := by
        cases hk : w.kind <;> simp_all [atAny, kind?, Kind.isOpener]
      rw [if_pos hat, if_pos hopen, rest_group, groupLength_of_isOpener r hopen,
        List.drop_succ_cons]
    · have hat : ¬atAny [.openParen, .openBracket, .openBrace] (w :: r) = true := by
        cases hk : w.kind <;> simp_all [atAny, kind?, Kind.isOpener]
      rw [if_neg hat, if_neg hopen]
      rfl

/-- The list of arguments ends before the closing parenthesis. -/
theorem attributeArgumentList_rest (ws : List Word) (h : ws.length < n) :
    afterParen (commaList (atOther [.closeParen]) attributeArgument ws h).rest =
        afterParen ws ∧
      atOther [.closeParen]
        (commaList (atOther [.closeParen]) attributeArgument ws h).rest = false := by
  have hlist := commaList_rest (p := attributeArgument) (c := atOther [.closeParen])
    (I := fun r => afterParen r = afterParen ws)
    (J := fun r => afterParen r = afterParen ws ∧ atOther [.comma, .closeParen] r = false)
    ?_ ?_ ws h rfl
  · generalize (commaList _ _ ws h).rest = q at hlist ⊢
    obtain ⟨⟨hafter, hend⟩, hcomma⟩ | hend := hlist
    · refine ⟨hafter, ?_⟩
      cases q with
      | nil => rfl
      | cons v q => simp_all [at?, kind?, atOther, atWord, atAny]
    · exact hend
  · intro r hr _ hI
    obtain ⟨hafter, hend⟩ := attributeArgument_rest r hr
    exact ⟨hafter.trans hI, hend⟩
  · intro v q hv hJ
    have hopen : v.kind.isOpener = false := by rw [hv]; rfl
    rw [← hJ.1, afterParen.eq_2, if_neg (by simp [hv]), if_neg (by simp [hopen])]

theorem rest_expect_closeParen (f : Fault) (ws : List Word) (h : ws.length < n)
    (hend : atOther [.closeParen] ws = false) :
    (expect .closeParen f ws h).rest = afterParen ws := by
  cases ws with
  | nil => rw [afterParen.eq_1]; rfl
  | cons w r =>
    have hw : w.kind = .closeParen := by simpa [atOther, atWord, atAny, kind?] using hend
    rw [afterParen.eq_2, if_pos hw, expect, Rule.ifAt, if_pos (by simp [at?, kind?, hw])]
    rfl

/-- The arguments of an attribute end behind the parenthesis that closes them. -/
theorem rest_attributeArguments (ws : List Word) (h : ws.length < n) :
    (attributeArguments ws h).rest = afterParen ws.tail := by
  obtain ⟨hafter, hend⟩ := attributeArgumentList_rest (bump ws h).rest
    ((bump ws h).length_rest_lt h)
  have hparen := rest_expect_closeParen .unclosedAttributeArguments _
    (Parsed.length_rest_lt _ ((bump ws h).length_rest_lt h)) hend
  rw [hafter] at hparen
  exact hparen.trans (congrArg afterParen (rest_bump ws h))

/-! ## attributes, then modifiers -/

theorem length_afterParen_le (ws : List Word) : (afterParen ws).length ≤ ws.length := by
  fun_induction afterParen ws with
  | case1 => exact Nat.le_refl _
  | case2 w r _ => exact Nat.le_succ _
  | case3 w r _ _ ih => simp only [List.length_drop, List.length_cons] at *; omega
  | case4 w r _ _ ih => simp only [List.length_cons]; omega

/-- What stands after the arguments of an attribute, if there are any. -/
def skipAttributeArguments (ws : List Word) : List Word :=
  if atJoinedParen ws then afterParen ws.tail else ws

theorem length_skipAttributeArguments_le (ws : List Word) :
    (skipAttributeArguments ws).length ≤ ws.length := by
  have := length_afterParen_le ws.tail
  unfold skipAttributeArguments
  split
  · simp only [List.length_tail] at this
    omega
  · exact Nat.le_refl _

/-- What stands after attributes. -/
def skipAttributes : List Word → List Word
  | [] => []
  | w :: r =>
    if w.kind = .atSign then skipAttributes (skipAttributeArguments (skipDottedNames r.tail))
    else w :: r
  termination_by ws => ws.length
  decreasing_by
    have h₁ := length_skipAttributeArguments_le (skipDottedNames r.tail)
    have h₂ := length_skipDottedNames_le r.tail
    simp only [List.length_tail, List.length_cons] at *
    omega

/-- What stands after modifiers. -/
def skipModifiers : List Word → List Word
  | [] => []
  | w :: r => if atModifier (w :: r) then skipModifiers (skipArguments r) else w :: r
  termination_by ws => ws.length
  decreasing_by
    have := length_skipArguments_le r
    simp only [List.length_cons]
    omega

/-- What stands after attributes and then modifiers. -/
def afterLead (ws : List Word) : List Word := skipModifiers (skipAttributes ws)

theorem rest_oneAttribute (ws : List Word) (h : ws.length < n) :
    (oneAttribute ws h).rest = skipAttributeArguments (skipDottedNames ws.tail.tail) := by
  have hname := (rest_attributeName (bump ws h).rest ((bump ws h).length_rest_lt h)).trans
    (congrArg (fun r => skipDottedNames r.tail) (rest_bump ws h))
  show (Rule.ifAt _ _ _ (attributeName (bump ws h).rest _).rest _).rest = _
  unfold Rule.ifAt skipAttributeArguments
  rw [← hname]
  split
  · exact rest_attributeArguments _ _
  · rfl

theorem rest_oneModifier (ws : List Word) (h : ws.length < n) :
    (oneModifier ws h).rest = skipArguments ws.tail := by
  show (Rule.ifAt _ _ _ (bump ws h).rest _).rest = _
  unfold Rule.ifAt skipArguments
  rw [← rest_bump ws h]
  split
  · exact rest_group _ _
  · rfl

theorem skipAttributes_of_not_at {ws : List Word} (h : at? .atSign ws = false) :
    skipAttributes ws = ws := by
  cases ws with
  | nil => rw [skipAttributes]
  | cons w r =>
    rw [skipAttributes, if_neg]
    simpa [at?, kind?] using h

theorem skipModifiers_of_not_at {ws : List Word} (h : atModifier ws = false) :
    skipModifiers ws = ws := by
  cases ws with
  | nil => rw [skipModifiers]
  | cons w r => rw [skipModifiers, h, if_neg Bool.false_ne_true]

theorem rest_attributeList (ws : List Word) (h : ws.length < n) :
    (attributeList ws h).rest = skipAttributes ws := by
  unfold attributeList Rule.optional Rule.ifAt
  split
  · have hstep : ∀ r hr, at? .atSign r = true → skipAttributes r = skipAttributes ws →
        skipAttributes ((oneAttribute : Rule n) r hr).rest = skipAttributes ws := by
      intro r hr hc hI
      cases r with
      | nil => cases hc
      | cons w r =>
        have hw : w.kind = .atSign := by simpa [at?, kind?] using hc
        rw [← hI, rest_oneAttribute, skipAttributes.eq_2, if_pos hw]
        rfl
    have hmany := @many_rest _ _ _ (advances_oneAttribute.of_atWord rfl)
      (fun r => skipAttributes r = skipAttributes ws) hstep ws h rfl
    obtain ⟨hskip, hend⟩ := hmany
    rw [← hskip, skipAttributes_of_not_at hend]
    rfl
  · next hc =>
    have hend : at? .atSign ws = false := by simpa using hc
    exact (skipAttributes_of_not_at hend).symm

theorem rest_modifierList (ws : List Word) (h : ws.length < n) :
    (modifierList ws h).rest = skipModifiers ws := by
  unfold modifierList Rule.optional Rule.ifAt
  split
  · have hstep : ∀ r hr, atModifier r = true → skipModifiers r = skipModifiers ws →
        skipModifiers ((oneModifier : Rule n) r hr).rest = skipModifiers ws := by
      intro r hr hc hI
      cases r with
      | nil => cases hc
      | cons w r =>
        rw [← hI, rest_oneModifier, skipModifiers.eq_2, if_pos hc]
        rfl
    have hmany := @many_rest _ _ _ (advances_oneModifier.of_atWord rfl)
      (fun r => skipModifiers r = skipModifiers ws) hstep ws h rfl
    obtain ⟨hskip, hend⟩ := hmany
    rw [← hskip, skipModifiers_of_not_at hend]
    rfl
  · next hc =>
    have hend : atModifier ws = false := by simpa using hc
    exact (skipModifiers_of_not_at hend).symm

/-- The rules leave what stands after attributes and then modifiers. -/
theorem rest_attributesAndModifiers (ws : List Word) (h : ws.length < n) :
    (attributesAndModifiers ws h).rest = afterLead ws := by
  have hmodifiers := rest_modifierList (attributeList ws h).rest
    ((attributeList ws h).length_rest_lt h)
  exact hmodifiers.trans (congrArg skipModifiers (rest_attributeList ws h))

/-! ## both ways -/

/-- The look ahead passes no further than to a word that is no attribute and no modifier. -/
theorem skipAttributesAndModifiers_of_not_at {ws : List Word} (ha : at? .atSign ws = false)
    (hm : atModifier ws = false) : skipAttributesAndModifiers ws = ws := by
  cases ws with
  | nil => rw [skipAttributesAndModifiers]
  | cons w r =>
    have hw : w.kind ≠ .atSign := by simpa [at?, kind?] using ha
    rw [skipAttributesAndModifiers, if_neg hw, hm, if_neg Bool.false_ne_true]

/-- The look ahead never stops at an attribute. -/
theorem at?_skipAttributesAndModifiers (ws : List Word) :
    at? .atSign (skipAttributesAndModifiers ws) = false := by
  fun_induction skipAttributesAndModifiers ws with
  | case1 => rfl
  | case2 w r _ ih => exact ih
  | case3 w r _ _ ih => exact ih
  | case4 w r hw _ => simpa [at?, kind?] using hw

theorem atModifier_skipModifiers (ws : List Word) : atModifier (skipModifiers ws) = false := by
  fun_induction skipModifiers ws with
  | case1 => rfl
  | case2 w r _ ih => exact ih
  | case3 w r hw => simpa using hw

theorem atModifier_of_at_atSign {w : Word} {r : List Word} (h : w.kind = .atSign) :
    atModifier (w :: r) = false := by
  rw [atModifier, h]

/-- To pass modifiers first changes nothing for the look ahead. -/
theorem skipAttributesAndModifiers_skipModifiers (ws : List Word) :
    skipAttributesAndModifiers (skipModifiers ws) = skipAttributesAndModifiers ws := by
  fun_induction skipModifiers ws with
  | case1 => rfl
  | case2 w r hw ih =>
    have hk : w.kind ≠ .atSign := by
      intro hk
      rw [atModifier_of_at_atSign hk] at hw
      cases hw
    rw [ih, skipAttributesAndModifiers.eq_2, if_neg hk, if_pos hw]
  | case3 w r _ => rfl

/-- Whether the arguments of the attributes that stand next end with a parenthesis each. -/
def attributesClose : List Word → Bool
  | [] => true
  | w :: r =>
    if w.kind = .atSign then
      (!atJoinedParen (skipDottedNames r.tail) ||
          parenEnds 1 (skipDottedNames r.tail).tail) &&
        attributesClose (skipArguments (skipDottedNames r.tail))
    else true
  termination_by ws => ws.length
  decreasing_by
    have h₁ := length_skipArguments_le (skipDottedNames r.tail)
    have h₂ := length_skipDottedNames_le r.tail
    simp only [List.length_tail, List.length_cons] at *
    omega

/-- Arguments that end with a parenthesis are passed alike. -/
theorem skipAttributeArguments_eq {ws : List Word}
    (h : (!atJoinedParen ws || parenEnds 1 ws.tail) = true) :
    skipAttributeArguments ws = skipArguments ws := by
  unfold skipAttributeArguments skipArguments
  by_cases hparen : atJoinedParen ws = true
  · have hends : parenEnds 1 ws.tail = true := by simpa [hparen] using h
    rw [if_pos hparen, if_pos hparen, afterParen_eq_drop hends]
    cases ws with
    | nil => cases hparen
    | cons w r =>
      have hopen : w.kind.isOpener = true := by
        have hk : w.kind = .openParen := by
          simp only [atJoinedParen, at?, kind?, Bool.and_eq_true, beq_iff_eq] at hparen
          simpa using hparen.1
        rw [hk]
        rfl
      rw [groupLength_of_isOpener r hopen, List.drop_succ_cons, List.tail_cons]
  · rw [if_neg hparen, if_neg hparen]

/-- To pass attributes first changes nothing for the look ahead, if their arguments end
alike. -/
theorem skipAttributesAndModifiers_skipAttributes {ws : List Word}
    (h : attributesClose ws = true) :
    skipAttributesAndModifiers (skipAttributes ws) = skipAttributesAndModifiers ws := by
  fun_induction attributesClose ws with
  | case1 => rw [skipAttributes]
  | case2 w r hw ih =>
    obtain ⟨hends, hclose⟩ := Bool.and_eq_true_iff.1 h
    rw [skipAttributes.eq_2, if_pos hw, skipAttributeArguments_eq hends, ih hclose,
      skipAttributesAndModifiers.eq_2, if_pos hw]
  | case3 w r hw => rw [skipAttributes.eq_2, if_neg hw]

/-- Where the arguments of attributes end with a parenthesis, the rules leave the words that
the look ahead found exactly if no attribute stands behind the modifiers. -/
theorem afterLead_eq_iff {ws : List Word} (h : attributesClose ws = true) :
    afterLead ws = skipAttributesAndModifiers ws ↔ at? .atSign (afterLead ws) = false := by
  have hskip : skipAttributesAndModifiers (afterLead ws) = skipAttributesAndModifiers ws := by
    rw [afterLead, skipAttributesAndModifiers_skipModifiers,
      skipAttributesAndModifiers_skipAttributes h]
  constructor
  · intro heq
    rw [heq]
    exact at?_skipAttributesAndModifiers ws
  · intro hat
    rw [← hskip]
    exact (skipAttributesAndModifiers_of_not_at hat (atModifier_skipModifiers _)).symm

/-! ## what a declaration is called for -/

/-- The kind of declaration that the next word makes. -/
def declared (ws : List Word) : Kind := (form (n := 0) (fun _ => .done) [] ws).1

theorem fst_form (inside : List Kind → Rule n) (stop : List Kind) (ws : List Word) :
    (form inside stop ws).1 = declared ws := by
  unfold declared form
  split
  case h_19 => split <;> rfl
  all_goals rfl

/-- The keyword of a declaration makes one. -/
theorem isDeclaration_declared {ws : List Word} (h : atDeclarationWord ws = true) :
    (declared ws).isDeclaration = true := by
  unfold declared form
  split
  case h_19 hk =>
    split
    · rfl
    · next hactor =>
      have hword : atAny declarationWords ws = true := by
        simpa [atDeclarationWord, hactor] using h
      obtain ⟨k, hkind, hmem⟩ := (Option.any_eq_true _ _).1 hword
      simp_all [declarationWords]
  all_goals rfl

end SwiftOutline.Grammar

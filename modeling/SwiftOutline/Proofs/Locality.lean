import SwiftOutline.Proofs.Local

/-!
# SwiftOutline.Proofs.Locality

Every rule of the grammar is local: where it finds no fault and leaves a word, more words behind
change nothing.

The rules are gone through from the smallest to the largest. Rules for what is inside brackets get
that of those as a hypothesis, for the fewer words and for the more.
-/

namespace SwiftOutline.Grammar

open Rule
open Sketch (CleanAll cleanAll_append EndsInWord)

variable {n m : Nat} {vs : List Word}

/-! ## groups, attributes, modifiers, effects -/

theorem extends_groupFrom (depth : Nat) {ws : List Word} (h : (groupFrom depth ws).rest ≠ []) :
    (groupFrom depth ws).Extends vs (groupFrom depth (ws ++ vs)) := by
  induction ws generalizing depth with
  | nil => exact absurd rfl h
  | cons w r ih =>
    rw [List.cons_append]
    unfold groupFrom at h ⊢
    split at h
    · exact .take w r
    · exact (ih _ h).cons w

theorem local_group : Local vs (group : Rule n) (group : Rule m) := by
  rintro ws _ h h' rfl - - hrest
  exact extends_groupFrom 0 hrest

theorem stable_atModifier : Stable vs atModifier := fun _ hend hne =>
  atModifier_append vs hend hne

theorem stable_atPair {a b : Kind} (ha : a ≠ .closeBrace) : Stable vs (atPair a b) :=
  stable_pair (near_at? a) (near_at? b) fun w _ hw => by
    simp [at?, kind?, hw, ha.symm]

theorem local_attributeArgument :
    Local vs (attributeArgument : Rule n) (attributeArgument : Rule m) :=
  ((local_group.ifAt (near_atAny _).stable local_bump).many (near_atOther _).stable _ _).node _

theorem local_attributeArguments :
    Local vs (attributeArguments : Rule n) (attributeArguments : Rule m) :=
  (local_bump.seq ((local_attributeArgument.commaList (near_atOther _).stable).seq
    (local_expect _ _))).node _

theorem local_attributeName : Local vs (attributeName : Rule n) (attributeName : Rule m) := by
  have hnames : Local vs (whileAt (atPair .dot .identifier) bump : Rule n)
      (whileAt (atPair .dot .identifier) bump : Rule m) :=
    local_bump.whileAt (stable_atPair (by decide))
  exact ((local_bump.seq hnames).ifAt near_atWord.stable (local_fault _)).node _

theorem local_oneAttribute : Local vs (oneAttribute : Rule n) (oneAttribute : Rule m) :=
  (local_bump.seq (local_attributeName.seq
    (local_attributeArguments.optional near_atJoinedParen.stable))).node _

theorem local_attributeList : Local vs (attributeList : Rule n) (attributeList : Rule m) :=
  ((local_oneAttribute.many (near_at? _).stable _ _).node _).optional (near_at? _).stable

theorem local_oneModifier : Local vs (oneModifier : Rule n) (oneModifier : Rule m) :=
  (local_bump.seq ((local_group.node _).optional near_atJoinedParen.stable)).node _

theorem local_modifierList : Local vs (modifierList : Rule n) (modifierList : Rule m) :=
  ((local_oneModifier.many stable_atModifier _ _).node _).optional stable_atModifier

theorem local_attributesAndModifiers :
    Local vs (attributesAndModifiers : Rule n) (attributesAndModifiers : Rule m) :=
  local_attributeList.seq local_modifierList

theorem near_atEffect : Near atEffect := fun _ _ _ => rfl

theorem local_effect : Local vs (effect : Rule n) (effect : Rule m) :=
  (local_bump.seq (local_group.optional near_atJoinedParen.stable)).ifAt (near_at? _).stable
    local_bump

theorem local_effectSpecifiers :
    Local vs (effectSpecifiers : Rule n) (effectSpecifiers : Rule m) :=
  ((local_effect.many near_atEffect.stable _ _).node _).optional near_atEffect.stable

/-! ## types -/

/-- A label ends before the last word, which is no part of one. -/
theorem labelLength_append {ws : List Word} (hend : Ended ws) (hne : ws ≠ []) :
    labelLength (ws ++ vs) = labelLength ws := by
  have hpair (k : Kind) : atPair .identifier k (ws ++ vs) = atPair .identifier k ws :=
    stable_atPair (by decide) ws hend hne
  have hcolon (h : atPair .identifier .identifier ws = true) :
      at? .colon ((ws ++ vs).drop 2) = at? .colon (ws.drop 2) := by
    simp only [atPair, at?, kind?, Bool.and_eq_true] at h
    cases ws with
    | nil => cases h.1
    | cons w r =>
      cases r with
      | nil => cases h.2
      | cons v r =>
        have hv : v.kind = .identifier := by simpa using h.2
        obtain ⟨u, r', rfl⟩ := hend.tail.exists_cons (by simp [hv])
        rfl
  unfold labelLength
  rw [hpair, hpair]
  by_cases h : atPair .identifier .identifier ws = true
  · rw [hcolon h]
  · simp [h]

theorem stable_labelLength (k : Nat) : Stable vs fun ws => labelLength ws == k :=
  fun ws hend hne => by simp only [labelLength_append hend hne]

theorem local_label : Local vs (label : Rule n) (label : Rule m) := by
  have htwo : Local vs (bump >> bump : Rule n) (bump >> bump : Rule m) :=
    local_bump.seq local_bump
  exact htwo.ifAt (stable_labelLength 2)
    ((local_bump.seq htwo).optional (stable_labelLength 3))

theorem near_atTypeStart : Near atTypeStart := fun _ _ _ => rfl

theorem stable_atPathTail : Stable vs atPathTail :=
  stable_pair (near_at? .dot) (near_atAny _) fun w _ hw => by simp [at?, kind?, hw]

section

variable {inside : Rule n} {inside' : Rule m} (hin : Local vs inside inside')

include hin

theorem local_genericArguments :
    Local vs (genericArguments inside) (genericArguments inside') :=
  (local_bump.seq ((hin.commaList near_atTypeStart.stable).seq (local_expect _ _))).node _

theorem local_pathSegment : Local vs (pathSegment inside) (pathSegment inside') :=
  (((local_genericArguments hin).optional (near_at? _).stable).after).node _

theorem local_path : Local vs (path inside) (path inside') :=
  ((local_pathSegment hin).seq ((local_pathSegment hin).whileAt stable_atPathTail)).node _

theorem local_collectionType : Local vs (collectionType inside) (collectionType inside') := by
  have hclose : Local vs (expect .closeBracket .unclosedCollectionType : Rule n)
      (expect .closeBracket .unclosedCollectionType : Rule m) := local_expect _ _
  have hvalue := local_bump.seq (hin.seq hclose)
  refine local_onWord fun w r h h' hend hclean hrest => ?_
  dsimp only at hclean hrest ⊢
  have hfirst : CleanAll (inside r h).sketches := by
    split at hclean <;> exact (cleanAll_append.1 hclean.1.2).1
  have hne : (inside r h).rest ≠ [] := by
    split at hrest <;> exact Parsed.ne_nil_of_rest hrest
  have helement := hin r _ h h' rfl hend.tail hfirst hne
  have hrestEnd := hend.tail.rest (inside r h)
  rw [helement.at_eq (near_at? _).stable hend.tail hne]
  split
  · next hat =>
    rw [if_pos hat] at hclean hrest
    obtain ⟨-, hlast⟩ := cleanAll_append.1 hclean.1.2
    exact ((helement.append (hvalue _ _ _ _ helement.rest hrestEnd hlast hrest)).cons w).node _
  · next hat =>
    rw [if_neg hat] at hclean hrest
    obtain ⟨-, hlast⟩ := cleanAll_append.1 hclean.1.2
    exact ((helement.append (hclose _ _ _ _ helement.rest hrestEnd hlast hrest)).cons w).node _

theorem local_tupleElement : Local vs (tupleElement inside) (tupleElement inside') := by
  have hnone : Local vs (fault .noType >> optional (atOther [.comma, .closeParen]) bump : Rule n)
      (fault .noType >> optional (atOther [.comma, .closeParen]) bump : Rule m) :=
    (local_fault _).seq (local_bump.optional (near_atOther _).stable)
  exact (local_label.seq ((hin.ifAt near_atTypeStart.stable hnone).seq (local_eat _))).node _

theorem local_functionTypeTail :
    Local vs (functionTypeTail inside) (functionTypeTail inside') :=
  local_effectSpecifiers.seq ((local_expect _ _).seq hin)

theorem local_tupleOrFunctionType :
    Local vs (tupleOrFunctionType inside) (tupleOrFunctionType inside') := by
  have helements : Local vs
      (commaList (atOther [.closeParen]) (tupleElement inside) >>
        expect .closeParen .unclosedTupleType : Rule n)
      (commaList (atOther [.closeParen]) (tupleElement inside') >>
        expect .closeParen .unclosedTupleType : Rule m) :=
    ((local_tupleElement hin).commaList (near_atOther _).stable).seq (local_expect _ _)
  refine local_onWord fun w r h h' hend hclean hrest => ?_
  dsimp only at hclean hrest ⊢
  -- only what is known of the elements is used from here on
  generalize (commaList (atOther [.closeParen]) (tupleElement inside) >>
    expect .closeParen .unclosedTupleType : Rule n) = p at helements hclean hrest ⊢
  generalize (commaList (atOther [.closeParen]) (tupleElement inside') >>
    expect .closeParen .unclosedTupleType : Rule m) = q at helements hclean hrest ⊢
  have hfirst : CleanAll (p r h).sketches := by
    split at hclean
    · exact (cleanAll_append.1 hclean.1).1.1.2
    · exact hclean.1.2
  have hne : (p r h).rest ≠ [] := by
    split at hrest
    · exact Parsed.ne_nil_of_rest hrest
    · exact hrest
  have hinner := helements r _ h h' rfl hend.tail hfirst hne
  have htuple := (hinner.cons w).node .typeTuple
  have hrestEnd := hend.tail.rest (p r h)
  rw [hinner.at_eq near_atEffect.stable hend.tail hne,
    hinner.at_eq (near_at? _).stable hend.tail hne]
  split
  · next hcw =>
    rw [if_pos hcw] at hclean hrest
    obtain ⟨-, hlast⟩ := cleanAll_append.1 hclean.1
    exact (htuple.append (local_functionTypeTail hin _ _ _ _ hinner.rest hrestEnd hlast
      hrest)).node _
  · exact htuple

omit hin in
theorem local_gap : Local vs (gap : Rule n) (gap : Rule m) := by
  rintro ws _ h h' rfl - - -
  exact ⟨rfl, rfl⟩

theorem local_primaryType : Local vs (primaryType inside) (primaryType inside') :=
  (local_tupleOrFunctionType hin).ifAt (near_at? _).stable
    ((local_collectionType hin).ifAt (near_at? _).stable
      ((local_path hin).ifAt (near_atAny _).stable (local_gap.seq (local_fault _))))

omit hin in
/-- Suffixes end before the last word. -/
theorem wrapSuffixes_append (vs : List Word) {ss : List Sketch} {ws : List Word}
    (h : (wrapSuffixes ss ws).2 ≠ []) :
    wrapSuffixes ss (ws ++ vs) = ((wrapSuffixes ss ws).1, (wrapSuffixes ss ws).2 ++ vs) := by
  fun_induction wrapSuffixes ss ws with
  | case1 => exact absurd rfl h
  | case2 ss w r k hk ih =>
    have hk' : suffixKind? (w :: (r ++ vs)) = some k := hk
    rw [List.cons_append, wrapSuffixes, hk']
    exact ih h
  | case3 ss w r hk =>
    have hk' : suffixKind? (w :: (r ++ vs)) = none := hk
    rw [List.cons_append, wrapSuffixes, hk']

omit hin in
theorem cleanAll_of_wrapSuffixes {ss : List Sketch} {ws : List Word}
    (h : CleanAll (wrapSuffixes ss ws).1) : CleanAll ss := by
  fun_induction wrapSuffixes ss ws with
  | case1 => exact h
  | case2 ss w r k _ ih => exact (cleanAll_append.1 (ih h).1).1
  | case3 => exact h

theorem local_suffixedType : Local vs (suffixedType inside) (suffixedType inside') := by
  rintro ws _ h h' rfl hend hclean hrest
  have hne : (primaryType inside ws h).rest ≠ [] := by
    intro hnil
    refine hrest ?_
    show (wrapSuffixes _ (primaryType inside ws h).rest).2 = []
    rw [hnil, wrapSuffixes]
  have hprimary := local_primaryType hin ws _ h h' rfl hend (cleanAll_of_wrapSuffixes hclean) hne
  have hwrap := wrapSuffixes_append vs hrest
  constructor
  · show (wrapSuffixes (primaryType inside' (ws ++ vs) h').sketches
      (primaryType inside' (ws ++ vs) h').rest).1 = _
    rw [hprimary.sketches, hprimary.rest, hwrap]
    rfl
  · show (wrapSuffixes (primaryType inside' (ws ++ vs) h').sketches
      (primaryType inside' (ws ++ vs) h').rest).2 = _
    rw [hprimary.sketches, hprimary.rest, hwrap]
    rfl

theorem local_composedType : Local vs (composedType inside) (composedType inside') := by
  have hothers := (local_suffixedType hin).whileAt (c := at? .ampersand) (near_at? _).stable
  rintro ws _ h h' rfl hend hclean hrest
  unfold composedType at hclean hrest ⊢
  dsimp only at hclean hrest ⊢
  have hfirst : CleanAll (suffixedType inside ws h).sketches := by
    split at hclean
    · exact (cleanAll_append.1 hclean.1).1
    · exact hclean
  have hne : (suffixedType inside ws h).rest ≠ [] := by
    split at hrest
    · exact Parsed.ne_nil_of_rest hrest
    · exact hrest
  have hleft := local_suffixedType hin ws _ h h' rfl hend hfirst hne
  have hrestEnd := hend.rest (suffixedType inside ws h)
  rw [hleft.at_eq (near_at? _).stable hend hne]
  split
  · next hcw =>
    rw [if_pos hcw] at hclean hrest
    obtain ⟨-, hlast⟩ := cleanAll_append.1 hclean.1
    exact (hleft.append (hothers _ _ _ _ hleft.rest hrestEnd hlast hrest)).node _
  · exact hleft

omit hin in
theorem near_atOwnership : Near atOwnership := fun _ _ _ => rfl

omit hin in
theorem near_atTypeAttribute : Near atTypeAttribute := fun _ _ _ => rfl

omit hin in
theorem local_typeAttributes : Local vs (typeAttributes : Rule n) (typeAttributes : Rule m) :=
  (local_attributeList.ifAt (near_at? _).stable local_bump).seq
    ((local_done.whileAt near_atOwnership.stable).seq local_attributeList)

theorem local_attributedType : Local vs (attributedType inside) (attributedType inside') :=
  (local_typeAttributes.advancing near_atTypeAttribute.stable _ _ hin).node _

omit hin in
theorem stable_atConstraint : Stable vs atConstraint :=
  stable_pair (near_atName _) (near_atAny _) fun _ r hw => atName_of_closeBrace _ r hw

theorem local_typeWith : Local vs (typeWith inside) (typeWith inside') :=
  ((hin.after.node _).ifAt (near_atName _).stable (hin.after.node _)).ifAt stable_atConstraint
    ((local_attributedType hin).ifAt near_atTypeAttribute.stable (local_composedType hin))

end

theorem local_type : Local vs (type : Rule n) (type : Rule m) := by
  refine local_of_shorter fun ws ih => ?_
  rintro _ h h' rfl hend hclean hrest
  have hin : Local vs (fun r _ => typeFrom r : Rule ws.length)
      (fun r _ => typeFrom r : Rule (ws ++ vs).length) := by
    intro r r' hr hr'
    exact ih r hr r' (Nat.lt_trans hr h) (Nat.lt_trans hr' h')
  change CleanAll (typeFrom ws).sketches at hclean
  change (typeFrom ws).rest ≠ [] at hrest
  change (typeFrom ws).Extends vs (typeFrom (ws ++ vs))
  rw [typeFrom] at hclean hrest
  rw [typeFrom.eq_1 ws, typeFrom.eq_1 (ws ++ vs)]
  exact local_typeWith hin ws _ _ _ rfl hend hclean hrest

/-! ## clauses -/

theorem local_identifierName : Local vs (identifierName : Rule n) (identifierName : Rule m) :=
  (local_expect _ _).node _

theorem near_atOperatorTail : Near atOperatorTail := fun _ _ _ => rfl

theorem local_operatorName : Local vs (operatorName : Rule n) (operatorName : Rule m) :=
  (local_bump.ifAt (near_at? _).stable
    ((local_bump.seq (local_done.whileAt near_atOperatorTail.stable)).ifAt (near_atAny _).stable
      (local_fault _))).node _

theorem local_annotatedType : Local vs (annotatedType : Rule n) (annotatedType : Rule m) :=
  (local_bump.seq local_type).node _

theorem local_typeInitializer : Local vs (typeInitializer : Rule n) (typeInitializer : Rule m) :=
  (local_bump.seq local_type).node _

theorem local_returnClause : Local vs (returnClause : Rule n) (returnClause : Rule m) :=
  ((local_bump.seq local_type).node _).optional (near_at? _).stable

theorem stable_atPack : Stable vs atPack :=
  stable_pair (near_atName _) (near_at? _) fun _ r hw => atName_of_closeBrace _ r hw

theorem local_genericParameter :
    Local vs (genericParameter : Rule n) (genericParameter : Rule m) :=
  (local_attributeList.seq ((local_bump.optional stable_atPack).seq (local_identifierName.seq
    (((local_bump.seq local_type).optional (near_at? _).stable).seq (local_eat _))))).node _

theorem local_genericParameters :
    Local vs (genericParameters : Rule n) (genericParameters : Rule m) :=
  ((local_bump.seq ((local_genericParameter.commaList (near_atAny _).stable).seq
    (local_expect _ _))).node _).optional (near_at? _).stable

theorem near_atSameType : Near atSameType := fun _ _ _ => rfl

theorem near_true : Near fun _ => true := fun _ _ _ => rfl

theorem local_genericRequirement :
    Local vs (genericRequirement : Rule n) (genericRequirement : Rule m) := by
  have hright : Local vs (bump >> type : Rule n) (bump >> type : Rule m) :=
    local_bump.seq local_type
  exact (local_type.seq (hright.ifAt (near_at? _).stable
    (hright.ifAt near_atSameType.stable (local_fault _)))).node _

theorem local_genericRequirements :
    Local vs (genericRequirements : Rule n) (genericRequirements : Rule m) :=
  ((local_bump.seq (local_genericRequirement.commaList near_true.stable)).node _).optional
    (near_at? _).stable

theorem local_inheritance : Local vs (inheritance : Rule n) (inheritance : Rule m) :=
  ((local_bump.seq ((local_type.node _).commaList near_true.stable)).node _).optional
    (near_at? _).stable

/-! ## expressions and statements -/

theorem extends_statementWords (stop : List Kind) (depth : Nat) (begun : Bool) {ws : List Word}
    (h : (statementWords stop depth begun ws).rest ≠ []) :
    (statementWords stop depth begun ws).Extends vs
      (statementWords stop depth begun (ws ++ vs)) := by
  induction ws generalizing depth begun with
  | nil => exact absurd rfl h
  | cons w r ih =>
    have hends : endsStatement stop begun (w :: (r ++ vs)) = endsStatement stop begun (w :: r) :=
      rfl
    rw [List.cons_append]
    unfold statementWords at h ⊢
    rw [hends]
    split
    · exact .done
    · next hcontinue =>
      rw [if_neg hcontinue] at h
      split
      · exact .take w r
      · next hsemi =>
        rw [if_neg hsemi] at h
        exact (ih _ _ h).cons w

theorem near_atCloser : Near atCloser := fun _ _ _ => rfl

theorem local_statement (stop : List Kind) :
    Local vs (statement stop : Rule n) (statement stop : Rule m) := by
  have hwords : Local vs (fun ws _ => statementWords stop 0 false ws : Rule n)
      (fun ws _ => statementWords stop 0 false ws : Rule m) := by
    rintro ws _ h h' rfl - - hrest
    exact extends_statementWords stop 0 false hrest
  exact (((local_fault _).seq local_bump).ifAt near_atCloser.stable hwords).node _

/-- An expression ends or not whatever stands behind the words, unless the look ahead for
accessors behind a brace runs to their end. -/
theorem endsExpression_append (vs : List Word) (accessorsFollow begun : Bool) {w : Word}
    {r : List Word} (hend : Ended r) :
    endsExpression accessorsFollow begun (w :: (r ++ vs)) =
        endsExpression accessorsFollow begun (w :: r) ∨
      endsExpression accessorsFollow begun (w :: r) = false ∧ w.kind = .openBrace ∧ Loose 0 r := by
  have hbrace (r' : List Word) : at? .openBrace (w :: r') = (w.kind == .openBrace) := rfl
  by_cases hw : w.kind = .openBrace
  · have hblock (r' : List Word) :
        endsExpression accessorsFollow begun (w :: r') = (accessorsFollow && atAccessor r') := by
      simp [endsExpression, atAccessorBlock, hbrace, hw]
    rw [hblock, hblock]
    obtain heq | ⟨hfalse, hloose⟩ := atAccessor_append vs hend
    · exact .inl (by rw [heq])
    · exact .inr ⟨by simp [hfalse], hw, hloose⟩
  · left
    simp only [endsExpression, hbrace]
    rw [if_neg (by simpa using hw), if_neg (by simpa using hw)]
    rfl

/-- An expression that leaves a word ends or goes on whatever stands behind the words: if a brace
is taken and only loose words stand behind it, they are taken to the end. -/
theorem endsExpression_of_rest (vs : List Word) (accessorsFollow : Bool) (depth : Nat)
    (begun : Bool) {w : Word} {r : List Word} (hend : Ended r)
    (h : (expressionWords accessorsFollow depth begun (w :: r)).rest ≠ []) :
    (depth == 0 && endsExpression accessorsFollow begun (w :: (r ++ vs))) =
      (depth == 0 && endsExpression accessorsFollow begun (w :: r)) := by
  obtain heq | ⟨hfalse, hw, hloose⟩ := endsExpression_append vs accessorsFollow begun hend
  · rw [heq]
  · cases depth with
    | succ depth => simp
    | zero =>
      unfold expressionWords at h
      rw [hfalse, Bool.and_false, if_neg Bool.false_ne_true, hw] at h
      exact absurd (rest_expressionWords_of_loose accessorsFollow 0 true hloose) h

theorem extends_expressionWords (accessorsFollow : Bool) (depth : Nat) (begun : Bool)
    {ws : List Word} (hend : Ended ws)
    (h : (expressionWords accessorsFollow depth begun ws).rest ≠ []) :
    (expressionWords accessorsFollow depth begun ws).Extends vs
      (expressionWords accessorsFollow depth begun (ws ++ vs)) := by
  induction ws generalizing depth begun with
  | nil => exact absurd rfl h
  | cons w r ih =>
    have hat := endsExpression_of_rest vs accessorsFollow depth begun hend.tail h
    rw [List.cons_append]
    unfold expressionWords at h ⊢
    rw [hat]
    split
    · exact .done
    · next hcontinue =>
      rw [if_neg hcontinue] at h
      exact (ih _ _ hend.tail h).cons w

theorem local_expression (accessorsFollow : Bool) :
    Local vs (expression accessorsFollow : Rule n) (expression accessorsFollow : Rule m) := by
  refine Local.node ?_ _
  rintro ws _ h h' rfl hend hclean hrest
  unfold ifAt at hclean hrest ⊢
  split at hclean
  · exact hclean.1.elim
  · next hempty =>
    rw [if_neg hempty] at hrest ⊢
    cases ws with
    | nil => exact absurd rfl hempty
    | cons w r =>
      have hat := endsExpression_of_rest vs accessorsFollow 0 false hend.tail hrest
      have hends : ¬(((w :: r) ++ vs).isEmpty ||
          endsExpression accessorsFollow false ((w :: r) ++ vs)) = true := by
        have hend' : endsExpression accessorsFollow false (w :: r) = false := by
          simpa using hempty
        rw [hend', Bool.and_false] at hat
        simpa using hat
      rw [if_neg hends]
      exact extends_expressionWords accessorsFollow 0 false hend hrest

theorem local_initializer (accessorsFollow : Bool) :
    Local vs (initializer accessorsFollow : Rule n) (initializer accessorsFollow : Rule m) :=
  (local_bump.seq (local_expression _)).node _

/-! ## parameters and members -/

theorem local_parameterNames : Local vs (parameterNames : Rule n) (parameterNames : Rule m) :=
  (local_bump.seq (local_bump.optional (near_atAny _).stable)).ifAt (near_atAny _).stable
    (local_fault _)

theorem local_parameter : Local vs (parameter : Rule n) (parameter : Rule m) :=
  (local_attributeList.seq (local_parameterNames.seq
    ((local_annotatedType.ifAt (near_at? _).stable (local_fault _)).seq ((local_eat _).seq
      (((local_initializer _).optional (near_at? _).stable).seq
        (local_done.whileAt (near_atOther _).stable)))))).node _

theorem local_parameters : Local vs (parameters : Rule n) (parameters : Rule m) :=
  ((local_bump.seq ((local_parameter.commaList (near_atOther _).stable).seq
    (local_expect _ _))).ifAt (near_at? _).stable (local_fault _)).node _

theorem local_signature : Local vs (signature : Rule n) (signature : Rule m) :=
  (local_parameters.seq (local_effectSpecifiers.seq local_returnClause)).node _

theorem local_associatedValue :
    Local vs (associatedValue : Rule n) (associatedValue : Rule m) :=
  (local_label.seq (local_type.seq
    ((local_initializer _).optional (near_at? _).stable))).node _

theorem local_associatedValues :
    Local vs (associatedValues : Rule n) (associatedValues : Rule m) :=
  ((local_bump.seq ((local_associatedValue.commaList (near_atOther _).stable).seq
    (local_expect _ _))).node _).optional (near_at? _).stable

theorem local_enumCaseElement :
    Local vs (enumCaseElement : Rule n) (enumCaseElement : Rule m) :=
  (local_identifierName.seq (local_associatedValues.seq
    ((local_initializer _).optional (near_at? _).stable))).node _

theorem local_enumCases : Local vs (enumCases : Rule n) (enumCases : Rule m) :=
  local_bump.seq (local_enumCaseElement.commaList near_true.stable)

theorem local_typeAlias : Local vs (typeAlias : Rule n) (typeAlias : Rule m) :=
  local_bump.seq (local_identifierName.seq (local_genericParameters.seq
    ((local_typeInitializer.ifAt (near_at? _).stable (local_fault _)).seq
      local_genericRequirements)))

theorem local_associatedType : Local vs (associatedType : Rule n) (associatedType : Rule m) :=
  local_bump.seq (local_identifierName.seq (local_inheritance.seq
    ((local_typeInitializer.optional (near_at? _).stable).seq local_genericRequirements)))

theorem near_atJoinedDot : Near atJoinedDot := fun _ _ _ => rfl

theorem local_importPath : Local vs (importPath : Rule n) (importPath : Rule m) := by
  have hnames : Stable vs fun ws => atJoinedDot ws && at? .identifier ws.tail :=
    stable_pair near_atJoinedDot (near_at? _) fun w _ hw => by
      simp [atJoinedDot, at?, kind?, hw]
  have hoperator : Local vs (bump >> whileAt atOperatorTail done : Rule n)
      (bump >> whileAt atOperatorTail done : Rule m) :=
    local_bump.seq (local_done.whileAt near_atOperatorTail.stable)
  exact ((local_bump.seq ((local_bump.whileAt hnames).seq
    (hoperator.optional near_atJoinedDot.stable))).ifAt (near_at? _).stable (local_fault _)).node _

theorem local_importDeclaration :
    Local vs (importDeclaration : Rule n) (importDeclaration : Rule m) :=
  local_bump.seq ((local_bump.optional (near_atAny _).stable).seq local_importPath)

theorem local_precedenceDesignation :
    Local vs (precedenceDesignation : Rule n) (precedenceDesignation : Rule m) :=
  ((local_bump.seq ((local_expect _ _).commaList near_true.stable)).node _).optional
    (near_at? _).stable

theorem local_operatorDeclaration :
    Local vs (operatorDeclaration : Rule n) (operatorDeclaration : Rule m) :=
  local_bump.seq (local_operatorName.seq local_precedenceDesignation)

theorem local_precedenceAttribute :
    Local vs (precedenceAttribute : Rule n) (precedenceAttribute : Rule m) := by
  have hvalues : Local vs (bump >> whileAt (atPair .comma .identifier) bump : Rule n)
      (bump >> whileAt (atPair .comma .identifier) bump : Rule m) :=
    local_bump.seq (local_bump.whileAt (stable_atPair (by decide)))
  exact (local_bump.seq (local_bump.seq
    (hvalues.ifAt (near_atAny _).stable (local_fault _)))).node _

theorem local_precedenceAttributes :
    Local vs (precedenceAttributes : Rule n) (precedenceAttributes : Rule m) :=
  (local_precedenceAttribute.ifAt (stable_atPair (by decide))
    ((local_fault _).seq local_bump)).many (near_atOther _).stable _ _

theorem local_precedenceGroup :
    Local vs (precedenceGroup : Rule n) (precedenceGroup : Rule m) :=
  local_bump.seq (local_identifierName.seq
    ((local_bump.seq (local_precedenceAttributes.seq (local_expect _ _))).ifAt
      (near_at? _).stable (local_fault _)))

/-! ## blocks, given the items inside -/

/-- Declarations of types, and extensions of types. -/
def typeDeclarations : List Kind :=
  [.classDecl, .structDecl, .enumDecl, .protocolDecl, .actorDecl, .extensionDecl]

/-- No word that attributes or modifiers are made of ends a scope. -/
def EndsFirm (stop : List Kind) : Prop := ∀ k ∈ stop, k ∉ looseKinds

theorem endsFirm_closeBrace : EndsFirm [.closeBrace] := by
  unfold EndsFirm
  decide

theorem EndsFirm.branchEnds {stop : List Kind} (h : EndsFirm stop) :
    EndsFirm (branchEnds ++ stop) := by
  have hends : ∀ k ∈ Grammar.branchEnds, k ∉ looseKinds := by decide
  intro k hk
  obtain hk | hk := List.mem_append.1 hk
  · exact hends k hk
  · exact h k hk

section

variable {inside : List Kind → Rule n} {inside' : List Kind → Rule m}
  (hin : ∀ stop, EndsFirm stop → Local vs (inside stop) (inside' stop))

include hin

theorem closed_insideBraces (unclosed : Fault) :
    Closed vs (inside [.closeBrace] >> expect .closeBrace unclosed)
      (inside' [.closeBrace] >> expect .closeBrace unclosed) :=
  (hin _ endsFirm_closeBrace).close (closed_expect _ _)

theorem closed_memberBlock : Closed vs (memberBlock inside) (memberBlock inside') :=
  ((closed_insideBraces hin _).required _ _).node _

theorem local_braced (unclosed : Fault) :
    Local vs (braced inside unclosed) (braced inside' unclosed) :=
  (closed_insideBraces hin unclosed).local.after

theorem local_body : Local vs (body inside) (body inside') :=
  ((local_braced hin _).node _).optional (near_at? _).stable

omit hin in
theorem local_accessorParameter :
    Local vs (accessorParameter : Rule n) (accessorParameter : Rule m) :=
  ((local_bump.seq ((local_expect _ _).seq (local_expect _ _))).node _).optional
    (near_at? _).stable

theorem local_oneAccessor : Local vs (oneAccessor inside) (oneAccessor inside') :=
  ((local_attributesAndModifiers.seq local_bump).seq
    (local_accessorParameter.seq (local_effectSpecifiers.seq (local_body hin)))).node _

theorem local_accessors : Local vs (accessors inside) (accessors inside') := by
  have hat (ws : List Word) (hend : Ended ws) (h : atAccessor ws = true) :
      atAccessor (ws ++ vs) = true := by
    obtain heq | ⟨hfalse, -⟩ := atAccessor_append vs hend
    · rw [heq, h]
    · simp [h] at hfalse
  have hone : Local vs (ifAt atAccessor (oneAccessor inside) (fault .noAccessor >> bump))
      (ifAt atAccessor (oneAccessor inside') (fault .noAccessor >> bump)) :=
    (local_oneAccessor hin).ifAt_of_clean hat fun _ _ hclean => hclean.1
  exact hone.many (near_atOther _).stable _ _

/-- Accessors are told from a body alike: if the look ahead runs to the end, the body is not
closed. -/
theorem local_accessorBlock
    (hopen : ∀ ws h, Ended ws → Loose 0 ws → CleanAll (inside [.closeBrace] ws h).sketches →
      (inside [.closeBrace] ws h).rest = []) :
    Local vs (accessorBlock inside) (accessorBlock inside') := by
  have hlisted : Local vs (bump >> accessors inside >> expect .closeBrace .unclosedAccessors)
      (bump >> accessors inside' >> expect .closeBrace .unclosedAccessors) :=
    local_bump.seq ((local_accessors hin).seq (local_expect _ _))
  refine Local.node ?_ _
  rintro ws _ h h' rfl hend hclean hrest
  cases ws with
  | nil => exact absurd (Parsed.rest_eq_nil _) hrest
  | cons w r =>
    have hat : atAccessorBlock ((w :: r) ++ vs) = atAccessorBlock (w :: r) := by
      obtain heq | ⟨hfalse, hloose⟩ := atAccessor_append vs hend.tail
      · show (at? .openBrace (w :: r) && atAccessor (r ++ vs)) = _
        rw [heq]
        rfl
      · have hbody : ¬atAccessorBlock (w :: r) = true := by simp [atAccessorBlock, hfalse]
        unfold Rule.ifAt at hclean
        rw [if_neg hbody] at hclean
        obtain ⟨hinside, hbrace⟩ := cleanAll_append.1 hclean.2
        have htaken := endsInWord_expect hbrace
        exact absurd (hopen r _ hend.tail hloose hinside) (Parsed.ne_nil_of_endsInWord htaken)
    unfold Rule.ifAt at hclean hrest ⊢
    rw [hat]
    split
    · next hc =>
      rw [if_pos hc] at hclean hrest
      exact hlisted _ _ h h' rfl hend hclean hrest
    · next hc =>
      rw [if_neg hc] at hclean hrest
      exact local_braced hin _ _ _ h h' rfl hend hclean hrest

variable (hopen : ∀ ws h, Ended ws → Loose 0 ws →
  CleanAll (inside [.closeBrace] ws h).sketches → (inside [.closeBrace] ws h).rest = [])

include hopen

theorem local_optionalAccessors :
    Local vs (optionalAccessors inside) (optionalAccessors inside') :=
  (local_accessorBlock hin hopen).optional (near_at? _).stable

/-! ## declarations, given the items inside -/

omit hin hopen in
theorem local_pattern : Local vs (pattern : Rule n) (pattern : Rule m) :=
  (local_bump.node _).ifAt (near_at? _).stable
    ((local_group.node _).ifAt (near_at? _).stable (local_fault _))

theorem local_bindings : Local vs (bindings inside) (bindings inside') := by
  have hbinding : Local vs (patternBinding inside) (patternBinding inside') :=
    (local_pattern.seq ((local_annotatedType.optional (near_at? _).stable).seq
      (((local_initializer _).optional (near_at? _).stable).seq
        (local_optionalAccessors hin hopen)))).node _
  exact local_bump.seq ((hbinding.commaList near_true.stable).node _)

theorem local_subscript : Local vs (subscript inside) (subscript inside') :=
  local_bump.seq (local_genericParameters.seq (local_parameters.seq
    (local_returnClause.seq (local_genericRequirements.seq
      (local_optionalAccessors hin hopen)))))

omit hopen

theorem local_function : Local vs (function inside) (function inside') :=
  local_bump.seq (local_operatorName.seq (local_genericParameters.seq
    (local_signature.seq (local_genericRequirements.seq (local_body hin)))))

omit hin in
theorem near_atFailable : Near atFailable := fun _ _ _ => rfl

theorem local_initializerDeclaration :
    Local vs (initializerDeclaration inside) (initializerDeclaration inside') :=
  local_bump.seq ((local_bump.optional near_atFailable.stable).seq
    (local_genericParameters.seq (local_signature.seq
      (local_genericRequirements.seq (local_body hin)))))

theorem closed_nominal : Closed vs (nominal inside) (nominal inside') :=
  local_bump.close (local_identifierName.close (local_genericParameters.close
    (local_inheritance.close (local_genericRequirements.close (closed_memberBlock hin)))))

theorem closed_extensionDeclaration :
    Closed vs (extensionDeclaration inside) (extensionDeclaration inside') :=
  local_bump.close (local_type.close (local_inheritance.close
    (local_genericRequirements.close (closed_memberBlock hin))))

omit hin in
theorem local_condition : Local vs (condition : Rule n) (condition : Rule m) := by
  have hline : Near fun ws => !ws.head?.any (·.onNewLine) := fun _ _ _ => rfl
  exact ((local_bump.seq (local_done.whileAt hline.stable)).ifAt near_atWord.stable
    (local_fault _)).node _

omit hin in
theorem near_atBranch : Near atBranch := fun _ _ _ => rfl

variable {stop : List Kind} (hstop : EndsFirm stop)

include hstop

theorem local_conditionalBlock :
    Local vs (conditionalBlock inside stop) (conditionalBlock inside' stop) := by
  have hitems := hin _ hstop.branchEnds
  have hbranch : Local vs (branch inside stop) (branch inside' stop) :=
    (hitems.after.ifAt (near_at? _).stable (local_condition.seq hitems).after).node _
  exact (hbranch.many near_atBranch.stable _ _).seq (local_expect _ _)

include hopen in
theorem local_form (ws : List Word) :
    Local vs (form inside stop ws).2 (form inside' stop ws).2 := by
  unfold form
  split
  case h_19 =>
    split
    · exact (closed_nominal hin).local
    · exact (local_fault _).seq (local_bump.optional near_atWord.stable)
  case h_5 => exact (closed_extensionDeclaration hin).local
  case h_6 => exact local_function hin
  case h_7 => exact local_initializerDeclaration hin
  case h_8 => exact local_bump.seq (local_body hin)
  case h_9 => exact local_subscript hin hopen
  case h_10 => exact local_bindings hin hopen
  case h_11 => exact local_bindings hin hopen
  case h_12 => exact local_typeAlias
  case h_13 => exact local_associatedType
  case h_14 => exact local_importDeclaration
  case h_15 => exact local_operatorDeclaration
  case h_16 => exact local_precedenceGroup
  case h_17 => exact local_enumCases
  case h_18 => exact local_conditionalBlock hin hstop
  all_goals exact (closed_nominal hin).local

omit hstop in
/-- A declaration of a type ends with the brace that closes its members. -/
theorem closed_form {ws : List Word} : (form inside stop ws).1 ∈ typeDeclarations →
    Closed vs (form inside stop ws).2 (form inside' stop ws).2 := by
  unfold form
  split
  case h_19 =>
    split
    · exact fun _ => closed_nominal hin
    · exact fun h => by simp [typeDeclarations] at h
  case h_5 => exact fun _ => closed_extensionDeclaration hin
  case h_1 => exact fun _ => closed_nominal hin
  case h_2 => exact fun _ => closed_nominal hin
  case h_3 => exact fun _ => closed_nominal hin
  case h_4 => exact fun _ => closed_nominal hin
  all_goals exact fun h => by simp [typeDeclarations] at h

omit hin hstop

/-- The kind of a declaration and its rule are told by the next word. -/
theorem form_append {ws : List Word} (hne : ws ≠ []) :
    form inside' stop (ws ++ vs) = form inside' stop ws := by
  cases ws with
  | nil => exact absurd rfl hne
  | cons w r => rfl

/-- A declaration without a keyword is none. -/
theorem ne_nil_of_cleanAll_form {ws : List Word} {h : ws.length < n + 1}
    (hclean : CleanAll ((form inside stop ws).2 ws h).sketches) : ws ≠ [] := by
  rintro rfl
  exact hclean.1

/-- A declaration extends another one if its part from the keyword on does. -/
theorem extends_declaration {ws : List Word} {h : ws.length < n + 1}
    {h' : (ws ++ vs).length < m + 1} (hend : Ended ws)
    (hclean : CleanAll (declaration inside stop ws h).sketches)
    (hform : ∀ ws' hlead hlead', ws' = (attributesAndModifiers ws h).rest ++ vs →
      ((form inside stop (attributesAndModifiers ws h).rest).2
        (attributesAndModifiers ws h).rest hlead).Extends vs
        ((form inside' stop (attributesAndModifiers ws h).rest).2 ws' hlead')) :
    (declaration inside stop ws h).Extends vs (declaration inside' stop (ws ++ vs) h') := by
  obtain ⟨hfirst, hsecond⟩ := cleanAll_append.1 hclean.1
  have hne := ne_nil_of_cleanAll_form hsecond
  have hlead : (attributesAndModifiers ws h).Extends vs (attributesAndModifiers (ws ++ vs) h') :=
    local_attributesAndModifiers ws _ h h' rfl hend hfirst hne
  have hsame : form inside' stop (attributesAndModifiers (ws ++ vs) h').rest =
      form inside' stop (attributesAndModifiers ws h).rest := by
    rw [hlead.rest, form_append hne]
  show ((attributesAndModifiers ws h).append _ |>.node _).Extends vs
    ((attributesAndModifiers (ws ++ vs) h').append
      ((form inside' stop (attributesAndModifiers (ws ++ vs) h').rest).2 _ _) |>.node
        (form inside' stop (attributesAndModifiers (ws ++ vs) h').rest).1)
  rw [hsame, fst_form inside, fst_form inside']
  exact (hlead.append (hform _ _ _ hlead.rest)).node _

include hin hopen hstop in
/-- Outside loose words, an item that leaves a word is the same with more words behind. -/
theorem localAt_item {ws : List Word} (hloose : ¬Loose 0 ws) :
    LocalAt vs (item inside stop) (item inside' stop) ws := by
  rintro _ h h' rfl hend hclean hrest
  have hne := Parsed.ne_nil_of_rest hrest
  have hsemicolon : at? .semicolon (ws ++ vs) = at? .semicolon ws :=
    (near_at? _).stable ws hend hne
  have hdeclaration := atDeclaration_append vs hend hloose
  unfold item Rule.ifAt at hclean hrest ⊢
  rw [hsemicolon]
  split
  · next hat =>
    rw [if_pos hat] at hclean hrest
    exact local_bump ws _ h h' rfl hend hclean hrest
  · next hat =>
    rw [if_neg hat] at hclean hrest
    rw [hdeclaration]
    split
    · next hannounced =>
      rw [if_pos hannounced] at hclean hrest
      refine extends_declaration hend hclean fun ws' hlead hlead' hws => ?_
      exact local_form hin hopen hstop _ _ _ hlead hlead' hws (hend.rest _)
        (cleanAll_append.1 hclean.1).2 hrest
    · next hannounced =>
      rw [if_neg hannounced] at hclean hrest
      exact local_statement stop ws _ h h' rfl hend hclean hrest

include hin in
/-- A declaration of a type is the same with more words behind. -/
theorem extends_typeDeclaration {ws : List Word} {h : ws.length < n + 1}
    {h' : (ws ++ vs).length < m + 1} (hend : Ended ws)
    (hclean : CleanAll (declaration inside stop ws h).sketches)
    (hkind : (form inside stop (attributesAndModifiers ws h).rest).1 ∈ typeDeclarations) :
    (declaration inside stop ws h).Extends vs (declaration inside' stop (ws ++ vs) h') ∧
      EndsInWord (declaration inside stop ws h).sketches := by
  have hform : Closed vs (form inside stop (attributesAndModifiers ws h).rest).2
      (form inside' stop (attributesAndModifiers ws h).rest).2 := closed_form hin hkind
  have hsecond := (cleanAll_append.1 hclean.1).2
  constructor
  · refine extends_declaration hend hclean fun ws' hlead hlead' hws => ?_
    exact hform.extend _ _ hlead hlead' hws (hend.rest _) hsecond
  · exact .node [] _ ((hform.endsInWord _ _ hsecond).append_left _)

end

/-! ## scopes -/

theorem rest_itemsFrom_closeBrace {ws : List Word} (hend : Ended ws) (hloose : Loose 0 ws)
    (hclean : CleanAll (itemsFrom [.closeBrace] ws).sketches) :
    (itemsFrom [.closeBrace] ws).rest = [] :=
  (rest_itemsFrom_of_loose endsFirm_closeBrace hend hloose hclean).1

/-- The items of a scope that leave a word are the same with more words behind. -/
theorem extends_itemsFrom {stop : List Kind} (hstop : EndsFirm stop) {ws : List Word}
    (hend : Ended ws) (hclean : CleanAll (itemsFrom stop ws).sketches)
    (hrest : (itemsFrom stop ws).rest ≠ []) :
    (itemsFrom stop ws).Extends vs (itemsFrom stop (ws ++ vs)) := by
  induction hlen : ws.length using Nat.strongRecOn generalizing ws stop with
  | ind l ih =>
    subst hlen
    -- a loose end would be taken to its last word, but one is left
    have hloose : ¬Loose 0 ws := fun hloose =>
      hrest (rest_itemsFrom_of_loose hstop hend hloose hclean).1
    have hin (stop : List Kind) (hstop : EndsFirm stop) :
        Local vs (fun r (_ : r.length < ws.length) => itemsFrom stop r)
          (fun r (_ : r.length < (ws ++ vs).length) => itemsFrom stop r) := by
      rintro r _ hr hr' rfl hend hclean hrest
      exact ih r.length hr hstop hend hclean hrest rfl
    have hother : atOther stop (ws ++ vs) = atOther stop ws :=
      (near_atOther stop).stable ws hend (Parsed.ne_nil_of_rest hrest)
    rw [itemsFrom] at hclean hrest
    rw [itemsFrom.eq_1 stop ws, itemsFrom.eq_1 stop (ws ++ vs)]
    split at hclean
    · next hc =>
      rw [dif_pos hc] at hrest
      rw [dif_pos hc, dif_pos (hother.trans hc)]
      obtain ⟨hfirst, hsecond⟩ := cleanAll_append.1 hclean
      have hitem := localAt_item hin (fun _ _ => rest_itemsFrom_closeBrace) hstop hloose _
        (Nat.lt_succ_self _) (Nat.lt_succ_self _) rfl hend hfirst (Parsed.ne_nil_of_rest hrest)
      refine hitem.append ?_
      have hnext := ih _ (advances_item _ stop ws (Nat.lt_succ_self _) hc) hstop (hend.rest _)
        hsecond hrest rfl
      rw [hitem.rest]
      exact hnext
    · next hc =>
      rw [dif_neg hc] at hrest
      rw [dif_neg hc, dif_neg (by rwa [hother])]
      exact .done

end SwiftOutline.Grammar

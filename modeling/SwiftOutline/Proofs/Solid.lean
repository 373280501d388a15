import SwiftOutline.Proofs.Anchor
import SwiftOutline.Proofs.Firm
import SwiftOutline.Proofs.Lossless
import SwiftOutline.Proofs.Visit

/-!
# SwiftOutline.Proofs.Solid

In a source file without faults every node holds a word; only an argument of an attribute may be
empty.

The rules of the grammar are gone through from the smallest to the largest, each firm or at least
solid. Rules for what is inside brackets get that of those as a hypothesis, which `firm_typeFrom`
and `solid_itemsFrom` discharge by induction on the number of words.

* `firm_item` — an item of a scope takes a word and is solid;
* `solidAll_parse` — the nodes of a source file without faults hold words;
* `Site.size_pos_of_mem_all` — so none of them is empty.
-/

namespace SwiftOutline

namespace Grammar

open Rule

variable {n : Nat}

/-! ## groups, attributes, modifiers, effects -/

theorem solid_groupFrom (depth : Nat) (ws : List Word) : (groupFrom depth ws).Solid := by
  induction ws generalizing depth with
  | nil => exact Parsed.solid_done
  | cons w r ih =>
    unfold groupFrom
    split
    · exact (Parsed.firm_take w r).solid
    · exact ((ih _).word w).solid

theorem firm_group : Firm atWord (group : Rule n) := by
  have hsolid : Solid atWord (group : Rule n) := fun ws _ _ => solid_groupFrom 0 ws
  exact hsolid.firm advances_group

/-- An argument of an attribute may be empty. -/
theorem solid_attributeArgument : Solid anywhere (attributeArgument : Rule n) := fun ws h _ hc => by
  have hgroup : Solid (atAny [.openParen, .openBracket, .openBrace]) (group : Rule n) :=
    (firm_group.of_atWord rfl).solid
  refine ⟨⟨fun hk => absurd rfl hk, ?_⟩, True.intro⟩
  exact (hgroup.ifAt solid_bump).many _ ws h rfl hc.1

theorem firm_attributeArguments : Firm anywhere (attributeArguments : Rule n) :=
  (((firm_expect _ _).after solid_attributeArgument.of_anywhere.commaList).after solid_bump).node _

theorem firm_attributeName : Firm anywhere (attributeName : Rule n) := by
  have hnames : Solid anywhere (whileAt (atPair .dot .identifier) bump : Rule n) :=
    solid_bump.whileAt (d := anywhere) fun _ _ _ => rfl
  exact ((firm_bump.seq hnames).ifAt (firm_fault _)).node _

theorem firm_oneAttribute : Firm anywhere (oneAttribute : Rule n) :=
  ((firm_attributeName.seq firm_attributeArguments.solid.of_anywhere.optional).after
    solid_bump).node _

theorem firm_attributeList : Firm (at? .atSign) (attributeList : Rule n) :=
  ((firm_oneAttribute.of_anywhere.many _).node _).optional

theorem solid_attributeList : Solid anywhere (attributeList : Rule n) :=
  ((firm_oneAttribute.of_anywhere.many _).node _).solid.optional

theorem firm_oneModifier : Firm atWord (oneModifier : Rule n) := by
  have hdetail : Firm atJoinedParen (node .modifierDetail group : Rule n) :=
    (firm_group.of_atWord rfl).node _
  exact (firm_bump.seq hdetail.solid.optional).node _

theorem solid_modifierList : Solid anywhere (modifierList : Rule n) :=
  (((firm_oneModifier.of_atWord rfl).many _).node _).solid.optional

theorem solid_attributesAndModifiers : Solid anywhere (attributesAndModifiers : Rule n) :=
  solid_attributeList.seq solid_modifierList

theorem firm_effect : Firm atWord (effect : Rule n) := by
  have htype : Firm atJoinedParen (group : Rule n) := firm_group.of_atWord rfl
  have hthrows : Firm (at? .kwThrows) (bump >> optional atJoinedParen group : Rule n) :=
    (firm_bump.of_atWord rfl).seq htype.solid.optional
  exact hthrows.ifAt firm_bump

theorem solid_effectSpecifiers : Solid anywhere (effectSpecifiers : Rule n) :=
  (((firm_effect.of_atWord rfl).many _).node _).solid.optional

/-! ## types -/

theorem solid_label : Solid anywhere (label : Rule n) := by
  have htwo {c : List Word → Bool} : Solid c (bump >> bump : Rule n) := solid_bump.seq solid_bump
  exact htwo.ifAt (solid_bump.seq htwo).optional

section

variable {inside : Rule n} (hin : Firm anywhere inside)

include hin

theorem firm_genericArguments : Firm anywhere (genericArguments inside) :=
  (((firm_expect _ _).after hin.solid.of_anywhere.commaList).after solid_bump).node _

theorem firm_pathSegment : Firm atWord (pathSegment inside) :=
  (firm_after (firm_genericArguments hin).solid.of_anywhere.optional).node _

theorem firm_path : Firm atWord (path inside) := by
  have hsegments : Solid anywhere (whileAt atPathTail (pathSegment inside)) := by
    refine (firm_pathSegment hin).solid.whileAt fun w r hat => ?_
    cases r with
    | nil => simp [atPathTail, atAny, kind?] at hat
    | cons v r => rfl
  exact ((firm_pathSegment hin).seq hsegments).node _

theorem firm_collectionType : Firm atWord (collectionType inside) := by
  refine firm_onWord fun w r h => ?_
  have hclose : Firm anywhere (expect .closeBracket .unclosedCollectionType : Rule n) :=
    firm_expect _ _
  have hvalue : Firm anywhere (bump >> inside >> expect .closeBracket .unclosedCollectionType) :=
    (hclose.after hin.solid).after solid_bump
  have helement := (hin r h rfl).solid
  dsimp only
  split
  · exact ((helement.append (hvalue _ _ rfl).solid).word w).node _
  · exact ((helement.append (hclose _ _ rfl).solid).word w).node _

theorem firm_tupleElement : Firm anywhere (tupleElement inside) := by
  have hnone : Firm anywhere (fault .noType >> optional (atOther [.comma, .closeParen]) bump :
      Rule n) := (firm_fault _).seq solid_bump.optional
  have htype : Firm anywhere (Rule.ifAt atTypeStart inside _) := hin.of_anywhere.ifAt hnone
  exact ((htype.seq (solid_eat _)).after solid_label).node _

theorem firm_functionTypeTail : Firm anywhere (functionTypeTail inside) :=
  (hin.after (firm_expect _ _).solid).after solid_effectSpecifiers

theorem firm_tupleOrFunctionType : Firm atWord (tupleOrFunctionType inside) := by
  refine firm_onWord fun w r h => ?_
  have helements : Firm anywhere
      (commaList (atOther [.closeParen]) (tupleElement inside) >>
        expect .closeParen .unclosedTupleType) :=
    (firm_expect _ _).after (firm_tupleElement hin).solid.of_anywhere.commaList
  have htuple := ((helements r h rfl).solid.word w).node .typeTuple
  dsimp only
  split
  · exact (htuple.append (firm_functionTypeTail hin _ _ rfl).solid).node _
  · exact htuple

theorem firm_primaryType : Firm anywhere (primaryType inside) := by
  have hnone : Firm anywhere (gap >> fault .noType : Rule (n + 1)) :=
    (firm_fault _).after solid_gap
  have htuple : Firm (at? .openParen) (tupleOrFunctionType inside) :=
    (firm_tupleOrFunctionType hin).of_atWord rfl
  have hcollection : Firm (at? .openBracket) (collectionType inside) :=
    (firm_collectionType hin).of_atWord rfl
  have hpath : Firm (atAny [.identifier, .kwSelfType, .kwClass, .kwProtocol]) (path inside) :=
    (firm_path hin).of_atWord rfl
  exact htuple.ifAt (hcollection.ifAt (hpath.ifAt hnone))

omit hin in
/-- The suffixes of a type add no fault, and wrap it into nodes that hold its words. -/
theorem solid_wrapSuffixes {ss : List Sketch} {ws : List Word}
    (hs : Sketch.CleanAll ss → Sketch.SolidAll ss)
    (hc : Sketch.CleanAll (wrapSuffixes ss ws).1) :
    Sketch.CleanAll ss ∧ Sketch.SolidAll (wrapSuffixes ss ws).1 := by
  fun_induction wrapSuffixes ss ws with
  | case1 ss => exact ⟨hc, hs hc⟩
  | case2 ss w r k _ ih =>
    have hnode (hclean : Sketch.CleanAll [.node k (ss ++ [.word w])]) :
        Sketch.SolidAll [.node k (ss ++ [.word w])] := by
      have hss := (Sketch.cleanAll_append.1 hclean.1).1
      have hword : Sketch.SolidAll [.word w] := ⟨True.intro, True.intro⟩
      exact ⟨⟨fun _ => by simp, Sketch.solidAll_append (hs hss) hword⟩, True.intro⟩
    obtain ⟨hclean, hsolid⟩ := ih hnode hc
    exact ⟨(Sketch.cleanAll_append.1 hclean.1).1, hsolid⟩
  | case3 ss w r _ => exact ⟨hc, hs hc⟩

omit hin in
theorem length_wrapSuffixes_le (ss : List Sketch) (ws : List Word) :
    (wrapSuffixes ss ws).2.length ≤ ws.length := by
  fun_induction wrapSuffixes ss ws with
  | case1 => exact Nat.le_refl _
  | case2 ss w r k _ ih => exact Nat.le_succ_of_le ih
  | case3 => exact Nat.le_refl _

theorem firm_suffixedType : Firm anywhere (suffixedType inside) := fun ws h _ hc => by
  have hprimary := firm_primaryType hin ws h rfl
  obtain ⟨hclean, hsolid⟩ := solid_wrapSuffixes hprimary.solid hc
  exact ⟨hsolid, Nat.lt_of_le_of_lt (length_wrapSuffixes_le _ _) (hprimary hclean).2⟩

theorem firm_composedType : Firm anywhere (composedType inside) := fun ws h _ => by
  have hfirst := firm_suffixedType hin ws h rfl
  have hothers : Solid anywhere (whileAt (at? .ampersand) (suffixedType inside)) :=
    (firm_suffixedType hin).solid.whileAt fun _ _ _ => rfl
  unfold composedType
  dsimp only
  split
  · exact (hfirst.append (hothers _ _ rfl)).node _
  · exact hfirst

omit hin in
theorem firm_typeAttributes : Firm atTypeAttribute (typeAttributes : Rule n) := by
  have hfirst : Firm atTypeAttribute (Rule.ifAt (at? .atSign) attributeList bump : Rule n) :=
    firm_attributeList.ifAt (firm_bump.of_atWord rfl)
  have howners : Solid anywhere (whileAt atOwnership done : Rule n) :=
    solid_done.whileAt (d := anywhere) fun _ _ _ => rfl
  exact hfirst.seq (howners.seq solid_attributeList)

theorem firm_attributedType : Firm atTypeAttribute (attributedType inside) :=
  (firm_typeAttributes.advancing _ hin.solid).node _

theorem firm_typeWith : Firm anywhere (typeWith inside) := by
  have hsome : Firm atConstraint (node .typeSome (after inside)) :=
    ((firm_after hin.solid).of_atWord rfl).node _
  have hany : Firm atConstraint (node .typeAny (after inside)) :=
    ((firm_after hin.solid).of_atWord rfl).node _
  have hconstraint : Firm atConstraint
      (ifAt (atName ["some"]) (node .typeSome (after inside)) (node .typeAny (after inside))) := by
    intro ws h hc
    unfold ifAt
    split
    · exact hsome ws h hc
    · exact hany ws h hc
  exact hconstraint.ifAt ((firm_attributedType hin).ifAt (firm_composedType hin))

end

theorem firm_typeFrom (ws : List Word) : (typeFrom ws).Firm := by
  induction hlen : ws.length using Nat.strongRecOn generalizing ws with
  | ind m ih =>
    subst hlen
    rw [typeFrom]
    exact firm_typeWith (fun r hr _ => ih _ hr r rfl) ws _ rfl

theorem firm_type : Firm anywhere (type : Rule n) := fun ws _ _ => firm_typeFrom ws

/-! ## clauses -/

theorem firm_identifierName : Firm anywhere (identifierName : Rule n) := (firm_expect _ _).node _

theorem firm_operatorName : Firm anywhere (operatorName : Rule n) := by
  have hmarks : Firm (atAny operatorMarks) (bump >> whileAt atOperatorTail done : Rule n) :=
    (firm_bump.of_atWord rfl).seq (solid_done.whileAt (d := anywhere) fun _ _ _ => rfl)
  have hname : Firm (at? .identifier) (bump : Rule n) := firm_bump.of_atWord rfl
  exact (hname.ifAt (hmarks.ifAt (firm_fault _))).node _

theorem firm_annotatedType : Firm anywhere (annotatedType : Rule n) :=
  (firm_type.after solid_bump).node _

theorem firm_typeInitializer : Firm anywhere (typeInitializer : Rule n) :=
  (firm_type.after solid_bump).node _

theorem solid_returnClause : Solid anywhere (returnClause : Rule n) :=
  ((firm_type.after solid_bump).node _).solid.of_anywhere.optional

theorem firm_genericParameter : Firm anywhere (genericParameter : Rule n) := by
  have hbound : Firm anywhere (bump >> type : Rule n) := firm_type.after solid_bump
  exact (((firm_identifierName.seq (hbound.solid.of_anywhere.optional.seq (solid_eat _))).after
    solid_bump.optional).after solid_attributeList).node _

theorem solid_genericParameters : Solid anywhere (genericParameters : Rule n) :=
  ((((firm_expect _ _).after firm_genericParameter.solid.of_anywhere.commaList).after
    solid_bump).node _).solid.of_anywhere.optional

theorem firm_genericRequirement : Firm anywhere (genericRequirement : Rule n) := by
  have hright {c : List Word → Bool} : Firm c (bump >> type : Rule n) :=
    firm_type.after solid_bump
  exact (firm_type.seq (hright.ifAt (hright.ifAt (firm_fault _))).solid).node _

theorem solid_genericRequirements : Solid anywhere (genericRequirements : Rule n) :=
  ((firm_genericRequirement.commaList.after solid_bump).node _).solid.of_anywhere.optional

theorem solid_inheritance : Solid anywhere (inheritance : Rule n) :=
  (((firm_type.node _).commaList.after solid_bump).node _).solid.of_anywhere.optional

/-! ## expressions and statements -/

theorem solid_expressionWords (accessorsFollow : Bool) (depth : Nat) (begun : Bool)
    (ws : List Word) : (expressionWords accessorsFollow depth begun ws).Solid := by
  induction ws generalizing depth begun with
  | nil => exact Parsed.solid_done
  | cons w r ih =>
    unfold expressionWords
    split
    · exact Parsed.solid_done
    · exact ((ih _ _).word w).solid

theorem firm_expression (accessorsFollow : Bool) :
    Firm anywhere (expression accessorsFollow : Rule n) := by
  refine Firm.node (fun ws h _ => ?_) _
  unfold ifAt
  split
  · exact firm_fault (c := anywhere) _ ws h rfl
  · next hend =>
    cases ws with
    | nil => exact absurd rfl hend
    | cons w r =>
      have hend' : endsExpression accessorsFollow false (w :: r) = false := by simpa using hend
      show (expressionWords accessorsFollow 0 false (w :: r)).Firm
      unfold expressionWords
      rw [hend', Bool.and_false, if_neg Bool.false_ne_true]
      exact (solid_expressionWords _ _ _ r).word w

theorem firm_initializer (accessorsFollow : Bool) :
    Firm anywhere (initializer accessorsFollow : Rule n) :=
  ((firm_expression _).after solid_bump).node _

theorem solid_statementWords (stop : List Kind) (depth : Nat) (begun : Bool) (ws : List Word) :
    (statementWords stop depth begun ws).Solid := by
  induction ws generalizing depth begun with
  | nil => exact Parsed.solid_done
  | cons w r ih =>
    unfold statementWords
    split
    · exact Parsed.solid_done
    · split
      · exact (Parsed.firm_take w r).solid
      · exact ((ih _ _).word w).solid

theorem firm_statement (stop : List Kind) :
    Firm (atOther stop) (statement stop : Rule n) := by
  have hwords : Solid (atOther stop)
      (fun ws _ => statementWords stop 0 false ws : Rule n) :=
    fun ws _ _ => solid_statementWords stop 0 false ws
  have hcloser : Solid atCloser (fault .unexpectedCloser >> bump : Rule n) :=
    (firm_fault _).solid.seq solid_bump
  exact ((hcloser.ifAt hwords).firm (advances_statement stop)).node _

/-! ## parameters and members -/

theorem firm_parameterNames : Firm anywhere (parameterNames : Rule n) := by
  have hnames : Firm (atAny parameterWords)
      (bump >> optional (atAny parameterWords) bump : Rule n) :=
    (firm_bump.of_atWord rfl).seq solid_bump.optional
  exact hnames.ifAt (firm_fault _)

theorem firm_parameter : Firm anywhere (parameter : Rule n) := by
  have htype : Solid anywhere
      (ifAt (at? .colon) annotatedType (fault .noParameterType) : Rule n) :=
    firm_annotatedType.solid.of_anywhere.ifAt (firm_fault _).solid
  have hrest : Solid anywhere (whileAt (atOther [.comma, .closeParen, .openBrace, .closeBrace])
      done : Rule n) := solid_done.whileAt (d := anywhere) fun _ _ _ => rfl
  exact ((firm_parameterNames.seq (htype.seq ((solid_eat _).seq
    ((firm_initializer _).solid.of_anywhere.optional.seq hrest)))).after
      solid_attributeList).node _

theorem firm_parameters : Firm anywhere (parameters : Rule n) := by
  have hclause {c : List Word → Bool} : Firm c
      (bump >> commaList (atOther [.closeParen]) parameter >>
        expect .closeParen .unclosedParameters : Rule n) :=
    ((firm_expect _ _).after firm_parameter.solid.of_anywhere.commaList).after solid_bump
  exact (hclause.ifAt (firm_fault _)).node _

theorem firm_signature : Firm anywhere (signature : Rule n) :=
  (firm_parameters.seq (solid_effectSpecifiers.seq solid_returnClause)).node _

theorem firm_associatedValue : Firm anywhere (associatedValue : Rule n) :=
  ((firm_type.seq (firm_initializer _).solid.of_anywhere.optional).after solid_label).node _

theorem solid_associatedValues : Solid anywhere (associatedValues : Rule n) :=
  ((((firm_expect _ _).after firm_associatedValue.solid.of_anywhere.commaList).after
    solid_bump).node _).solid.of_anywhere.optional

theorem firm_enumCaseElement : Firm anywhere (enumCaseElement : Rule n) :=
  (firm_identifierName.seq (solid_associatedValues.seq
    (firm_initializer _).solid.of_anywhere.optional)).node _

theorem solid_enumCases : Solid anywhere (enumCases : Rule n) :=
  (firm_enumCaseElement.commaList.after solid_bump).solid

theorem solid_typeAlias : Solid anywhere (typeAlias : Rule n) := by
  have htype : Solid anywhere
      (ifAt (at? .equals) typeInitializer (fault .noAliasedType) : Rule n) :=
    firm_typeInitializer.solid.of_anywhere.ifAt (firm_fault _).solid
  exact solid_bump.seq (firm_identifierName.solid.seq (solid_genericParameters.seq
    (htype.seq solid_genericRequirements)))

theorem solid_associatedType : Solid anywhere (associatedType : Rule n) :=
  solid_bump.seq (firm_identifierName.solid.seq (solid_inheritance.seq
    (firm_typeInitializer.solid.of_anywhere.optional.seq solid_genericRequirements)))

theorem firm_importPath : Firm anywhere (importPath : Rule n) := by
  have hnames : Solid anywhere
      (whileAt (fun ws => atJoinedDot ws && at? .identifier ws.tail) bump : Rule n) :=
    solid_bump.whileAt (d := anywhere) fun _ _ _ => rfl
  have hmarks : Solid anywhere (whileAt atOperatorTail done : Rule n) :=
    solid_done.whileAt (d := anywhere) fun _ _ _ => rfl
  have hoperator : Solid anywhere
      (optional atJoinedDot (bump >> whileAt atOperatorTail done) : Rule n) :=
    (solid_bump.seq hmarks).optional
  have hpath : Firm (at? .identifier) _ :=
    (firm_bump.of_atWord rfl).seq (hnames.seq hoperator)
  exact (hpath.ifAt (firm_fault _)).node _

theorem solid_importDeclaration : Solid anywhere (importDeclaration : Rule n) :=
  solid_bump.seq (solid_bump.optional.seq firm_importPath.solid)

theorem solid_precedenceDesignation : Solid anywhere (precedenceDesignation : Rule n) :=
  (((firm_expect _ _).commaList.after solid_bump).node _).solid.of_anywhere.optional

theorem solid_operatorDeclaration : Solid anywhere (operatorDeclaration : Rule n) :=
  solid_bump.seq (firm_operatorName.solid.seq solid_precedenceDesignation)

theorem firm_precedenceAttribute : Firm anywhere (precedenceAttribute : Rule n) := by
  have hnames : Solid anywhere (whileAt (atPair .comma .identifier) bump : Rule n) :=
    solid_bump.whileAt (d := anywhere) fun _ _ _ => rfl
  have hvalue : Firm (atAny [.identifier, .boolean]) _ := (firm_bump.of_atWord rfl).seq hnames
  exact (((hvalue.ifAt (firm_fault _)).after solid_bump).after solid_bump).node _

theorem solid_precedenceAttributes : Solid anywhere (precedenceAttributes : Rule n) := by
  have hnone : Firm anywhere (fault .noPrecedenceGroupAttribute >> bump : Rule n) :=
    (firm_fault _).seq solid_bump
  exact (firm_precedenceAttribute.of_anywhere.ifAt hnone).solid.of_anywhere.many _

theorem solid_precedenceGroup : Solid anywhere (precedenceGroup : Rule n) := by
  have hgroup {c : List Word → Bool} : Firm c
      (bump >> precedenceAttributes >> expect .closeBrace .unclosedPrecedenceGroup : Rule n) :=
    ((firm_expect _ _).after solid_precedenceAttributes).after solid_bump
  exact solid_bump.seq (firm_identifierName.solid.seq (hgroup.ifAt (firm_fault _)).solid)

/-! ## blocks, given the items inside -/

section

variable {inside : List Kind → Rule n} (hin : ∀ stop, Solid anywhere (inside stop))

include hin

theorem firm_braced (unclosed : Fault) : Firm atWord (braced inside unclosed) :=
  firm_after ((hin _).seq (firm_expect _ _).solid)

theorem firm_memberBlock : Firm anywhere (memberBlock inside) := by
  have hbraced : Firm (at? .openBrace) (braced inside .unclosedBody) :=
    (firm_braced hin _).of_atWord rfl
  exact (hbraced.ifAt (firm_fault _)).node _

theorem solid_body : Solid anywhere (body inside) := by
  have hblock : Firm (at? .openBrace) (codeBlock inside) :=
    ((firm_braced hin _).of_atWord rfl).node _
  exact hblock.solid.optional

omit hin in
theorem solid_accessorParameter : Solid anywhere (accessorParameter : Rule n) :=
  ((((firm_expect _ _).after (firm_expect _ _).solid).after
    solid_bump).node _).solid.of_anywhere.optional

theorem firm_oneAccessor : Firm atWord (oneAccessor inside) := by
  have hparts : Solid atWord ((attributesAndModifiers >> bump) >>
      (accessorParameter >> effectSpecifiers >> body inside)) :=
    ((solid_attributesAndModifiers.seq solid_bump).seq
      (solid_accessorParameter.seq (solid_effectSpecifiers.seq (solid_body hin)))).of_anywhere
  exact (hparts.firm (advances_oneAccessor inside)).node _

theorem solid_accessors : Solid anywhere (accessors inside) := by
  have hnone : Firm anywhere (fault .noAccessor >> bump : Rule (n + 1)) :=
    (firm_fault _).seq solid_bump
  have hone : Firm atAccessor (oneAccessor inside) := fun ws h hat =>
    firm_oneAccessor hin ws h (atWord_of_atAccessor hat)
  exact (hone.ifAt hnone).solid.of_anywhere.many _

theorem solid_optionalAccessors : Solid anywhere (optionalAccessors inside) := by
  have hlisted : Firm anywhere
      (bump >> accessors inside >> expect .closeBrace .unclosedAccessors) :=
    ((firm_expect _ _).after (solid_accessors hin)).after solid_bump
  have hblock : Firm (at? .openBrace) (accessorBlock inside) :=
    (hlisted.of_anywhere.ifAt ((firm_braced hin _).of_atWord rfl)).node _
  exact hblock.solid.optional

/-! ## declarations, given the items inside -/

omit hin in
theorem firm_pattern : Firm anywhere (pattern : Rule n) := by
  have hname : Firm (at? .identifier) (node .identifierPattern bump : Rule n) :=
    (firm_bump.of_atWord rfl).node _
  have hnames : Firm (at? .openParen) (node .tuplePattern group : Rule n) :=
    (firm_group.of_atWord rfl).node _
  exact hname.ifAt (hnames.ifAt (firm_fault _))

theorem firm_patternBinding : Firm anywhere (patternBinding inside) :=
  (firm_pattern.seq (firm_annotatedType.solid.of_anywhere.optional.seq
    ((firm_initializer _).solid.of_anywhere.optional.seq (solid_optionalAccessors hin)))).node _

theorem solid_bindings : Solid anywhere (bindings inside) :=
  solid_bump.seq ((firm_patternBinding hin).commaList.node _).solid

theorem solid_function : Solid anywhere (function inside) :=
  solid_bump.seq (firm_operatorName.solid.seq (solid_genericParameters.seq
    (firm_signature.solid.seq (solid_genericRequirements.seq (solid_body hin)))))

theorem solid_initializerDeclaration : Solid anywhere (initializerDeclaration inside) :=
  solid_bump.seq (solid_bump.optional.seq (solid_genericParameters.seq
    (firm_signature.solid.seq (solid_genericRequirements.seq (solid_body hin)))))

theorem solid_subscript : Solid anywhere (subscript inside) :=
  solid_bump.seq (solid_genericParameters.seq (firm_parameters.solid.seq
    (solid_returnClause.seq (solid_genericRequirements.seq (solid_optionalAccessors hin)))))

theorem solid_nominal : Solid anywhere (nominal inside) :=
  solid_bump.seq (firm_identifierName.solid.seq (solid_genericParameters.seq
    (solid_inheritance.seq (solid_genericRequirements.seq (firm_memberBlock hin).solid))))

theorem solid_extensionDeclaration : Solid anywhere (extensionDeclaration inside) :=
  solid_bump.seq (firm_type.solid.seq (solid_inheritance.seq
    (solid_genericRequirements.seq (firm_memberBlock hin).solid)))

omit hin in
theorem firm_condition : Firm anywhere (condition : Rule n) := by
  have hline : Solid anywhere (whileAt (fun ws => !ws.head?.any (·.onNewLine)) done : Rule n) :=
    solid_done.whileAt (d := anywhere) fun _ _ _ => rfl
  exact ((firm_bump.seq hline).ifAt (firm_fault _)).node _

theorem firm_branch (stop : List Kind) : Firm atWord (branch inside stop) := by
  have helse : Firm (at? .poundElse) (after (inside (branchEnds ++ stop))) :=
    (firm_after (hin _)).of_atWord rfl
  have hboth : Firm atWord (after (condition >> inside (branchEnds ++ stop))) :=
    firm_after (firm_condition.solid.seq (hin _))
  exact (helse.ifAt hboth).node _

theorem solid_conditionalBlock (stop : List Kind) :
    Solid anywhere (conditionalBlock inside stop) :=
  (((firm_branch hin stop).of_atWord rfl).solid.many _).seq (firm_expect _ _).solid

theorem solid_form (stop : List Kind) (ws : List Word) :
    Solid anywhere (form inside stop ws).2 := by
  unfold form
  split
  case h_19 =>
    split
    · exact solid_nominal hin
    · exact (firm_fault _).solid.seq solid_bump.optional
  case h_5 => exact solid_extensionDeclaration hin
  case h_6 => exact solid_function hin
  case h_7 => exact solid_initializerDeclaration hin
  case h_8 => exact solid_bump.seq (solid_body hin)
  case h_9 => exact solid_subscript hin
  case h_10 => exact solid_bindings hin
  case h_11 => exact solid_bindings hin
  case h_12 => exact solid_typeAlias
  case h_13 => exact solid_associatedType
  case h_14 => exact solid_importDeclaration
  case h_15 => exact solid_operatorDeclaration
  case h_16 => exact solid_precedenceGroup
  case h_17 => exact solid_enumCases
  case h_18 => exact solid_conditionalBlock hin stop
  all_goals exact solid_nominal hin

theorem firm_declaration (stop : List Kind) : Firm atWord (declaration inside stop) := by
  intro ws h hw
  refine Parsed.Firm.node (fun hc => ?_) _
  have hlead := solid_attributesAndModifiers ws h rfl
  have hform := solid_form hin stop (attributesAndModifiers ws h).rest _
    ((attributesAndModifiers ws h).length_rest_lt h) rfl
  exact ⟨hlead.append hform hc, advances_declaration inside stop ws h hw⟩

theorem firm_item (stop : List Kind) : Firm (atOther stop) (item inside stop) := by
  have hend : atDeclaration [] = false := by
    simp [atDeclaration, skipAttributesAndModifiers, atDeclarationWord, atAny, kind?, atName]
  have hdeclaration : Firm atDeclaration (declaration inside stop) :=
    (firm_declaration hin stop).of_atWord hend
  have hsemicolon : Firm (at? .semicolon) (bump : Rule (n + 1)) := firm_bump.of_atWord rfl
  exact hsemicolon.ifAt (hdeclaration.ifAt (firm_statement stop))

end

/-! ## scopes -/

theorem solid_itemsFrom (stop : List Kind) (ws : List Word) : (itemsFrom stop ws).Solid := by
  induction hlen : ws.length using Nat.strongRecOn generalizing stop ws with
  | ind m ih =>
    subst hlen
    rw [itemsFrom]
    split
    · next hc =>
      have hitem := firm_item (fun stop' r hr _ => ih r.length hr stop' r rfl) stop ws
        (Nat.lt_succ_self _) hc
      exact hitem.solid.append (ih _ (advances_item _ stop ws (Nat.lt_succ_self _) hc) _ _ rfl)
    · exact Parsed.solid_done

end Grammar

/-! ## trees -/

namespace Tree

mutual

/-- Every node of a tree holds a token, but for arguments of attributes. -/
def Solid : Tree → Prop
  | .node k cs => (k ≠ .attributeArgument → tokensOfAll cs ≠ []) ∧ SolidAll cs
  | .token .. => True

/-- Every node of trees holds a token, but for arguments of attributes. -/
def SolidAll : List Tree → Prop
  | [] => True
  | t :: ts => Solid t ∧ SolidAll ts

end

theorem solidAll_append {ts us : List Tree} (ht : SolidAll ts) (hu : SolidAll us) :
    SolidAll (ts ++ us) := by
  induction ts with
  | nil => exact hu
  | cons t ts ih => exact ⟨ht.1, ih ht.2⟩

theorem SolidAll.mem {ts : List Tree} (h : SolidAll ts) {t : Tree} (ht : t ∈ ts) : t.Solid := by
  induction ts with
  | nil => cases ht
  | cons u us ih =>
    obtain rfl | ht := List.mem_cons.1 ht
    · exact h.1
    · exact ih h.2 ht

theorem tokens_subset_of_mem {ts : List Tree} {t : Tree} (ht : t ∈ ts) :
    t.tokens ⊆ tokensOfAll ts := by
  induction ts with
  | nil => cases ht
  | cons u us ih =>
    rw [tokensOfAll]
    obtain rfl | ht := List.mem_cons.1 ht
    · exact List.subset_append_left _ _
    · exact List.subset_append_of_subset_right _ (ih ht)

mutual

/-- Trivia is not what makes a tree solid. -/
theorem solid_of_bare {t : Tree} (h : t.bare.Solid) : t.Solid := by
  cases t with
  | token k s => exact True.intro
  | node k cs =>
    refine ⟨fun hk hnil => h.1 hk ?_, solidAll_of_bareAll h.2⟩
    rw [tokensOfAll_bareAll, hnil]
    rfl

theorem solidAll_of_bareAll {ts : List Tree} (h : SolidAll (bareAll ts)) : SolidAll ts := by
  cases ts with
  | nil => exact True.intro
  | cons t ts =>
    by_cases ht : t.isTrivia = true
    · rw [bareAll_cons_of_isTrivia ts ht] at h
      refine ⟨?_, solidAll_of_bareAll h⟩
      cases t with
      | token k s => exact True.intro
      | node k cs => cases ht
    · rw [bareAll_cons_of_not ts ht] at h
      exact ⟨solid_of_bare h.1, solidAll_of_bareAll h.2⟩

end

end Tree

namespace Sketch

mutual

/-- A sketch without faults is clean. -/
theorem clean_of_faultMarks {n : Nat} {s : Sketch} (h : s.faultMarks n = []) : s.Clean := by
  cases s with
  | node k ps => exact cleanAll_of_faultMarks h
  | word w => exact True.intro
  | fault f => cases h
  | gap => exact True.intro

theorem cleanAll_of_faultMarks {n : Nat} {ss : List Sketch} (h : faultMarksOfAll n ss = []) :
    CleanAll ss := by
  cases ss with
  | nil => exact True.intro
  | cons s ss =>
    obtain ⟨hs, hss⟩ := List.append_eq_nil_iff.1 h
    exact ⟨clean_of_faultMarks hs, cleanAll_of_faultMarks hss⟩

end

mutual

theorem tokens_trees (s : Sketch) : Tree.tokensOfAll s.trees = s.words.map Word.lexeme := by
  cases s with
  | node k ps =>
    have hps := tokens_treesOfAll ps
    simpa [trees, Tree.tokensOfAll, Tree.tokens] using hps
  | word w => rfl
  | fault f => rfl
  | gap => rfl

theorem tokens_treesOfAll (ss : List Sketch) :
    Tree.tokensOfAll (treesOfAll ss) = (wordsOfAll ss).map Word.lexeme := by
  cases ss with
  | nil => rfl
  | cons s ss =>
    rw [treesOfAll, Tree.tokensOfAll_append, tokens_trees s, tokens_treesOfAll ss,
      wordsOfAll_cons, List.map_append]

end

mutual

theorem solid_trees {s : Sketch} (h : s.Solid) : Tree.SolidAll s.trees := by
  cases s with
  | node k ps =>
    refine ⟨⟨fun hk hnil => h.1 hk ?_, solid_treesOfAll h.2⟩, True.intro⟩
    rw [tokens_treesOfAll, List.map_eq_nil_iff] at hnil
    exact hnil
  | word w => exact ⟨True.intro, True.intro⟩
  | fault f => exact True.intro
  | gap => exact True.intro

theorem solid_treesOfAll {ss : List Sketch} (h : SolidAll ss) :
    Tree.SolidAll (treesOfAll ss) := by
  cases ss with
  | nil => exact True.intro
  | cons s ss => exact Tree.solidAll_append (solid_trees h.1) (solid_treesOfAll h.2)

end

end Sketch

/-! ## source files -/

/-- The sketch of a source file without faults is clean. -/
theorem cleanAll_fileSketch {source : String} (h : (parse source).faults = []) :
    Sketch.CleanAll (fileSketch source) := by
  rw [faults_parse, List.map_eq_nil_iff] at h
  exact Sketch.cleanAll_of_faultMarks h

/-- Every node below the root of a source file without faults holds a token, but for arguments
of attributes. -/
theorem solidAll_parse {source : String} (h : (parse source).faults = []) :
    Tree.SolidAll (parse source).tree.children := by
  have hsketch := Grammar.solid_itemsFrom [] _ (cleanAll_fileSketch h)
  have hbare := bare_parse source
  have hchildren : Tree.bareAll (parse source).tree.children =
      Sketch.treesOfAll (fileSketch source) := by
    rw [← Tree.children_bare, hbare]
    rfl
  refine Tree.solidAll_of_bareAll ?_
  rw [hchildren]
  exact Sketch.solid_treesOfAll hsketch

/-- The tokens of a node are lexemes of the source, none of which is empty. -/
theorem Site.size_pos_of_mem_tokens {source : String} {s : Site} {l : Lexeme}
    (h : s ∈ all (parse source).tree) (hl : l ∈ s.node.tree.tokens) : 0 < l.size := by
  have hsize := of_mem_nodesIn (P := fun t => ∀ l ∈ t.tokens, 0 < l.size)
    (fun _ _ ht _ hc l hl => ht l (Tree.tokens_subset_of_mem hc hl)) (fun l hl => by
      rw [tokens_parse] at hl
      exact Lexeme.size_pos_of_mem_lex hl) h
  exact hsize.2 l hl

/-- In a source file without faults, only the root and arguments of attributes may be empty. -/
theorem Site.size_pos_of_mem_all {source : String} (hclean : (parse source).faults = []) {s : Site}
    (h : s ∈ all (parse source).tree) (hroot : s.node.kind ≠ .sourceFile)
    (hk : s.node.kind ≠ .attributeArgument) : 0 < s.node.tree.size := by
  have hchildren : s ∈ nodesInAll [⟨(parse source).tree, 0⟩] 0 (parse source).tree.children := by
    obtain rfl | h := List.mem_cons.1 h
    · exact absurd rfl hroot
    · exact h
  have hsolid := of_mem_nodesInAll (P := Tree.Solid) (fun _ _ ht _ hc => ht.2.mem hc)
    (fun _ hc => (solidAll_parse hclean).mem hc) hchildren
  obtain ⟨⟨t, start⟩, above⟩ := s
  cases t with
  | token k x => cases hsolid.1
  | node k cs =>
    obtain ⟨l, ls, htokens⟩ := List.exists_cons_of_ne_nil (hsolid.2.1 hk)
    have hl := size_pos_of_mem_tokens h (l := l) (by
      show l ∈ Tree.tokensOfAll cs
      simp [htokens])
    show 0 < Tree.sizeOfAll cs
    rw [Tree.sizeOfAll_eq, htokens, Lexeme.sizeOfAll_cons]
    omega

end SwiftOutline

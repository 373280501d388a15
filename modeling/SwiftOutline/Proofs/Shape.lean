import SwiftOutline.Proofs.Content
import SwiftOutline.Proofs.Layout

/-!
# SwiftOutline.Proofs.Shape

Every node of a syntax tree has the content of its kind.

The rules of the grammar are gone through from the smallest to the largest, each with the nodes
that it takes. Rules for what is inside brackets get the nodes of those as a hypothesis, which
`fits_typeFrom` and `fits_itemsFrom` discharge by induction on the number of words.

* `fits_declaration` — a declaration is a node that may stand in a scope;
* `fits_fileItems` — the sketch of a source file is shaped;
* `shaped_parse` — so is its tree, since laying a sketch adds tokens only.
-/

namespace SwiftOutline

namespace Grammar

open Rule

variable {n : Nat}

/-! ## groups, attributes, modifiers, effects -/

theorem fits_groupFrom (depth : Nat) (ws : List Word) :
    (groupFrom depth ws).Fits .empty := by
  induction ws generalizing depth with
  | nil => exact Parsed.fits_done
  | cons w r ih =>
    unfold groupFrom
    split
    · exact Parsed.fits_take w r
    · exact (ih _).word w

theorem fits_group : Fits .empty (group : Rule n) := fun ws _ => fits_groupFrom 0 ws

theorem fits_attributeArgument : Fits (.one .attributeArgument) (attributeArgument : Rule n) :=
  ((fits_group.ifAt fits_bump _).many (m := []) _).node rfl

theorem fits_attributeArguments :
    Fits (.one .attributeArguments) (attributeArguments : Rule n) := by
  have hlist := (fits_attributeArgument (n := n)).mono (d := .any [.attributeArgument]) rfl
  exact (fits_bump.seq ((hlist.commaList _).seq (fits_expect _ _ rfl))).node rfl

theorem fits_attributeName : Fits (.one .name) (attributeName : Rule n) := by
  have hwords := fits_bump.seq ((fits_bump (n := n)).whileAt (m := []) (atPair .dot .identifier))
  exact (hwords.ifAt (fits_fault _ rfl) _).node rfl

theorem fits_oneAttribute : Fits (.one .attribute) (oneAttribute : Rule n) :=
  (fits_bump.seq (fits_attributeName.seq (fits_attributeArguments.optional _))).node rfl

theorem fits_attributeList : Fits (.one .attributeList) (attributeList : Rule n) := by
  have hlist := (fits_oneAttribute (n := n)).mono (d := .any [.attribute]) rfl
  exact ((hlist.many _).node rfl).optional _

theorem fits_oneModifier : Fits (.one .modifier) (oneModifier : Rule n) :=
  (fits_bump.seq ((fits_group.node rfl).optional _)).node rfl

theorem fits_modifierList : Fits (.one .modifierList) (modifierList : Rule n) := by
  have hlist := (fits_oneModifier (n := n)).mono (d := .any [.modifier]) rfl
  exact ((hlist.many _).node rfl).optional _

theorem fits_attributesAndModifiers :
    Fits ⟨Kind.lead, []⟩ (attributesAndModifiers : Rule n) :=
  fits_attributeList.seq fits_modifierList

theorem fits_effect : Fits .empty (effect : Rule n) :=
  (fits_bump.seq (fits_group.optional _)).ifAt fits_bump _

theorem fits_effectSpecifiers : Fits (.one .effectSpecifiers) (effectSpecifiers : Rule n) :=
  ((fits_effect.many (m := []) _).node rfl).optional _

/-! ## types -/

theorem fits_label : Fits .empty (label : Rule n) := by
  have htwo := (fits_bump (n := n)).seq fits_bump
  exact htwo.ifAt ((fits_bump.seq htwo).optional _) _

section

variable {inside : Rule n} (hin : Fits (.any Kind.types) inside)

include hin

theorem fits_genericArguments :
    Fits (.one .genericArgumentClause) (genericArguments inside) :=
  (fits_bump.seq ((hin.commaList _).seq (fits_expect _ _ rfl))).node rfl

theorem fits_pathSegment : Fits (.one .typePathSegment) (pathSegment inside) :=
  (((fits_genericArguments hin).optional _).after).node rfl

theorem fits_path : Fits (.one .typePath) (path inside) := by
  have hsegments := (fits_pathSegment hin).mono (d := .any [.typePathSegment]) rfl
  exact (hsegments.seq (hsegments.whileAt _)).node rfl

theorem fits_collectionType : Fits (.any Kind.types) (collectionType inside) := by
  refine fits_onWord fun w r h => ?_
  have helement := hin r h
  have hclose : Fits .empty (expect .closeBracket .unclosedCollectionType : Rule n) :=
    fits_expect _ _ rfl
  have hvalue := fits_bump.seq (hin.seq hclose)
  dsimp only
  split
  · exact (((helement.append (hvalue _ _)).word w).node rfl).mono (d := .any Kind.types) rfl
  · exact (((helement.append (hclose _ _)).word w).node rfl).mono (d := .any Kind.types) rfl

theorem fits_tupleElement : Fits (.one .typeTupleElement) (tupleElement inside) := by
  have hnone : Fits .empty (fault .noType >> optional (atOther [.comma, .closeParen]) bump :
      Rule n) := (fits_fault _ rfl).seq (fits_bump.optional _)
  exact (fits_label.seq ((hin.ifAt hnone.of_empty _).seq (fits_eat _))).node rfl

theorem fits_functionTypeTail :
    Fits ⟨[.effectSpecifiers], Kind.types⟩ (functionTypeTail inside) :=
  (fits_effectSpecifiers.seq ((fits_expect _ _ rfl).seq hin)).mono rfl

theorem fits_tupleOrFunctionType : Fits (.any Kind.types) (tupleOrFunctionType inside) := by
  refine fits_onWord fun w r h => ?_
  have hlist := (fits_tupleElement hin).mono (d := .any [.typeTupleElement]) rfl
  have helements := (hlist.commaList (atOther [.closeParen])).seq
    (fits_expect .closeParen .unclosedTupleType rfl)
  have htuple := ((helements r h).word w).node (k := .typeTuple) rfl
  dsimp only
  split
  · exact ((htuple.append (fits_functionTypeTail hin _ _)).node rfl).mono rfl
  · exact htuple.mono rfl

theorem fits_primaryType : Fits (.any Kind.types) (primaryType inside) := by
  have hpath : Fits (.any Kind.types) (path inside) := (fits_path hin).mono rfl
  have hnone : Fits .empty (gap >> fault .noType : Rule (n + 1)) := fits_gap.seq (fits_fault _ rfl)
  have hnamed := hpath.ifAt hnone.of_empty
    (atAny [.identifier, .kwSelfType, .kwClass, .kwProtocol])
  exact (fits_tupleOrFunctionType hin).ifAt ((fits_collectionType hin).ifAt hnamed _) _

omit hin in
/-- Every suffix of a type wraps it into another type. -/
theorem fits_wrapSuffixes {ss : List Sketch} {ws : List Word}
    (hs : Sketch.Fits (.any Kind.types) ss ws) :
    Sketch.Fits (.any Kind.types) (wrapSuffixes ss ws).1 (wrapSuffixes ss ws).2 := by
  fun_induction wrapSuffixes ss ws with
  | case1 ss => exact hs
  | case2 ss w r k hk ih =>
    apply ih
    have hword : Sketch.Fits .empty [.word w] r := Sketch.Fits.nil.word w
    have hkind : k = .typeOptional ∨ k = .typeImplicitlyUnwrapped := by
      unfold suffixKind? at hk
      split at hk
      · cases hk
      · split at hk
        · exact .inl (Option.some.inj hk).symm
        · split at hk
          · exact .inr (Option.some.inj hk).symm
          · cases hk
    obtain rfl | rfl := hkind
    · exact ((hs.append hword).node rfl).mono rfl
    · exact ((hs.append hword).node rfl).mono rfl
  | case3 ss w r hk => exact hs

theorem fits_suffixedType : Fits (.any Kind.types) (suffixedType inside) :=
  fun ws h => fits_wrapSuffixes (fits_primaryType hin ws h)

theorem fits_composedType : Fits (.any Kind.types) (composedType inside) := fun ws h => by
  have hfirst := fits_suffixedType hin ws h
  unfold composedType
  dsimp only
  split
  · have hothers := (fits_suffixedType hin).whileAt (at? .ampersand)
    exact ((hfirst.append (hothers _ _)).node rfl).mono rfl
  · exact hfirst

omit hin in
theorem fits_typeAttributes : Fits (.any [.attributeList]) (typeAttributes : Rule n) := by
  have hlist : Fits (.any [.attributeList]) (attributeList : Rule n) :=
    fits_attributeList.mono rfl
  have howners : Fits (.any [.attributeList]) (whileAt atOwnership done : Rule n) :=
    fits_done.whileAt _
  exact (hlist.ifAt fits_bump.of_empty _).seq_any (howners.seq_any hlist)

theorem fits_attributedType : Fits (.one .typeAttributed) (attributedType inside) :=
  (fits_typeAttributes.advancing _ hin rfl).node rfl

theorem fits_typeWith : Fits (.any Kind.types) (typeWith inside) := by
  have hsome : Fits (.any Kind.types) (node .typeSome (after inside)) :=
    (hin.after.node rfl).mono rfl
  have hany : Fits (.any Kind.types) (node .typeAny (after inside)) :=
    (hin.after.node rfl).mono rfl
  have hattributed : Fits (.any Kind.types) (attributedType inside) :=
    (fits_attributedType hin).mono rfl
  exact (hsome.ifAt hany _).ifAt (hattributed.ifAt (fits_composedType hin) _) _

end

theorem fits_typeFrom (ws : List Word) : (typeFrom ws).Fits (.any Kind.types) := by
  induction hlen : ws.length using Nat.strongRecOn generalizing ws with
  | ind m ih =>
    subst hlen
    rw [typeFrom]
    exact fits_typeWith (fun r hr => ih _ hr r rfl) ws _

theorem fits_type : Fits (.any Kind.types) (type : Rule n) := fun ws _ => fits_typeFrom ws

/-! ## clauses -/

theorem fits_identifierName : Fits (.one .name) (identifierName : Rule n) :=
  (fits_expect _ _ rfl).node rfl

theorem fits_operatorName : Fits (.one .name) (operatorName : Rule n) := by
  have hmarks := (fits_bump (n := n)).seq (fits_done.whileAt (m := []) atOperatorTail)
  exact (fits_bump.ifAt (hmarks.ifAt (fits_fault _ rfl) _) _).node rfl

theorem fits_annotatedType : Fits (.one .annotatedType) (annotatedType : Rule n) :=
  (fits_bump.seq fits_type).node rfl

theorem fits_typeInitializer : Fits (.one .typeInitializer) (typeInitializer : Rule n) :=
  (fits_bump.seq fits_type).node rfl

theorem fits_returnClause : Fits (.one .returnClause) (returnClause : Rule n) :=
  ((fits_bump.seq fits_type).node rfl).optional _

theorem fits_genericParameter : Fits (.one .genericParameter) (genericParameter : Rule n) := by
  have hbound := (fits_bump (n := n)).seq fits_type
  exact (fits_attributeList.seq ((fits_bump.optional _).seq (fits_identifierName.seq
    ((hbound.optional _).seq (fits_eat _))))).node rfl

theorem fits_genericParameters :
    Fits (.one .genericParameterClause) (genericParameters : Rule n) := by
  have hlist := (fits_genericParameter (n := n)).mono (d := .any [.genericParameter]) rfl
  exact ((fits_bump.seq ((hlist.commaList _).seq (fits_expect _ _ rfl))).node rfl).optional _

theorem fits_genericRequirement :
    Fits (.one .genericRequirement) (genericRequirement : Rule n) := by
  have hright : Fits (.any Kind.types) (bump >> type : Rule n) := fits_bump.seq fits_type
  have hnone : Fits (.any Kind.types) (fault .noRequirementRelation : Rule n) :=
    (fits_fault _ rfl).of_empty
  exact (fits_type.seq (hright.ifAt (hright.ifAt hnone _) _)).node rfl

theorem fits_genericRequirements :
    Fits (.one .genericWhereClause) (genericRequirements : Rule n) := by
  have hlist := (fits_genericRequirement (n := n)).mono (d := .any [.genericRequirement]) rfl
  exact ((fits_bump.seq (hlist.commaList _)).node rfl).optional _

theorem fits_inheritance : Fits (.one .inheritanceClause) (inheritance : Rule n) := by
  have htype : Fits (.one .inheritedType) (node .inheritedType type : Rule n) :=
    fits_type.node rfl
  have hlist := htype.mono (d := .any [.inheritedType]) rfl
  exact ((fits_bump.seq (hlist.commaList _)).node rfl).optional _

/-! ## expressions and statements -/

theorem fits_expressionWords (accessorsFollow : Bool) (depth : Nat) (begun : Bool)
    (ws : List Word) :
    (expressionWords accessorsFollow depth begun ws).Fits .empty := by
  induction ws generalizing depth begun with
  | nil => exact .nil
  | cons w r ih =>
    unfold expressionWords
    split
    · exact .nil
    · exact (ih _ _).word w

theorem fits_expression (accessorsFollow : Bool) :
    Fits (.one .expression) (expression accessorsFollow : Rule n) := by
  have hwords : Fits .empty
      (fun ws _ => expressionWords accessorsFollow 0 false ws : Rule n) :=
    fun ws _ => fits_expressionWords accessorsFollow 0 false ws
  exact ((fits_fault _ rfl).ifAt hwords _).node rfl

theorem fits_initializer (accessorsFollow : Bool) :
    Fits (.one .initializer) (initializer accessorsFollow : Rule n) :=
  (fits_bump.seq (fits_expression _)).node rfl

theorem fits_statementWords (stop : List Kind) (depth : Nat) (begun : Bool) (ws : List Word) :
    (statementWords stop depth begun ws).Fits .empty := by
  induction ws generalizing depth begun with
  | nil => exact .nil
  | cons w r ih =>
    unfold statementWords
    split
    · exact .nil
    · split
      · exact Parsed.fits_take w r
      · exact (ih _ _).word w

theorem fits_statement (stop : List Kind) :
    Fits (.one .statement) (statement stop : Rule n) := by
  have hwords : Fits .empty (fun ws _ => statementWords stop 0 false ws : Rule n) :=
    fun ws _ => fits_statementWords stop 0 false ws
  exact (((fits_fault _ rfl).seq fits_bump).ifAt hwords _).node rfl

/-! ## parameters and members -/

theorem fits_parameterNames : Fits .empty (parameterNames : Rule n) :=
  (fits_bump.seq (fits_bump.optional _)).ifAt (fits_fault _ rfl) _

theorem fits_parameter : Fits (.one .functionParameter) (parameter : Rule n) := by
  have hnone : Fits (.one .annotatedType) (fault .noParameterType : Rule n) :=
    (fits_fault _ rfl).of_empty
  have hrest : Fits (.any []) (whileAt (atOther [.comma, .closeParen, .openBrace, .closeBrace])
      done : Rule n) := fits_done.whileAt _
  exact (fits_attributeList.seq (fits_parameterNames.seq ((fits_annotatedType.ifAt hnone _).seq
    ((fits_eat _).seq (((fits_initializer _).optional _).seq hrest))))).node rfl

theorem fits_parameters : Fits (.one .parameterClause) (parameters : Rule n) := by
  have hlist := (fits_parameter (n := n)).mono (d := .any [.functionParameter]) rfl
  have hclause := fits_bump.seq ((hlist.commaList (atOther [.closeParen])).seq
    (fits_expect .closeParen .unclosedParameters rfl))
  exact (hclause.ifAt (fits_fault _ rfl).of_empty _).node rfl

theorem fits_signature : Fits (.one .functionSignature) (signature : Rule n) :=
  (fits_parameters.seq (fits_effectSpecifiers.seq fits_returnClause)).node rfl

theorem fits_associatedValue : Fits (.one .enumCaseParameter) (associatedValue : Rule n) :=
  (fits_label.seq (fits_type.seq ((fits_initializer _).optional _))).node rfl

theorem fits_associatedValues :
    Fits (.one .enumCaseParameterClause) (associatedValues : Rule n) := by
  have hlist := (fits_associatedValue (n := n)).mono (d := .any [.enumCaseParameter]) rfl
  exact ((fits_bump.seq ((hlist.commaList _).seq (fits_expect _ _ rfl))).node rfl).optional _

theorem fits_enumCaseElement : Fits (.one .enumCaseElement) (enumCaseElement : Rule n) :=
  (fits_identifierName.seq
    (fits_associatedValues.seq ((fits_initializer _).optional _))).node rfl

theorem fits_enumCases : Fits (.any [.enumCaseElement]) (enumCases : Rule n) := by
  have hlist := (fits_enumCaseElement (n := n)).mono (d := .any [.enumCaseElement]) rfl
  exact (fits_bump.seq (hlist.commaList _)).mono rfl

theorem fits_typeAlias :
    Fits ⟨[.name, .genericParameterClause, .typeInitializer, .genericWhereClause], []⟩
      (typeAlias : Rule n) := by
  have hnone : Fits (.one .typeInitializer) (fault .noAliasedType : Rule n) :=
    (fits_fault _ rfl).of_empty
  exact fits_bump.seq (fits_identifierName.seq (fits_genericParameters.seq
    ((fits_typeInitializer.ifAt hnone _).seq fits_genericRequirements)))

theorem fits_associatedType :
    Fits ⟨[.name, .inheritanceClause, .typeInitializer, .genericWhereClause], []⟩
      (associatedType : Rule n) :=
  fits_bump.seq (fits_identifierName.seq (fits_inheritance.seq
    ((fits_typeInitializer.optional _).seq fits_genericRequirements)))

theorem fits_importPath : Fits (.one .importPath) (importPath : Rule n) := by
  have hnames : Fits (.any []) (whileAt (fun ws => atJoinedDot ws && at? .identifier ws.tail)
      bump : Rule n) := fits_bump.of_empty.whileAt _
  have hmarks : Fits (.any []) (whileAt atOperatorTail done : Rule n) := fits_done.whileAt _
  have hpath := fits_bump.seq (hnames.seq ((fits_bump.seq hmarks).optional atJoinedDot))
  exact (hpath.ifAt (fits_fault _ rfl) _).node rfl

theorem fits_importDeclaration : Fits (.one .importPath) (importDeclaration : Rule n) :=
  fits_bump.seq ((fits_bump.optional _).seq fits_importPath)

theorem fits_precedenceDesignation :
    Fits (.one .precedenceDesignation) (precedenceDesignation : Rule n) := by
  have hlist : Fits (.any []) (commaList (fun _ => true)
      (expect .identifier .noPrecedenceGroupName) : Rule n) :=
    (fits_expect _ _ rfl).of_empty.commaList _
  exact ((fits_bump.seq hlist).node rfl).optional _

theorem fits_operatorDeclaration :
    Fits ⟨[.name, .precedenceDesignation], []⟩ (operatorDeclaration : Rule n) :=
  fits_bump.seq (fits_operatorName.seq fits_precedenceDesignation)

theorem fits_precedenceAttribute :
    Fits (.one .precedenceGroupAttribute) (precedenceAttribute : Rule n) := by
  have hnames : Fits (.any []) (whileAt (atPair .comma .identifier) bump : Rule n) :=
    fits_bump.of_empty.whileAt _
  have hvalue := (fits_bump.seq hnames).ifAt (fits_fault .noPrecedenceGroupValue rfl)
    (atAny [.identifier, .boolean])
  exact (fits_bump.seq (fits_bump.seq hvalue)).node rfl

theorem fits_precedenceAttributes :
    Fits (.any [.precedenceGroupAttribute]) (precedenceAttributes : Rule n) := by
  have hnone : Fits .empty (fault .noPrecedenceGroupAttribute >> bump : Rule n) :=
    (fits_fault _ rfl).seq fits_bump
  exact ((fits_precedenceAttribute.mono rfl).ifAt hnone.of_empty _).many _

theorem fits_precedenceGroup :
    Fits ⟨[.name], [.precedenceGroupAttribute]⟩ (precedenceGroup : Rule n) := by
  have hgroup := fits_bump.seq ((fits_precedenceAttributes (n := n)).seq
    (fits_expect .closeBrace .unclosedPrecedenceGroup rfl))
  exact fits_bump.seq (fits_identifierName.seq (hgroup.ifAt (fits_fault _ rfl).of_empty _))

/-! ## blocks, given the items inside -/

section

variable {inside : List Kind → Rule n} (hin : ∀ stop, Fits (.any Kind.items) (inside stop))

include hin

theorem fits_braced (unclosed : Fault) (hf : unclosed.isOwn = false) :
    Fits (.any Kind.items) (braced inside unclosed) :=
  (((hin _).seq (fits_expect _ _ hf)).after).mono rfl

theorem fits_memberBlock : Fits (.one .memberBlock) (memberBlock inside) :=
  ((fits_braced hin _ rfl).ifAt (fits_fault _ rfl).of_empty _).node rfl

theorem fits_codeBlock : Fits (.one .codeBlock) (codeBlock inside) :=
  (fits_braced hin _ rfl).node rfl

theorem fits_body : Fits (.one .codeBlock) (body inside) := (fits_codeBlock hin).optional _

omit hin in
theorem fits_accessorParameter :
    Fits (.one .accessorParameter) (accessorParameter : Rule n) :=
  ((fits_bump.seq ((fits_expect _ _ rfl).seq (fits_expect _ _ rfl))).node rfl).optional _

theorem fits_oneAccessor : Fits (.one .accessorDecl) (oneAccessor inside) :=
  ((fits_attributesAndModifiers.seq fits_bump).seq
    (fits_accessorParameter.seq (fits_effectSpecifiers.seq (fits_body hin)))).node rfl

theorem fits_accessors : Fits (.any [.accessorDecl]) (accessors inside) := by
  have hnone : Fits .empty (fault .noAccessor >> bump : Rule (n + 1)) :=
    (fits_fault _ rfl).seq fits_bump
  exact (((fits_oneAccessor hin).mono rfl).ifAt hnone.of_empty _).many _

theorem fits_accessorBlock : Fits (.one .accessorBlock) (accessorBlock inside) := by
  have hlisted : Fits (.any (.accessorDecl :: Kind.items))
      (bump >> accessors inside >> expect .closeBrace .unclosedAccessors) :=
    (fits_bump.seq ((fits_accessors hin).seq (fits_expect _ _ rfl))).mono rfl
  have hbare : Fits (.any (.accessorDecl :: Kind.items)) (braced inside .unclosedAccessors) :=
    (fits_braced hin _ rfl).mono rfl
  exact (hlisted.ifAt hbare _).node rfl

theorem fits_optionalAccessors : Fits (.one .accessorBlock) (optionalAccessors inside) :=
  (fits_accessorBlock hin).optional _

/-! ## declarations, given the items inside -/

theorem fits_function :
    Fits ⟨[.name, .genericParameterClause, .functionSignature, .genericWhereClause,
      .codeBlock], []⟩ (function inside) :=
  fits_bump.seq (fits_operatorName.seq (fits_genericParameters.seq
    (fits_signature.seq (fits_genericRequirements.seq (fits_body hin)))))

theorem fits_initializerDeclaration :
    Fits ⟨[.genericParameterClause, .functionSignature, .genericWhereClause, .codeBlock], []⟩
      (initializerDeclaration inside) :=
  fits_bump.seq ((fits_bump.optional _).seq (fits_genericParameters.seq
    (fits_signature.seq (fits_genericRequirements.seq (fits_body hin)))))

theorem fits_deinitializer : Fits (.one .codeBlock) (deinitializer inside) :=
  fits_bump.seq (fits_body hin)

theorem fits_subscript :
    Fits ⟨[.genericParameterClause, .parameterClause, .returnClause, .genericWhereClause,
      .accessorBlock], []⟩ (subscript inside) :=
  fits_bump.seq (fits_genericParameters.seq (fits_parameters.seq
    (fits_returnClause.seq (fits_genericRequirements.seq (fits_optionalAccessors hin)))))

omit hin in
theorem fits_pattern :
    Fits ⟨[.identifierPattern, .tuplePattern], []⟩ (pattern : Rule n) := by
  have hname : Fits (.one .identifierPattern) (node .identifierPattern bump : Rule n) :=
    fits_bump.node rfl
  have hnames : Fits (.one .tuplePattern) (node .tuplePattern group : Rule n) :=
    fits_group.node rfl
  exact (hname.mono rfl).ifAt ((hnames.mono rfl).ifAt (fits_fault _ rfl).of_empty _) _

theorem fits_patternBinding : Fits (.one .patternBinding) (patternBinding inside) :=
  (fits_pattern.seq ((fits_annotatedType.optional _).seq
    (((fits_initializer _).optional _).seq (fits_optionalAccessors hin)))).node rfl

theorem fits_bindings : Fits (.one .patternBindingList) (bindings inside) := by
  have hlist := (fits_patternBinding hin).mono (d := .any [.patternBinding]) rfl
  exact fits_bump.seq ((hlist.commaList _).node rfl)

theorem fits_nominal :
    Fits ⟨[.name, .genericParameterClause, .inheritanceClause, .genericWhereClause,
      .memberBlock], []⟩ (nominal inside) :=
  fits_bump.seq (fits_identifierName.seq (fits_genericParameters.seq
    (fits_inheritance.seq (fits_genericRequirements.seq (fits_memberBlock hin)))))

theorem fits_extensionDeclaration :
    Fits ⟨[.inheritanceClause, .genericWhereClause, .memberBlock], Kind.types⟩
      (extensionDeclaration inside) :=
  (fits_bump.seq (fits_type.seq (fits_inheritance.seq
    (fits_genericRequirements.seq (fits_memberBlock hin))))).mono rfl

omit hin in
theorem fits_condition : Fits (.one .ifConfigCondition) (condition : Rule n) := by
  have hline : Fits (.any []) (whileAt (fun ws => !ws.head?.any (·.onNewLine)) done : Rule n) :=
    fits_done.whileAt _
  have hwords : Fits .empty
      (bump >> whileAt (fun ws => !ws.head?.any (·.onNewLine)) done : Rule n) :=
    fits_bump.seq hline
  intro ws h
  show Sketch.Fits _ [.node .ifConfigCondition (ifAt _ _ _ ws h).sketches] (ifAt _ _ _ ws h).rest
  have horigin (ws : List Word) : Kind.ifConfigCondition.Origin ws := fun hk =>
    absurd hk (by decide)
  unfold ifAt
  cases ws with
  | nil =>
    exact .reporting (Content.admits_nil _) ⟨True.intro, True.intro⟩ ⟨True.intro, True.intro⟩
      (horigin _) ⟨by simp [atWord, fault, Parsed.mark],
        by simp [atWord, fault, Parsed.mark, Sketch.wordsOfAll]⟩
  | cons w r =>
    have hparts := hwords (w :: r) h
    refine .reporting hparts.admits hparts.shaped hparts.sited (horigin _) ⟨?_, ?_⟩
    · exact iff_of_false (fun hf => Bool.noConfusion (hparts.quiet _ hf)) (by decide)
    · refine iff_of_false (fun hf => Bool.noConfusion (hparts.quiet _ hf)) fun hnone => ?_
      rw [Parsed.covers] at hnone
      cases hnone.2

theorem fits_branch (stop : List Kind) : Fits (.one .ifConfigClause) (branch inside stop) := by
  have hitems : Fits ⟨[.ifConfigCondition], Kind.items⟩
      (after (inside (branchEnds ++ stop))) := (hin _).after.mono rfl
  have hboth : Fits ⟨[.ifConfigCondition], Kind.items⟩
      (after (condition >> inside (branchEnds ++ stop))) := (fits_condition.seq (hin _)).after
  exact (hitems.ifAt hboth _).node rfl

theorem fits_conditionalBlock (stop : List Kind) :
    Fits (.any [.ifConfigClause]) (conditionalBlock inside stop) := by
  have hlist := (fits_branch hin stop).mono (d := .any [.ifConfigClause]) rfl
  exact ((hlist.many _).seq (fits_expect _ _ rfl)).mono rfl

/-- The form that a keyword makes has, behind attributes and modifiers, the content of its
declaration, and holds no more attributes or modifiers. -/
theorem fits_form (stop : List Kind) {ws : List Word} (h : declared ws ≠ .error) :
    ∃ c, Fits c (form inside stop ws).2 ∧
      (⟨Kind.lead, []⟩ ++ c : Content).within (form inside stop ws).1.content = true ∧
      (c.once ++ c.many).all (!Kind.lead.contains ·) = true := by
  rw [← fst_form inside stop] at h
  unfold form at h ⊢
  split
  case h_19 =>
    split
    · exact ⟨_, fits_nominal hin, rfl, rfl⟩
    · simp_all
  case h_5 => exact ⟨_, fits_extensionDeclaration hin, rfl, rfl⟩
  case h_6 => exact ⟨_, fits_function hin, rfl, rfl⟩
  case h_7 => exact ⟨_, fits_initializerDeclaration hin, rfl, rfl⟩
  case h_8 => exact ⟨_, fits_deinitializer hin, rfl, rfl⟩
  case h_9 => exact ⟨_, fits_subscript hin, rfl, rfl⟩
  case h_10 => exact ⟨_, fits_bindings hin, rfl, rfl⟩
  case h_11 => exact ⟨_, fits_bindings hin, rfl, rfl⟩
  case h_12 => exact ⟨_, fits_typeAlias, rfl, rfl⟩
  case h_13 => exact ⟨_, fits_associatedType, rfl, rfl⟩
  case h_14 => exact ⟨_, fits_importDeclaration, rfl, rfl⟩
  case h_15 => exact ⟨_, fits_operatorDeclaration, rfl, rfl⟩
  case h_16 => exact ⟨_, fits_precedenceGroup, rfl, rfl⟩
  case h_17 => exact ⟨_, fits_enumCases, rfl, rfl⟩
  case h_18 => exact ⟨_, fits_conditionalBlock hin stop, rfl, rfl⟩
  all_goals exact ⟨_, fits_nominal hin, rfl, rfl⟩

omit hin in
/-- Where no keyword stands, the form is the report of that. -/
theorem form_of_declared_eq_error (stop : List Kind) {ws : List Word}
    (h : declared ws = .error) : form inside stop ws = (.error, noDeclaration) := by
  rw [← fst_form inside stop] at h
  unfold form at h ⊢
  split
  case h_19 =>
    split
    · simp_all
    · rfl
  all_goals simp_all

omit hin in
theorem one_declared_within (ws : List Word) :
    (Content.one (declared ws)).within (.any Kind.items) = true := by
  unfold declared form
  split
  case h_19 => split <;> rfl
  all_goals rfl

/-- Where a declaration is announced, it is a node that may stand in a scope. -/
theorem fits_declaration (stop : List Kind) {ws : List Word} (h : ws.length < n + 1)
    (hat : atDeclaration ws = true) :
    (declaration inside stop ws h).Fits (.any Kind.items) := by
  have hlead := fits_attributesAndModifiers ws h
  have hrest := rest_attributesAndModifiers ws h
  have horigin : (declared (attributesAndModifiers ws h).rest).Origin ws := fun _ =>
    ⟨hat, by rw [hrest]⟩
  have hitem := one_declared_within (attributesAndModifiers ws h).rest
  unfold declaration
  dsimp only
  by_cases hdecl : declared (attributesAndModifiers ws h).rest = .error
  · rw [hdecl] at horigin hitem
    have hbump := (fits_bump (n := n + 1)).optional atWord
    have htail := hbump (attributesAndModifiers ws h).rest
      ((attributesAndModifiers ws h).length_rest_lt h)
    rw [form_of_declared_eq_error stop hdecl]
    refine Parsed.Fits.mono (Parsed.Fits.announced (d := .empty) hlead ?_ ?_ ?_ rfl horigin nofun
      ⟨?_, ?_⟩) hitem
    · exact htail.admits
    · exact ⟨True.intro, htail.shaped⟩
    · exact ⟨True.intro, htail.sited⟩
    · exact iff_of_true List.mem_cons_self rfl
    · refine iff_of_false (fun hf => ?_) nofun
      obtain hf | hf := List.mem_cons.1 hf
      · cases hf
      · exact Bool.noConfusion (htail.quiet _ hf)
  · obtain ⟨c, hform, hcontent, -⟩ := fits_form hin stop hdecl
    have hparts := hform (attributesAndModifiers ws h).rest
      ((attributesAndModifiers ws h).length_rest_lt h)
    rw [← fst_form inside stop] at horigin hitem hdecl
    have hcondition : (form inside stop (attributesAndModifiers ws h).rest).1 ≠
        .ifConfigCondition := by
      intro hk
      rw [hk] at hitem
      cases hitem
    exact Parsed.Fits.mono (Parsed.Fits.announced hlead hparts.admits hparts.shaped hparts.sited
      hcontent horigin hcondition (hparts.reporting_of_ne hdecl hcondition)) hitem

theorem fits_item (stop : List Kind) : Fits (.any Kind.items) (item inside stop) := fun ws h => by
  have hbump : Fits (.any Kind.items) (bump : Rule (n + 1)) := fits_bump.of_empty
  have hstatement : Fits (.any Kind.items) (statement stop : Rule (n + 1)) :=
    (fits_statement stop).mono rfl
  unfold item Rule.ifAt
  split
  · exact hbump ws h
  · split
    · next hat => exact fits_declaration hin stop h hat
    · exact hstatement ws h

end

/-! ## scopes -/

theorem fits_itemsFrom (stop : List Kind) (ws : List Word) :
    (itemsFrom stop ws).Fits (.any Kind.items) := by
  induction hlen : ws.length using Nat.strongRecOn generalizing stop ws with
  | ind m ih =>
    subst hlen
    rw [itemsFrom]
    split
    · next hc =>
      have hitem := fits_item (fun stop' r hr => ih r.length hr stop' r rfl) stop ws
        (Nat.lt_succ_self _)
      exact hitem.append_any (ih _ (advances_item _ stop ws (Nat.lt_succ_self _) hc) _ _ rfl)
    · exact .nil

/-- The sketch of a source file is shaped, and its outermost nodes are items. -/
theorem fits_fileItems (ws : List Word) :
    (fileItems ws).Fits (.any Kind.items) := fits_itemsFrom [] ws

end Grammar

/-! ## trees -/

namespace Sketch

open Marked

theorem kinds_map_token (ps : List Placed) :
    Tree.kinds (Marked.treesOfAll (ps.map token)) = [] := by
  induction ps with
  | nil => rfl
  | cons p ps ih => exact ih

theorem shapedAll_map_token (ps : List Placed) :
    Tree.ShapedAll (Marked.treesOfAll (ps.map token)) := by
  induction ps with
  | nil => exact True.intro
  | cons p ps ih => exact ⟨True.intro, ih⟩

/-- Laying a sketch adds no nodes. -/
theorem kinds_lay (size : Nat) (s : Sketch) (ps : List Placed) :
    Tree.kinds (Marked.treesOfAll (lay size s ps).1) = kinds [s] := by
  have hlead := kinds_map_token (ps.takeWhile (·.lexeme.isTrivia))
  cases s with
  | word w =>
    rw [lay_word]
    cases (leading ps).2 with
    | nil => exact hlead
    | cons p r =>
      rw [Marked.treesOfAll_append, Tree.kinds_append]
      exact congrArg (· ++ []) hlead
  | node k parts =>
    rw [lay_node, Marked.treesOfAll_append, Tree.kinds_append]
    exact congrArg (· ++ [k]) hlead
  | fault f => rfl
  | gap => exact hlead

theorem kinds_layAll (size : Nat) (ss : List Sketch) (ps : List Placed) :
    Tree.kinds (Marked.treesOfAll (layAll size ss ps).1) = kinds ss := by
  induction ss generalizing ps with
  | nil => rfl
  | cons s ss ih =>
    rw [layAll_cons, Marked.treesOfAll_append, Tree.kinds_append, kinds_lay, ih, ← kinds_append]
    rfl

mutual

theorem shaped_lay (size : Nat) (s : Sketch) (ps : List Placed) (h : s.Shaped) :
    Tree.ShapedAll (Marked.treesOfAll (lay size s ps).1) := by
  have hlead : Tree.ShapedAll (Marked.treesOfAll (leading ps).1) := shapedAll_map_token _
  cases s with
  | word w =>
    rw [lay_word]
    cases (leading ps).2 with
    | nil => exact hlead
    | cons p r =>
      rw [Marked.treesOfAll_append]
      exact Tree.shapedAll_append hlead ⟨True.intro, True.intro⟩
  | node k parts =>
    have hparts := shaped_layAll size parts (leading ps).2 h.2
    rw [lay_node, Marked.treesOfAll_append]
    refine Tree.shapedAll_append hlead ⟨⟨?_, hparts⟩, True.intro⟩
    rw [kinds_layAll]
    exact h.1
  | fault f => exact True.intro
  | gap => exact hlead

theorem shaped_layAll (size : Nat) (ss : List Sketch) (ps : List Placed) (h : ShapedAll ss) :
    Tree.ShapedAll (Marked.treesOfAll (layAll size ss ps).1) := by
  cases ss with
  | nil => exact True.intro
  | cons s ss =>
    have hs := shaped_lay size s ps h.1
    have hss := shaped_layAll size ss (lay size s ps).2 h.2
    rw [layAll_cons, Marked.treesOfAll_append]
    exact Tree.shapedAll_append hs hss

end

end Sketch

/-- Every node of a source file's tree has the content of its kind. -/
theorem shaped_parse (source : String) : (parse source).tree.Shaped := by
  have hfits := Grammar.fits_fileItems (Word.ofLexemes (Lexeme.lex source))
  show (Kind.content .sourceFile).Admits _ ∧ Tree.ShapedAll _
  simp only [markedParts]
  rw [Marked.treesOfAll_append, Tree.kinds_append, Sketch.kinds_layAll,
    Sketch.kinds_map_token, List.append_nil]
  refine ⟨hfits.admits, Tree.shapedAll_append ?_ (Sketch.shapedAll_map_token _)⟩
  exact Sketch.shaped_layAll _ _ _ hfits.shaped

end SwiftOutline

import SwiftOutline.Proofs.Parts

/-!
# SwiftOutline.Proofs.Regular

In a source file without faults every node has the parts of its kind.

The rules of the grammar are gone through from the smallest to the largest, each with the language
of what it takes. Rules for what is inside brackets get that of those as a hypothesis, which
`yields_typeFrom` and `yields_itemsFrom` discharge by induction on the number of words.

* `yields_declaration` — a declaration is attributes, modifiers and what its keyword starts;
* `yields_fileSketch` — so every node of a clean sketch is regular;
* `Site.parts_mem_of_mem_all` — and every node of a source file without faults.
-/

namespace SwiftOutline

open scoped Computability

open Parts (word words named nodeOf wordOf wordWhere anyWord several typeLabel scope looseList)

namespace Grammar

open Rule

variable {n : Nat}

/-! ## groups, attributes, modifiers, effects -/

theorem yields_groupFrom (depth : Nat) (ws : List Word) : (groupFrom depth ws).Yields words := by
  induction ws generalizing depth with
  | nil => exact Parsed.yields_done.mono one_le_kstar
  | cons w r ih =>
    unfold groupFrom
    split
    · exact (Parsed.yields_take True.intro r).mono le_kstar
    · exact ((ih _).word True.intro).mono mul_kstar_le_kstar

/-- A group starts with what opens it. -/
theorem yields_group {c : List Word → Bool} {P : Lexeme → Prop} (hc : Heads c P) :
    Yields c (wordWhere P * words) (group : Rule n) := fun ws _ hcw => by
  cases ws with
  | nil => rw [hc.1] at hcw; cases hcw
  | cons w r =>
    have hw := hc.2 w r hcw
    unfold group groupFrom
    split
    · refine (Parsed.yields_take hw r).mono ?_
      have hle := mul_le_mul_right (one_le_kstar (a := anyWord)) (wordWhere P)
      rwa [mul_one] at hle
    · exact (yields_groupFrom _ r).word hw

theorem heads_atJoinedParen : Heads atJoinedParen (·.kind ∈ [.openParen]) :=
  (heads_at? .openParen).and_left _

theorem heads_atPair (a b : Kind) : Heads (atPair a b) (·.kind ∈ [a]) :=
  (heads_at? a).and_left _

theorem yields_attributeArgument :
    Yields anywhere (Parts.node .attributeArgument) (attributeArgument : Rule n) := by
  have hgroup : Yields (atAny [.openParen, .openBracket, .openBrace]) words (group : Rule n) :=
    fun ws _ _ => yields_groupFrom 0 ws
  have hbump : Yields (atOther [.comma, .closeParen]) words (bump : Rule n) :=
    (yields_bump (heads_atWord.and_left _)).mono le_kstar
  exact ((hgroup.ifAt hbump).many _).of_anywhere.node (kstar_idem anyWord).le

theorem yields_attributeArguments :
    Yields atJoinedParen (Parts.node .attributeArguments) (attributeArguments : Rule n) :=
  ((yields_attributeArgument.of_anywhere.commaList.seq (yields_expect _ _)).behind
    heads_atJoinedParen fun _ _ _ => rfl).node le_rfl

theorem yields_attributeName : Yields anywhere (Parts.node .name) (attributeName : Rule n) := by
  have hnames : Yields anywhere (word .dot * word .identifier)∗
      (whileAt (atPair .dot .identifier) bump : Rule n) :=
    (yields_bump (heads_at? .identifier)).whileAt (heads_atPair _ _).2
      fun _ _ => Bool.and_elim_right
  have hname := hnames.behind heads_atWord fun _ _ _ => rfl
  exact (hname.ifAt (yields_fault _)).node le_self_add

theorem yields_oneAttribute :
    Yields (at? .atSign) (Parts.node .attribute) (oneAttribute : Rule n) :=
  ((yields_attributeName.seq yields_attributeArguments.optional).behind (heads_at? _)
    fun _ _ _ => rfl).node le_rfl

theorem yields_attributeList :
    Yields anywhere (Parts.optional (Parts.node .attributeList)) (attributeList : Rule n) :=
  ((yields_oneAttribute.many_at _).node le_rfl).optional

theorem heads_atModifier : Heads atModifier fun _ => True := ⟨rfl, fun _ _ _ => True.intro⟩

theorem yields_oneModifier : Yields atModifier (Parts.node .modifier) (oneModifier : Rule n) := by
  have hdetail : Yields atJoinedParen (Parts.node .modifierDetail)
      (Rule.node .modifierDetail group : Rule n) :=
    (yields_group heads_atJoinedParen).node le_rfl
  exact (hdetail.optional.behind heads_atModifier fun _ _ _ => rfl).node le_rfl

theorem yields_modifierList :
    Yields anywhere (Parts.optional (Parts.node .modifierList)) (modifierList : Rule n) :=
  ((yields_oneModifier.many_at _).node le_rfl).optional

theorem yields_attributesAndModifiers :
    Yields anywhere
      (Parts.optional (Parts.node .attributeList) * Parts.optional (Parts.node .modifierList))
      (attributesAndModifiers : Rule n) :=
  yields_attributeList.seq yields_modifierList

/-- What starts an effect is `throws` or a word that nothing in parentheses follows. -/
theorem heads_atEffect : Heads atEffect fun l =>
    l.kind ∈ [.kwThrows] ∨ l.kind ∈ [.kwRethrows] ∨
      l.kind = .identifier ∧ l.text ∈ ["async", "reasync"] := by
  refine ⟨rfl, fun w r h => ?_⟩
  simpa [atEffect, atAny, atName, kind?, Word.lexeme, or_assoc] using h

theorem yields_effect : Yields atEffect Parts.effect (effect : Rule n) := by
  have hthrows := (yields_group (n := n) heads_atJoinedParen).optional.behind
    (heads_at? .kwThrows) fun _ _ _ => rfl
  refine (hthrows.mono le_self_add).ifAt ((yields_bump heads_atEffect).mono ?_)
  rintro ps ⟨l, hl | hl | hl, rfl⟩
  · have hword : [.word l] ∈ word .kwThrows := ⟨l, hl, rfl⟩
    exact .inl (Language.append_mem_mul hword (Parts.one_le_optional _ rfl))
  · exact .inr (.inl ⟨l, hl, rfl⟩)
  · exact .inr (.inr ⟨l, hl, rfl⟩)

theorem yields_effectSpecifiers :
    Yields anywhere (Parts.optional (Parts.node .effectSpecifiers)) (effectSpecifiers : Rule n) :=
  ((yields_effect.many_at _).node le_rfl).optional

/-! ## types -/

theorem yields_label : Yields anywhere typeLabel (label : Rule n) := by
  have htwo : Yields (atPair .identifier .colon) (word .identifier * word .colon)
      (bump >> bump : Rule n) :=
    (yields_bump (heads_at? .colon)).behind (heads_atPair _ _) fun _ _ => Bool.and_elim_right
  have hthree : Yields (fun ws => labelLength ws == 3)
      (word .identifier * (word .identifier * word .colon)) (bump >> bump >> bump : Rule n) := by
    have hlabel : ∀ ws, (labelLength ws == 3) = true →
        (atPair .identifier .identifier ws && at? .colon (ws.drop 2)) = true := by
      intro ws h
      unfold labelLength at h
      split at h
      · cases h
      · split at h
        · assumption
        · cases h
    refine htwo.behind ((heads_atPair .identifier .identifier).of_imp fun ws h =>
      Bool.and_elim_left (hlabel ws h)) fun w r h => ?_
    obtain ⟨hnames, hcolon⟩ := Bool.and_eq_true_iff.1 (hlabel _ h)
    have hname := Bool.and_elim_right hnames
    simp only [List.drop_succ_cons, List.drop_one, List.tail_cons] at hname hcolon
    simp [atPair, hname, hcolon]
  refine ((htwo.of_imp fun ws h => ?_).mono le_self_add).ifAt (hthree.optional.mono le_add_self)
  unfold labelLength at h
  split at h
  · assumption
  · split at h <;> cases h

section

variable {inside : Rule n} (hin : Yields anywhere Parts.type inside)

include hin

theorem yields_genericArguments :
    Yields (at? .openAngle) (Parts.node .genericArgumentClause) (genericArguments inside) :=
  ((hin.of_anywhere.commaList.seq (yields_expect _ _)).behind (heads_at? _)
    fun _ _ _ => rfl).node le_rfl

theorem yields_pathSegment : Yields (atAny [.identifier, .kwSelfType, .kwClass, .kwProtocol])
    (Parts.node .typePathSegment) (pathSegment inside) :=
  ((yields_genericArguments hin).optional.after (heads_atAny _)).node le_rfl

theorem yields_path : Yields (atAny [.identifier, .kwSelfType, .kwClass, .kwProtocol])
    (Parts.node .typePath) (path inside) := by
  have hsegments : Yields anywhere (word .dot * Parts.node .typePathSegment)∗
      (whileAt atPathTail (pathSegment inside)) := by
    have hdot : Heads atPathTail (·.kind ∈ [.dot]) := (heads_at? .dot).and_left _
    refine (yields_pathSegment hin).whileAt hdot.2 fun w r h => ?_
    obtain ⟨k, hk, hmem⟩ := (Option.any_eq_true _ _).1 (Bool.and_elim_right h)
    refine (Option.any_eq_true _ _).2 ⟨k, hk, ?_⟩
    simp only [List.contains_cons, List.contains_nil, Bool.or_false, Bool.or_eq_true] at hmem ⊢
    tauto
  exact ((yields_pathSegment hin).seq hsegments).node le_rfl

theorem yields_collectionType :
    Yields (at? .openBracket) Parts.type (collectionType inside) := fun ws h hat => by
  cases ws with
  | nil => cases hat
  | cons w r =>
    have hw : w.kind = .openBracket := by simpa [at?, kind?] using hat
    have hclose : Yields anywhere (word .closeBracket)
        (expect .closeBracket .unclosedCollectionType : Rule n) := yields_expect _ _
    have helement := hin r (Nat.lt_of_succ_lt_succ h) rfl
    unfold collectionType onWord
    dsimp only
    split
    · next hcolon =>
      have hvalue := (hin.seq hclose).behind (heads_at? .colon) fun _ _ _ => rfl
      exact (((helement.append (hvalue _ _ hcolon)).behind hw).node le_rfl).mono
        (Parts.node_le_type (by decide))
    · exact (((helement.append (hclose _ _ rfl)).behind hw).node le_rfl).mono
        (Parts.node_le_type (by decide))

theorem yields_tupleElement :
    Yields anywhere (Parts.node .typeTupleElement) (tupleElement inside) := by
  have htype : Yields anywhere Parts.type (Rule.ifAt atTypeStart inside
      (fault .noType >> Rule.optional (atOther [.comma, .closeParen]) bump)) :=
    hin.of_anywhere.ifAt (yields_fault_seq _ _)
  exact (yields_label.seq (htype.seq (yields_eat _))).node le_rfl

theorem yields_functionTypeTail :
    Yields anywhere
      (Parts.optional (Parts.node .effectSpecifiers) * (word .arrow * Parts.type))
      (functionTypeTail inside) :=
  yields_effectSpecifiers.seq ((yields_expect _ _).seq hin)

theorem yields_tupleOrFunctionType :
    Yields (at? .openParen) Parts.type (tupleOrFunctionType inside) := fun ws h hat => by
  cases ws with
  | nil => cases hat
  | cons w r =>
    have hw : w.kind = .openParen := by simpa [at?, kind?] using hat
    have helements : Yields anywhere
        (looseList (Parts.node .typeTupleElement) * word .closeParen)
        (commaList (atOther [.closeParen]) (tupleElement inside) >>
          expect .closeParen .unclosedTupleType) :=
      (yields_tupleElement hin).of_anywhere.commaList.seq (yields_expect _ _)
    have htuple := ((helements r (Nat.lt_of_succ_lt_succ h) rfl).behind hw).node
      (k := .typeTuple) le_rfl
    unfold tupleOrFunctionType onWord
    dsimp only
    split
    · exact ((htuple.append (yields_functionTypeTail hin _ _ rfl)).node le_rfl).mono
        (Parts.node_le_type (by decide))
    · exact htuple.mono (Parts.node_le_type (by decide))

theorem yields_primaryType : Yields anywhere Parts.type (primaryType inside) := by
  have hpath : Yields (atAny [.identifier, .kwSelfType, .kwClass, .kwProtocol]) Parts.type
      (path inside) := (yields_path hin).mono (Parts.node_le_type (by decide))
  have hnone : Yields anywhere Parts.type (gap >> fault .noType : Rule (n + 1)) :=
    fun _ _ _ hc => hc.2.1.elim
  exact (yields_tupleOrFunctionType hin).ifAt
    ((yields_collectionType hin).ifAt (hpath.ifAt hnone))

omit hin in
/-- Every suffix of a type wraps it into another type. -/
theorem yields_wrapSuffixes {ss : List Sketch} {ws : List Word}
    (hs : Sketch.CleanAll ss → Sketch.Yields Parts.type ss)
    (hc : Sketch.CleanAll (wrapSuffixes ss ws).1) :
    Sketch.Yields Parts.type (wrapSuffixes ss ws).1 := by
  fun_induction wrapSuffixes ss ws with
  | case1 ss => exact hs hc
  | case2 ss w r k hk ih =>
    refine ih (fun hclean => ?_) hc
    have hss := hs (Sketch.cleanAll_append.1 hclean.1).1
    have hsuffix {j : Kind} (hj : at? j (w :: r) = true) : Sketch.Yields (word j) [.word w] :=
      .word (by simpa [at?, kind?, Word.lexeme] using hj)
    unfold suffixKind? at hk
    split at hk
    · cases hk
    · split at hk
      · next hquestion =>
        obtain rfl := Option.some.inj hk
        exact ((hss.append (hsuffix hquestion)).node le_rfl).mono (Parts.node_le_type (by decide))
      · split at hk
        · next hbang =>
          obtain rfl := Option.some.inj hk
          exact ((hss.append (hsuffix hbang)).node le_rfl).mono (Parts.node_le_type (by decide))
        · cases hk
  | case3 ss w r _ => exact hs hc

theorem yields_suffixedType : Yields anywhere Parts.type (suffixedType inside) :=
  fun ws h _ hc => yields_wrapSuffixes (yields_primaryType hin ws h rfl) hc

theorem yields_composedType : Yields anywhere Parts.type (composedType inside) :=
  fun ws h _ => by
    have hfirst := yields_suffixedType hin ws h rfl
    unfold composedType
    dsimp only
    split
    · next hat =>
      have hothers := (yields_suffixedType hin).whileAt_at (heads_at? .ampersand) fun _ _ _ => rfl
      exact ((hfirst.append (hothers _ _ hat)).node le_rfl).mono (Parts.node_le_type (by decide))
    · exact hfirst

omit hin in
theorem heads_atOwnership : Heads atOwnership fun l =>
    l.kind ∈ [.kwInout] ∨ l.kind = .identifier ∧ l.text ∈ ownershipNames :=
  ⟨rfl, fun w r h => by simpa [atOwnership, at?, atName, kind?, Word.lexeme] using h⟩

omit hin in
theorem yields_typeAttributes :
    Yields atTypeAttribute
      (Parts.optional (Parts.node .attributeList) *
        (Parts.ownership∗ * Parts.optional (Parts.node .attributeList)))
      (typeAttributes : Rule n) := by
  have hownership : wordWhere (fun l : Lexeme =>
      l.kind ∈ [.kwInout] ∨ l.kind = .identifier ∧ l.text ∈ ownershipNames) ≤ Parts.ownership := by
    rintro ps ⟨l, hl | hl, rfl⟩
    · exact .inl ⟨l, hl, rfl⟩
    · exact .inr ⟨l, hl, rfl⟩
  have howners : Yields anywhere Parts.ownership∗ (whileAt atOwnership done : Rule n) :=
    (yields_whileAt_done heads_atOwnership.2).mono (kstar_mono hownership)
  have hothers := howners.seq (yields_attributeList (n := n))
  have hone : Yields (fun ws => atTypeAttribute ws && !at? .atSign ws) Parts.ownership
      (bump : Rule n) :=
    (yields_bump (heads_atOwnership.of_imp fun ws h => by
      rw [atTypeAttribute, Bool.and_eq_true, Bool.or_eq_true, Bool.not_eq_true'] at h
      exact h.1.resolve_left (by simp [h.2]))).mono
      hownership
  have hfirst : Yields atTypeAttribute
      (Parts.optional (Parts.node .attributeList) + Parts.ownership)
      (Rule.ifAt (at? .atSign) attributeList bump : Rule n) :=
    (yields_attributeList.of_anywhere.mono le_self_add).ifAt_else (hone.mono le_add_self)
  refine (hfirst.seq hothers).mono ?_
  rw [add_mul, ← mul_assoc Parts.ownership]
  refine add_le le_rfl ?_
  have hle := mul_le_mul' (Parts.one_le_optional (Parts.node .attributeList))
    (mul_le_mul_left (mul_kstar_le_kstar (a := Parts.ownership))
      (Parts.optional (Parts.node .attributeList)))
  rwa [one_mul] at hle

theorem yields_attributedType :
    Yields atTypeAttribute (Parts.node .typeAttributed) (attributedType inside) := by
  refine (yields_typeAttributes.advancing _ hin).node ?_
  rw [mul_assoc, mul_assoc]
  exact le_rfl

theorem yields_typeWith : Yields anywhere Parts.type (typeWith inside) := by
  have hsome : Yields (atName ["some"]) Parts.type (node .typeSome (after inside)) :=
    ((hin.after (heads_atName _)).node le_rfl).mono (Parts.node_le_type (by decide))
  have hany : Yields (fun ws => atConstraint ws && !atName ["some"] ws) Parts.type
      (node .typeAny (after inside)) := by
    refine ((hin.after ((heads_atName ["any"]).of_imp fun ws h => ?_)).node le_rfl).mono
      (Parts.node_le_type (by decide))
    cases ws with
    | nil => cases h
    | cons w r =>
      simp only [atConstraint, atName, List.head?_cons, Option.any_some, Bool.and_eq_true,
        beq_iff_eq, List.contains_cons, List.contains_nil, Bool.or_false, Bool.or_eq_true,
        Bool.not_eq_true', Bool.and_eq_false_iff] at h ⊢
      grind
  have hattributed : Yields atTypeAttribute Parts.type (attributedType inside) :=
    (yields_attributedType hin).mono (Parts.node_le_type (by decide))
  exact (hsome.ifAt_else hany).ifAt (hattributed.ifAt (yields_composedType hin))

end

theorem yields_typeFrom (ws : List Word) : (typeFrom ws).Yields Parts.type := by
  induction hlen : ws.length using Nat.strongRecOn generalizing ws with
  | ind m ih =>
    subst hlen
    rw [typeFrom]
    exact yields_typeWith (fun r hr _ => ih _ hr r rfl) ws _ rfl

theorem yields_type : Yields anywhere Parts.type (type : Rule n) := fun ws _ _ => yields_typeFrom ws

/-! ## clauses -/

theorem identifier_le_name : word .identifier ≤ Kind.parts .name := by
  have hle := mul_le_mul' (Parts.wordWhere_le_anyWord (p := (·.kind ∈ [Kind.identifier])))
    (one_le_kstar (a := word .dot * word .identifier))
  rw [mul_one] at hle
  exact hle.trans le_self_add

theorem yields_identifierName : Yields anywhere (Parts.node .name) (identifierName : Rule n) :=
  (yields_expect _ _).node identifier_le_name

theorem heads_atOperatorTail : Heads atOperatorTail (·.kind ∈ operatorMarks) :=
  (heads_atAny operatorMarks).and_left _

theorem yields_operatorName : Yields anywhere (Parts.node .name) (operatorName : Rule n) := by
  have hname : Yields (at? .identifier) (Kind.parts .name) (bump : Rule n) :=
    (yields_bump (heads_at? _)).mono identifier_le_name
  have hmarks : Yields (atAny operatorMarks) (Kind.parts .name)
      (bump >> whileAt atOperatorTail done : Rule n) :=
    ((yields_whileAt_done heads_atOperatorTail.2).behind (heads_atAny _) fun _ _ _ => rfl).mono
      le_add_self
  exact (hname.ifAt (hmarks.ifAt (yields_fault _))).node le_rfl

theorem yields_annotatedType :
    Yields (at? .colon) (Parts.node .annotatedType) (annotatedType : Rule n) :=
  (yields_type.behind (heads_at? _) fun _ _ _ => rfl).node le_rfl

theorem yields_typeInitializer :
    Yields (at? .equals) (Parts.node .typeInitializer) (typeInitializer : Rule n) :=
  (yields_type.behind (heads_at? _) fun _ _ _ => rfl).node le_rfl

theorem yields_returnClause :
    Yields anywhere (Parts.optional (Parts.node .returnClause)) (returnClause : Rule n) :=
  ((yields_type.behind (heads_at? _) fun _ _ _ => rfl).node le_rfl).optional

theorem yields_genericParameter :
    Yields anywhere (Parts.node .genericParameter) (genericParameter : Rule n) := by
  have hpack : Yields atPack (named ["each"]) (bump : Rule n) :=
    yields_bump ((heads_atName _).and_left _)
  have hbound : Yields (at? .colon) (word .colon * Parts.type) (bump >> type : Rule n) :=
    yields_type.behind (heads_at? _) fun _ _ _ => rfl
  exact (yields_attributeList.seq (hpack.optional.seq (yields_identifierName.seq
    (hbound.optional.seq (yields_eat _))))).node le_rfl

theorem yields_genericParameters :
    Yields anywhere (Parts.optional (Parts.node .genericParameterClause))
      (genericParameters : Rule n) :=
  (((yields_genericParameter.of_anywhere.commaList.seq (yields_expect _ _)).behind (heads_at? _)
    fun _ _ _ => rfl).node le_rfl).optional

/-- What relates the types of a requirement. -/
theorem yields_relation :
    Yields anywhere
      (wordWhere (fun l => l.kind = .colon ∨ l = ⟨.customOperator, "=="⟩) * Parts.type)
      (Rule.ifAt (at? .colon) (bump >> type)
        (Rule.ifAt atSameType (bump >> type) (fault .noRequirementRelation)) : Rule n) := by
  have hcolon : Heads (at? .colon) fun l => l.kind = .colon ∨ l = ⟨.customOperator, "=="⟩ :=
    (heads_at? .colon).mono fun l hl => .inl (List.mem_singleton.1 hl)
  have hsame : Heads atSameType fun l => l.kind = .colon ∨ l = ⟨.customOperator, "=="⟩ :=
    ⟨rfl, fun w r h => .inr (by simpa [atSameType, Word.lexeme] using h)⟩
  exact (yields_type.behind hcolon fun _ _ _ => rfl).ifAt
    ((yields_type.behind hsame fun _ _ _ => rfl).ifAt (yields_fault _))

theorem yields_genericRequirements :
    Yields anywhere (Parts.optional (Parts.node .genericWhereClause))
      (genericRequirements : Rule n) := by
  have hrequirement : Yields anywhere (Parts.node .genericRequirement)
      (genericRequirement : Rule n) := (yields_type.seq yields_relation).node le_rfl
  exact ((hrequirement.commaList_true.behind (heads_at? _) fun _ _ _ => rfl).node le_rfl).optional

theorem yields_inheritance :
    Yields anywhere (Parts.optional (Parts.node .inheritanceClause)) (inheritance : Rule n) := by
  have htype : Yields anywhere (Parts.node .inheritedType) (node .inheritedType type : Rule n) :=
    yields_type.node le_rfl
  exact ((htype.commaList_true.behind (heads_at? _) fun _ _ _ => rfl).node le_rfl).optional

/-! ## expressions and statements -/

theorem yields_expressionWords (accessorsFollow : Bool) (depth : Nat) (begun : Bool)
    (ws : List Word) : (expressionWords accessorsFollow depth begun ws).Yields words := by
  induction ws generalizing depth begun with
  | nil => exact Parsed.yields_done.mono one_le_kstar
  | cons w r ih =>
    unfold expressionWords
    split
    · exact Parsed.yields_done.mono one_le_kstar
    · exact ((ih _ _).word True.intro).mono mul_kstar_le_kstar

theorem yields_expression (accessorsFollow : Bool) :
    Yields anywhere (Parts.node .expression) (expression accessorsFollow : Rule n) := by
  refine ((yields_fault _).ifAt_else fun ws _ hc => ?_).node (k := .expression) le_rfl
  cases ws with
  | nil => cases hc
  | cons w r =>
    have hstart : endsExpression accessorsFollow false (w :: r) = false := by
      simpa [anywhere] using hc
    unfold expressionWords
    rw [hstart, Bool.and_false, if_neg Bool.false_ne_true]
    exact (yields_expressionWords _ _ _ r).word True.intro

theorem yields_initializer (accessorsFollow : Bool) :
    Yields (at? .equals) (Parts.node .initializer) (initializer accessorsFollow : Rule n) :=
  ((yields_expression _).behind (heads_at? _) fun _ _ _ => rfl).node le_rfl

theorem yields_statementWords (stop : List Kind) (depth : Nat) (begun : Bool) (ws : List Word) :
    (statementWords stop depth begun ws).Yields words := by
  induction ws generalizing depth begun with
  | nil => exact Parsed.yields_done.mono one_le_kstar
  | cons w r ih =>
    unfold statementWords
    split
    · exact Parsed.yields_done.mono one_le_kstar
    · split
      · exact (Parsed.yields_take True.intro r).mono le_kstar
      · exact ((ih _ _).word True.intro).mono mul_kstar_le_kstar

theorem yields_statement (stop : List Kind) :
    Yields (atOther stop) (Parts.node .statement) (statement stop : Rule n) := fun ws h hother => by
  have hwords : Yields anywhere words
      (Rule.ifAt atCloser (fault .unexpectedCloser >> bump)
        (fun ws _ => statementWords stop 0 false ws) : Rule n) :=
    (yields_fault_seq _ _).ifAt fun ws _ _ => yields_statementWords _ _ _ ws
  exact ((hwords ws h rfl).several (advances_statement stop ws h hother)).node le_rfl

/-! ## functions -/

theorem yields_parameterNames :
    Yields anywhere (wordOf parameterWords * Parts.optional (wordOf parameterWords))
      (parameterNames : Rule n) := by
  have hname : Yields (atAny parameterWords) (wordOf parameterWords) (bump : Rule n) :=
    yields_bump (heads_atAny _)
  exact (hname.optional.behind (heads_atAny _) fun _ _ _ => rfl).ifAt (yields_fault _)

theorem yields_parameter :
    Yields anywhere (Parts.node .functionParameter) (parameter : Rule n) := by
  have htype : Yields anywhere (Parts.node .annotatedType)
      (Rule.ifAt (at? .colon) annotatedType (fault .noParameterType) : Rule n) :=
    yields_annotatedType.ifAt (yields_fault _)
  have hrest : Yields anywhere words
      (whileAt (atOther [.comma, .closeParen, .openBrace, .closeBrace]) done : Rule n) :=
    yields_whileAt_done fun _ _ _ => True.intro
  refine (yields_attributeList.seq (yields_parameterNames.seq (htype.seq ((yields_eat _).seq
    ((yields_initializer _).optional.seq hrest))))).node ?_
  rw [mul_assoc (wordOf parameterWords)]
  exact le_rfl

theorem yields_parameters : Yields anywhere (Parts.node .parameterClause) (parameters : Rule n) :=
  (((yields_parameter.of_anywhere.commaList.seq (yields_expect _ _)).behind (heads_at? _)
    fun _ _ _ => rfl).ifAt (yields_fault _)).node le_rfl

theorem yields_signature :
    Yields anywhere (Parts.node .functionSignature) (signature : Rule n) :=
  (yields_parameters.seq (yields_effectSpecifiers.seq yields_returnClause)).node le_rfl

/-! ## declarations that hold no others -/

theorem yields_associatedValue :
    Yields anywhere (Parts.node .enumCaseParameter) (associatedValue : Rule n) :=
  (yields_label.seq (yields_type.seq (yields_initializer _).optional)).node le_rfl

theorem yields_associatedValues :
    Yields anywhere (Parts.optional (Parts.node .enumCaseParameterClause))
      (associatedValues : Rule n) :=
  (((yields_associatedValue.of_anywhere.commaList.seq (yields_expect _ _)).behind (heads_at? _)
    fun _ _ _ => rfl).node le_rfl).optional

theorem yields_enumCaseElement :
    Yields anywhere (Parts.node .enumCaseElement) (enumCaseElement : Rule n) :=
  (yields_identifierName.seq (yields_associatedValues.seq
    (yields_initializer _).optional)).node le_rfl

theorem yields_enumCases :
    Yields (at? .kwCase) (Kind.fromKeyword .enumCaseDecl) (enumCases : Rule n) :=
  yields_enumCaseElement.commaList_true.behind (heads_at? _) fun _ _ _ => rfl

theorem yields_typeAlias :
    Yields (at? .kwTypealias) (Kind.fromKeyword .typeAliasDecl) (typeAlias : Rule n) := by
  have htype : Yields anywhere (Parts.node .typeInitializer)
      (Rule.ifAt (at? .equals) typeInitializer (fault .noAliasedType) : Rule n) :=
    yields_typeInitializer.ifAt (yields_fault _)
  exact (yields_identifierName.seq (yields_genericParameters.seq
    (htype.seq yields_genericRequirements))).behind (heads_at? _) fun _ _ _ => rfl

theorem yields_associatedType :
    Yields (at? .kwAssociatedtype) (Kind.fromKeyword .associatedTypeDecl)
      (associatedType : Rule n) :=
  (yields_identifierName.seq (yields_inheritance.seq (yields_typeInitializer.optional.seq
    yields_genericRequirements))).behind (heads_at? _) fun _ _ _ => rfl

theorem yields_importPath : Yields anywhere (Parts.node .importPath) (importPath : Rule n) := by
  have hdot : Heads (fun ws => atJoinedDot ws && at? .identifier ws.tail) (·.kind ∈ [.dot]) :=
    ((heads_at? .dot).and_left _).and_left _
  have hnames : Yields anywhere (word .dot * word .identifier)∗
      (whileAt (fun ws => atJoinedDot ws && at? .identifier ws.tail) bump : Rule n) :=
    (yields_bump (heads_at? .identifier)).whileAt hdot.2 fun _ _ => Bool.and_elim_right
  have hoperator : Yields atJoinedDot (word .dot * (wordOf operatorMarks)∗)
      (bump >> whileAt atOperatorTail done : Rule n) :=
    (yields_whileAt_done heads_atOperatorTail.2).behind ((heads_at? .dot).and_left _)
      fun _ _ _ => rfl
  exact (((hnames.seq hoperator.optional).behind (heads_at? _) fun _ _ _ => rfl).ifAt
    (yields_fault _)).node le_rfl

theorem yields_importDeclaration :
    Yields (at? .kwImport) (Kind.fromKeyword .importDecl) (importDeclaration : Rule n) := by
  have hkind : Yields (atAny importKinds) (wordOf importKinds) (bump : Rule n) :=
    yields_bump (heads_atAny _)
  exact (hkind.optional.seq yields_importPath).behind (heads_at? _) fun _ _ _ => rfl

theorem yields_operatorDeclaration :
    Yields (at? .kwOperator) (Kind.fromKeyword .operatorDecl) (operatorDeclaration : Rule n) := by
  have hgroups : Yields anywhere (Parts.optional (Parts.node .precedenceDesignation))
      (precedenceDesignation : Rule n) :=
    (((yields_expect _ _).commaList_true.behind (heads_at? _) fun _ _ _ => rfl).node
      le_rfl).optional
  exact (yields_operatorName.seq hgroups).behind (heads_at? _) fun _ _ _ => rfl

theorem yields_precedenceAttribute :
    Yields (atPair .identifier .colon) (Parts.node .precedenceGroupAttribute)
      (precedenceAttribute : Rule n) := by
  have hnames : Yields anywhere (word .comma * word .identifier)∗
      (whileAt (atPair .comma .identifier) bump : Rule n) :=
    (yields_bump (heads_at? .identifier)).whileAt (heads_atPair _ _).2
      fun _ _ => Bool.and_elim_right
  have hvalue : Yields anywhere
      (wordOf [.identifier, .boolean] * (word .comma * word .identifier)∗)
      (Rule.ifAt (atAny [.identifier, .boolean])
        (bump >> whileAt (atPair .comma .identifier) bump)
        (fault .noPrecedenceGroupValue) : Rule n) :=
    (hnames.behind (heads_atAny _) fun _ _ _ => rfl).ifAt (yields_fault _)
  exact ((hvalue.behind (heads_at? .colon) fun _ _ _ => rfl).behind (heads_atPair _ _)
    fun _ _ => Bool.and_elim_right).node le_rfl

theorem yields_precedenceGroup :
    Yields (at? .kwPrecedencegroup) (Kind.fromKeyword .precedenceGroupDecl)
      (precedenceGroup : Rule n) := by
  have hattributes : Yields anywhere (Parts.node .precedenceGroupAttribute)∗
      (precedenceAttributes : Rule n) :=
    (yields_precedenceAttribute.ifAt (yields_fault_seq _ _)).many _
  have hblock : Yields anywhere
      (word .openBrace * ((Parts.node .precedenceGroupAttribute)∗ * word .closeBrace))
      (Rule.ifAt (at? .openBrace)
        (bump >> precedenceAttributes >> expect .closeBrace .unclosedPrecedenceGroup)
        (fault .noBody) : Rule n) :=
    ((hattributes.seq (yields_expect _ _)).behind (heads_at? _) fun _ _ _ => rfl).ifAt
      (yields_fault _)
  exact (yields_identifierName.seq hblock).behind (heads_at? _) fun _ _ _ => rfl

/-! ## blocks, given the items inside -/

section

variable {inside : List Kind → Rule n} (hin : ∀ stop, Yields anywhere scope (inside stop))

include hin

theorem yields_braced (unclosed : Fault) :
    Yields (at? .openBrace) (Kind.parts .codeBlock) (braced inside unclosed) :=
  ((hin _).seq (yields_expect _ _)).after (heads_at? _)

theorem yields_memberBlock : Yields anywhere (Parts.node .memberBlock) (memberBlock inside) :=
  ((yields_braced hin _).ifAt (yields_fault _)).node le_rfl

theorem yields_body :
    Yields anywhere (Parts.optional (Parts.node .codeBlock)) (body inside) :=
  ((yields_braced hin _).node le_rfl).optional

omit hin in
theorem yields_accessorParameter :
    Yields anywhere (Parts.optional (Parts.node .accessorParameter))
      (accessorParameter : Rule n) :=
  ((((yields_expect _ _).seq (yields_expect _ _)).behind (heads_at? _)
    fun _ _ _ => rfl).node le_rfl).optional

/-- What an accessor starts with may be taken by an attribute that closes later than it was
expected to; then no word is left. -/
theorem yields_oneAccessor {ws : List Word} (h : ws.length < n + 1)
    (hrest : (oneAccessor inside ws h).rest ≠ []) :
    (oneAccessor inside ws h).Yields (Parts.node .accessorDecl) := by
  have hlead := yields_attributesAndModifiers ws h rfl
  have hword : (bump (attributesAndModifiers ws h).rest
      ((attributesAndModifiers ws h).length_rest_lt h)).Yields anyWord := by
    have hbump : ((attributesAndModifiers >> bump : Rule (n + 1)) ws h).rest ≠ [] :=
      ne_nil_of_seq (q := accessorParameter >> effectSpecifiers >> body inside) hrest
    have hne : (attributesAndModifiers ws h).rest ≠ [] := ne_nil_of_seq hbump
    refine yields_bump heads_atWord _ _ ?_
    simpa [atWord] using hne
  have htail := yields_accessorParameter.seq (yields_effectSpecifiers.seq (yields_body hin))
  refine ((hlead.append hword).append (htail _ _ rfl)).node ?_
  rw [mul_assoc, mul_assoc]
  exact le_rfl

theorem yields_accessors {ws : List Word} (h : ws.length < n + 1)
    (hrest : (accessors inside ws h).rest ≠ []) :
    (accessors inside ws h).Yields (Parts.node .accessorDecl)∗ := by
  refine many_of_rest (fun ws h _ hrest => ?_) _ ws h hrest
  unfold Rule.ifAt at hrest ⊢
  split
  · next hat =>
    rw [if_pos hat] at hrest
    exact yields_oneAccessor hin h hrest
  · exact yields_fault_seq (c := anywhere) _ _ ws h rfl

/-- Accessors that are closed leave a word, the one that closes them. -/
theorem yields_closedAccessors :
    Yields anywhere ((Parts.node .accessorDecl)∗ * word .closeBrace)
      (accessors inside >> expect .closeBrace .unclosedAccessors) := fun ws h _ hc => by
  obtain ⟨haccessors, hclose⟩ := Sketch.cleanAll_append.1 hc
  have hrest : (accessors inside ws h).rest ≠ [] := ne_nil_of_cleanAll_expect hclose
  exact (yields_accessors hin h hrest haccessors).append
    (yields_expect (c := anywhere) _ _ _ _ rfl hclose)

theorem yields_optionalAccessors :
    Yields anywhere (Parts.optional (Parts.node .accessorBlock)) (optionalAccessors inside) := by
  have hlisted : Yields atAccessorBlock (Kind.parts .accessorBlock)
      (bump >> accessors inside >> expect .closeBrace .unclosedAccessors) :=
    ((yields_closedAccessors hin).behind ((heads_at? _).and_left _) fun _ _ _ => rfl).mono
      (mul_le_mul_right (mul_le_mul_left le_self_add _) _)
  have hblock : Yields (at? .openBrace) (Kind.parts .accessorBlock)
      (Rule.ifAt atAccessorBlock
        (bump >> accessors inside >> expect .closeBrace .unclosedAccessors)
        (braced inside .unclosedAccessors)) :=
    hlisted.ifAt ((yields_braced hin _).mono (mul_le_mul_right (mul_le_mul_left le_add_self _) _))
  exact (hblock.node le_rfl).optional

/-! ## declarations, given the items inside -/

omit hin in
theorem yields_pattern :
    Yields anywhere (nodeOf [.identifierPattern, .tuplePattern]) (pattern : Rule n) := by
  have hname : Yields (at? .identifier) (Parts.node .identifierPattern)
      (node .identifierPattern bump : Rule n) := (yields_bump (heads_at? _)).node le_rfl
  have hnames : Yields (at? .openParen) (Parts.node .tuplePattern)
      (node .tuplePattern group : Rule n) := (yields_group (heads_at? _)).node le_rfl
  exact (hname.mono (Parts.nodeOf_mono (by decide))).ifAt
    ((hnames.mono (Parts.nodeOf_mono (by decide))).ifAt (yields_fault _))

theorem yields_patternBinding :
    Yields anywhere (Parts.node .patternBinding) (patternBinding inside) :=
  (yields_pattern.seq (yields_annotatedType.optional.seq ((yields_initializer _).optional.seq
    (yields_optionalAccessors hin)))).node le_rfl

theorem yields_bindings :
    Yields (atAny [.kwVar, .kwLet]) (Kind.fromKeyword .variableDecl) (bindings inside) :=
  ((yields_patternBinding hin).commaList_true.node le_rfl).behind (heads_atAny _) fun _ _ _ => rfl

theorem yields_function :
    Yields (at? .kwFunc) (Kind.fromKeyword .functionDecl) (function inside) :=
  (yields_operatorName.seq (yields_genericParameters.seq (yields_signature.seq
    (yields_genericRequirements.seq (yields_body hin))))).behind (heads_at? _) fun _ _ _ => rfl

theorem yields_initializerDeclaration :
    Yields (at? .kwInit) (Kind.fromKeyword .initializerDecl) (initializerDeclaration inside) := by
  have hmark : Yields atFailable (wordOf [.question, .bang]) (bump : Rule (n + 1)) :=
    yields_bump ((heads_atAny _).and_left _)
  exact (hmark.optional.seq (yields_genericParameters.seq (yields_signature.seq
    (yields_genericRequirements.seq (yields_body hin))))).behind (heads_at? _) fun _ _ _ => rfl

theorem yields_deinitializer :
    Yields (at? .kwDeinit) (Kind.fromKeyword .deinitializerDecl) (deinitializer inside) :=
  (yields_body hin).behind (heads_at? _) fun _ _ _ => rfl

theorem yields_subscript :
    Yields (at? .kwSubscript) (Kind.fromKeyword .subscriptDecl) (subscript inside) :=
  (yields_genericParameters.seq (yields_parameters.seq (yields_returnClause.seq
    (yields_genericRequirements.seq (yields_optionalAccessors hin))))).behind (heads_at? _)
    fun _ _ _ => rfl

theorem yields_nominal {c : List Word → Bool} {P : Lexeme → Prop} (hc : Heads c P) :
    Yields c (Kind.nominalParts (wordWhere P)) (nominal inside) :=
  (yields_identifierName.seq (yields_genericParameters.seq (yields_inheritance.seq
    (yields_genericRequirements.seq (yields_memberBlock hin))))).behind hc fun _ _ _ => rfl

theorem yields_extensionDeclaration :
    Yields (at? .kwExtension) (Kind.fromKeyword .extensionDecl) (extensionDeclaration inside) :=
  (yields_type.seq (yields_inheritance.seq (yields_genericRequirements.seq
    (yields_memberBlock hin)))).behind (heads_at? _) fun _ _ _ => rfl

omit hin in
theorem yields_condition :
    Yields anywhere (Parts.node .ifConfigCondition) (condition : Rule n) := by
  have hline : Yields anywhere words
      (whileAt (fun ws => !ws.head?.any (·.onNewLine)) done : Rule n) :=
    yields_whileAt_done fun _ _ _ => True.intro
  exact ((hline.behind heads_atWord fun _ _ _ => rfl).ifAt (yields_fault _)).node le_rfl

theorem yields_branch (stop : List Kind) :
    Yields atBranch (Parts.node .ifConfigClause) (branch inside stop) := by
  have helse : Yields (at? .poundElse) (Kind.parts .ifConfigClause)
      (after (inside (branchEnds ++ stop))) :=
    ((hin _).after (heads_at? _)).mono le_self_add
  have hcondition : Yields (fun ws => atBranch ws && !at? .poundElse ws)
      (Kind.parts .ifConfigClause) (after (condition >> inside (branchEnds ++ stop))) := by
    refine ((yields_condition.seq (hin _)).after
      ((heads_atAny [.poundIf, .poundElseif]).of_imp fun ws h => ?_)).mono le_add_self
    cases ws with
    | nil => cases h
    | cons w r =>
      simp only [atBranch, atAny, at?, kind?] at h ⊢
      grind
  exact (helse.ifAt_else hcondition).node le_rfl

theorem yields_conditionalBlock (stop : List Kind) :
    Yields (at? .poundIf) (Kind.fromKeyword .ifConfigDecl) (conditionalBlock inside stop) := by
  refine (((yields_branch hin stop).many_at _).seq (yields_expect _ _)).of_imp fun ws h => ?_
  have hkind : kind? ws = some .poundIf := by simpa [at?] using h
  simp [atBranch, atAny, hkind]

/-- The keyword of a declaration starts the parts of its kind; without one there is a fault. -/
theorem yields_form (stop : List Kind) {ws : List Word} (h : ws.length < n + 1) :
    ((form inside stop ws).2 ws h).Yields (Kind.fromKeyword (form inside stop ws).1) := by
  have hat {k : Kind} (hk : kind? ws = some k) : at? k ws = true := by simp [at?, hk]
  unfold form
  split
  case h_1 hk => exact yields_nominal hin (heads_at? .kwClass) ws h (hat hk)
  case h_2 hk => exact yields_nominal hin (heads_at? .kwStruct) ws h (hat hk)
  case h_3 hk => exact yields_nominal hin (heads_at? .kwEnum) ws h (hat hk)
  case h_4 hk => exact yields_nominal hin (heads_at? .kwProtocol) ws h (hat hk)
  case h_5 hk => exact yields_extensionDeclaration hin ws h (hat hk)
  case h_6 hk => exact yields_function hin ws h (hat hk)
  case h_7 hk => exact yields_initializerDeclaration hin ws h (hat hk)
  case h_8 hk => exact yields_deinitializer hin ws h (hat hk)
  case h_9 hk => exact yields_subscript hin ws h (hat hk)
  case h_10 hk => exact yields_bindings hin ws h (by simp [atAny, hk])
  case h_11 hk => exact yields_bindings hin ws h (by simp [atAny, hk])
  case h_12 hk => exact yields_typeAlias ws h (hat hk)
  case h_13 hk => exact yields_associatedType ws h (hat hk)
  case h_14 hk => exact yields_importDeclaration ws h (hat hk)
  case h_15 hk => exact yields_operatorDeclaration ws h (hat hk)
  case h_16 hk => exact yields_precedenceGroup ws h (hat hk)
  case h_17 hk => exact yields_enumCases ws h (hat hk)
  case h_18 hk => exact yields_conditionalBlock hin stop ws h (hat hk)
  case h_19 =>
    split
    · next hactor => exact yields_nominal hin (heads_atName ["actor"]) ws h hactor
    · exact yields_fault_seq (c := anywhere) _ _ ws h rfl

omit hin in
/-- Where no declaration stands a fault says so. -/
theorem isDeclaration_of_cleanAll_form (stop : List Kind) {ws : List Word} (h : ws.length < n + 1)
    (hc : Sketch.CleanAll ((form inside stop ws).2 ws h).sketches) :
    (form inside stop ws).1.isDeclaration = true := by
  by_cases hdeclared : declared ws = .error
  · rw [form_of_declared_eq_error stop hdeclared] at hc
    exact hc.1.elim
  · rw [fst_form]
    unfold declared form at hdeclared ⊢
    split
    case h_19 =>
      split
      · rfl
      · simp_all
    all_goals rfl

/-- A declaration is attributes and modifiers, then what its keyword starts. -/
theorem yields_declaration (stop : List Kind) :
    Yields anywhere (nodeOf Kind.declarations) (declaration inside stop) := fun ws h _ hc => by
  have hlead := yields_attributesAndModifiers ws h rfl
  have hrest := (attributesAndModifiers ws h).length_rest_lt h
  have hk := isDeclaration_of_cleanAll_form stop hrest
    (Sketch.cleanAll_append.1 hc.1).2
  have hparts := (hlead.append (yields_form hin stop hrest)).node
    (k := (form inside stop (attributesAndModifiers ws h).rest).1) (by
      rw [Kind.parts_of_isDeclaration hk, mul_assoc]
      exact le_rfl)
  exact (hparts hc).mono (Parts.nodeOf_mono (List.cons_subset.2
    ⟨Kind.mem_declarations hk, List.nil_subset _⟩))

theorem yields_item (stop : List Kind) :
    Yields (atOther stop) (nodeOf (Kind.declarations ++ [.statement]) + word .semicolon)
      (item inside stop) := by
  have hsemicolon : Yields (at? .semicolon) (word .semicolon) (bump : Rule (n + 1)) :=
    yields_bump (heads_at? _)
  have hdeclaration : Yields atDeclaration (nodeOf (Kind.declarations ++ [.statement]))
      (declaration inside stop) :=
    (yields_declaration hin stop).of_anywhere.mono
      (Parts.nodeOf_mono (List.subset_append_left _ _))
  have hstatement : Yields (atOther stop) (nodeOf (Kind.declarations ++ [.statement]))
      (statement stop : Rule (n + 1)) :=
    (yields_statement stop).mono (Parts.nodeOf_mono (List.subset_append_right _ _))
  exact (hsemicolon.mono le_add_self).ifAt ((hdeclaration.ifAt hstatement).mono le_self_add)

end

/-! ## scopes -/

theorem yields_itemsFrom (stop : List Kind) (ws : List Word) :
    (itemsFrom stop ws).Yields scope := by
  induction hlen : ws.length using Nat.strongRecOn generalizing stop ws with
  | ind m ih =>
    subst hlen
    rw [itemsFrom]
    split
    · next hc =>
      have hitem := yields_item (fun stop' r hr _ => ih r.length hr stop' r rfl) stop ws
        (Nat.lt_succ_self _) hc
      have hlt := advances_item (fun stop' r (_ : r.length < ws.length) => itemsFrom stop' r) stop
        ws (Nat.lt_succ_self _) hc
      exact (hitem.append (ih _ hlt stop _ rfl)).mono mul_kstar_le_kstar
    · exact Parsed.yields_done.mono one_le_kstar

end Grammar

/-! ## trees -/

namespace Sketch

mutual

theorem regular_trees {s : Sketch} (h : s.Regular) : Tree.RegularAll s.trees := by
  cases s with
  | node k ps => exact ⟨⟨h.2.1, regular_treesOfAll h.2.2⟩, True.intro⟩
  | word w => exact ⟨True.intro, True.intro⟩
  | fault f => exact True.intro
  | gap => exact True.intro

theorem regular_treesOfAll {ss : List Sketch} (h : RegularAll ss) :
    Tree.RegularAll (treesOfAll ss) := by
  cases ss with
  | nil => exact True.intro
  | cons s ss => exact Tree.regularAll_append (regular_trees h.1) (regular_treesOfAll h.2)

end

end Sketch

/-! ## source files -/

/-- The sketch of a source file without faults is regular. -/
theorem yields_fileSketch {source : String} (h : (parse source).faults = []) :
    Sketch.Yields scope (fileSketch source) :=
  Grammar.yields_itemsFrom [] _ (cleanAll_fileSketch h)

/-- In a source file without faults, every node has the parts of its kind: trivia left out, its
children are a row that the kind allows. -/
theorem Site.parts_mem_of_mem_all {source : String} (hclean : (parse source).faults = []) {s : Site}
    (h : s ∈ all (parse source).tree) : s.node.tree.parts ∈ s.node.kind.parts := by
  have hsketch := yields_fileSketch hclean
  have hroot : (parse source).tree.bare.Regular := by
    rw [bare_parse]
    exact ⟨hsketch.parts, Sketch.regular_treesOfAll hsketch.regular⟩
  obtain ⟨hnode, hregular⟩ := of_mem_nodesIn (P := fun t => t.bare.Regular)
    (fun _ _ ht _ hc => Tree.Regular.of_mem ht hc) hroot h
  obtain ⟨⟨t, start⟩, above⟩ := s
  cases t with
  | token k x => cases hnode
  | node k cs =>
    have hparts := hregular.1
    rwa [Tree.map_part_bareAll] at hparts

/-- A protocol with a requirement and a default argument is read without faults, so the theorem
applies to its nodes. -/
theorem Site.parts_mem_of_protocol :
    (parse "@a public protocol P: Q { func f(x: Int = 1) throws -> T? }").faults = [] ∧
      ∀ s ∈ all (parse "@a public protocol P: Q { func f(x: Int = 1) throws -> T? }").tree,
        s.node.tree.parts ∈ s.node.kind.parts := by
  have hclean : (parse "@a public protocol P: Q { func f(x: Int = 1) throws -> T? }").faults =
      [] := by decide +kernel
  exact ⟨hclean, fun _ h => parts_mem_of_mem_all hclean h⟩

end SwiftOutline

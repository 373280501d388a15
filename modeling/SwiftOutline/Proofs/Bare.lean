import SwiftOutline.Declaration.Reading
import SwiftOutline.Proofs.Layout

/-!
# SwiftOutline.Proofs.Bare

What is read off a tree does not depend on its trivia: every reading of a tree is one of the
tree without trivia.

* `Tree.SeesNoTrivia` — a test on trees that holds of no trivia and of a tree as of its bare
  form; what is looked up below a node with such a test is the same (`find?_bareAll`,
  `filter_bareAll`, `any_bareAll`);
* `allWords_bare`, `normalizedText_bare` — the words of a tree, and the text made of them;
* `TypeShape.ofTree_bare` and its like — attributes, modifiers, generics, effects, parameters,
  accessors and types.

Only expressions are kept as they are written. `outline` drops their texts, and for the rest
`Detail.ofNode_bare` holds.
-/

namespace SwiftOutline

namespace Tree

/-! ## looking things up -/

/-- A test that holds of no trivia, and of a tree as of the tree without trivia. -/
structure SeesNoTrivia (p : Tree → Bool) : Prop where
  bare : ∀ t, p (bare t) = p t
  trivia : ∀ t, t.isTrivia = true → p t = false

@[simp] theorem kind_bare (t : Tree) : t.bare.kind = t.kind := by cases t <;> rfl

@[simp] theorem isNode_bare (t : Tree) : t.bare.isNode = t.isNode := by cases t <;> rfl

@[simp] theorem ownText_bare (t : Tree) : t.bare.ownText = t.ownText := by cases t <;> rfl

theorem children_bare (t : Tree) : t.bare.children = bareAll t.children := by cases t <;> rfl

theorem bareAll_cons_of_isTrivia {t : Tree} (ts : List Tree) (h : t.isTrivia = true) :
    bareAll (t :: ts) = bareAll ts := by rw [bareAll, if_pos h]

theorem bareAll_cons_of_not {t : Tree} (ts : List Tree) (h : ¬t.isTrivia = true) :
    bareAll (t :: ts) = bare t :: bareAll ts := by rw [bareAll, if_neg h]

@[simp] theorem bareAll_cons_node (k : Kind) (cs ts : List Tree) :
    bareAll (node k cs :: ts) = node k (bareAll cs) :: bareAll ts := rfl

/-- What passes over tokens passes over those that are no trivia too. -/
theorem apply_bareAll_cons_token {α : Type} {f : List Tree → α}
    (hf : ∀ k s ts, f (token k s :: ts) = f ts) (k : Kind) (s : String) (ts : List Tree) :
    f (bareAll (token k s :: ts)) = f (bareAll ts) := by
  by_cases h : (token k s).isTrivia = true
  · rw [bareAll_cons_of_isTrivia ts h]
  · rw [bareAll_cons_of_not ts h, bare, hf]

theorem seesNoTrivia_isNodeOf (k : Kind) : SeesNoTrivia (isNodeOf k) where
  bare t := by simp [isNodeOf]
  trivia t h := by
    have hnode : t.isNode = false := by simp_all [isTrivia]
    simp [isNodeOf, hnode]

theorem SeesNoTrivia.or {p q : Tree → Bool} (hp : SeesNoTrivia p) (hq : SeesNoTrivia q) :
    SeesNoTrivia fun t => p t || q t where
  bare t := by rw [hp.bare, hq.bare]
  trivia t h := by rw [hp.trivia t h, hq.trivia t h, Bool.or_false]

theorem seesNoTrivia_isType : SeesNoTrivia isType where
  bare t := by simp [isType]
  trivia t h := by
    have hnode : t.isNode = false := by simp_all [isTrivia]
    simp [isType, hnode]

theorem seesNoTrivia_isWord : SeesNoTrivia isWord where
  bare t := by simp [isWord]
  trivia t h := by simp_all [isTrivia, isWord]

theorem seesNoTrivia_isTokenOf {k : Kind} (hk : k.isTrivia = false) :
    SeesNoTrivia (isTokenOf k) where
  bare t := by simp [isTokenOf]
  trivia t h := by
    have hne : t.kind ≠ k := by
      rintro rfl
      simp_all [isTrivia]
    simp [isTokenOf, hne]

section

variable {p : Tree → Bool} (hp : SeesNoTrivia p) (ts : List Tree)

include hp

theorem filter_bareAll : (bareAll ts).filter p = (ts.filter p).map bare := by
  induction ts with
  | nil => rfl
  | cons t ts ih =>
    by_cases h : t.isTrivia = true
    · rw [bareAll_cons_of_isTrivia ts h, ih, List.filter_cons_of_neg (by simp [hp.trivia t h])]
    · rw [bareAll_cons_of_not ts h, List.filter_cons, List.filter_cons, hp.bare, ih]
      split <;> rfl

theorem find?_bareAll : (bareAll ts).find? p = (ts.find? p).map bare := by
  rw [← List.head?_filter, ← List.head?_filter, filter_bareAll hp, List.head?_map]

theorem any_bareAll : (bareAll ts).any p = ts.any p := by
  induction ts with
  | nil => rfl
  | cons t ts ih =>
    by_cases h : t.isTrivia = true
    · rw [bareAll_cons_of_isTrivia ts h, ih, List.any_cons, hp.trivia t h, Bool.false_or]
    · rw [bareAll_cons_of_not ts h, List.any_cons, List.any_cons, hp.bare, ih]

end

@[simp] theorem childOf?_bare (k : Kind) (t : Tree) :
    t.bare.childOf? k = (t.childOf? k).map bare := by
  rw [childOf?, children_bare, find?_bareAll (seesNoTrivia_isNodeOf k), childOf?]

@[simp] theorem childrenOf_bare (k : Kind) (t : Tree) :
    t.bare.childrenOf k = (t.childrenOf k).map bare := by
  rw [childrenOf, children_bare, filter_bareAll (seesNoTrivia_isNodeOf k), childrenOf]

@[simp] theorem type?_bare (t : Tree) : t.bare.type? = t.type?.map bare := by
  rw [type?, children_bare, find?_bareAll seesNoTrivia_isType, type?]

@[simp] theorem typeChildren_bare (t : Tree) :
    t.bare.typeChildren = t.typeChildren.map bare := by
  rw [typeChildren, children_bare, filter_bareAll seesNoTrivia_isType, typeChildren]

theorem hasToken_bare {k : Kind} (hk : k.isTrivia = false) (t : Tree) :
    t.bare.hasToken k = t.hasToken k := by
  rw [hasToken, children_bare, any_bareAll (seesNoTrivia_isTokenOf hk), hasToken]

@[simp] theorem words_bare (t : Tree) : t.bare.words = t.words := by
  rw [words, children_bare, filter_bareAll seesNoTrivia_isWord, List.map_map, words]
  refine List.map_congr_left fun c _ => ?_
  simp

@[simp] theorem keyword?_bare (t : Tree) : t.bare.keyword? = t.keyword? := by
  rw [keyword?, words_bare, keyword?]

@[simp] theorem keyword_bare (t : Tree) : t.bare.keyword = t.keyword := by
  rw [keyword, keyword?_bare, keyword]

/-! ## texts -/

mutual

theorem tokens_bare (t : Tree) (h : ¬t.isTrivia = true) : t.bare.tokens = t.allWords := by
  cases t with
  | node k cs => exact tokensOfAll_bareAll cs
  | token k s =>
    have hk : k.isTrivia = false := by simpa [isTrivia, isNode, kind] using h
    simp [bare, allWords, tokens, Lexeme.isTrivia, hk]

/-- The tokens of trees without trivia are their words. -/
theorem tokensOfAll_bareAll (ts : List Tree) :
    tokensOfAll (bareAll ts) = (tokensOfAll ts).filter (!·.isTrivia) := by
  cases ts with
  | nil => rfl
  | cons t ts =>
    have hts := tokensOfAll_bareAll ts
    by_cases h : t.isTrivia = true
    · have hnone : t.tokens.filter (!·.isTrivia) = [] := by
        cases t with
        | node k cs => simp [isTrivia, isNode] at h
        | token k s =>
          have hk : k.isTrivia = true := h
          simp [tokens, Lexeme.isTrivia, hk]
      rw [bareAll_cons_of_isTrivia ts h, hts, tokensOfAll, List.filter_append, hnone,
        List.nil_append]
    · rw [bareAll_cons_of_not ts h, tokensOfAll, tokensOfAll, List.filter_append, tokens_bare t h,
        hts, allWords]

end

@[simp] theorem allWords_bare (t : Tree) : t.bare.allWords = t.allWords := by
  cases t with
  | node k cs =>
    rw [bare, allWords, allWords, tokens, tokens, tokensOfAll_bareAll, List.filter_filter]
    simp
  | token k s => rfl

@[simp] theorem normalizedText_bare (t : Tree) : t.bare.normalizedText = t.normalizedText := by
  rw [normalizedText, allWords_bare, normalizedText]

@[simp] theorem declaredName?_bare (t : Tree) : t.bare.declaredName? = t.declaredName? := by
  simp only [declaredName?, childOf?_bare, Option.bind_map, Function.comp_def,
    normalizedText_bare]

@[simp] theorem declaredName_bare (t : Tree) : t.bare.declaredName = t.declaredName := by
  rw [declaredName, declaredName?_bare, declaredName]

end Tree

open SwiftOutline.Tree

/-! ## attributes, modifiers, generics, effects, accessors -/

@[simp] theorem AttributeArgument.ofNode_bare (t : Tree) : ofNode t.bare = ofNode t := by
  simp only [ofNode, normalizedText_bare, words_bare]

@[simp] theorem Attribute.ofNode_bare (t : Tree) : ofNode t.bare = ofNode t := by
  simp only [ofNode, childOf?_bare, Option.map_map, Function.comp_def, normalizedText_bare]
  cases t.childOf? .attributeArguments with
  | none => rfl
  | some arguments => simp [Function.comp_def]

@[simp] theorem Attribute.ofDeclaration_bare (t : Tree) :
    ofDeclaration t.bare = ofDeclaration t := by
  rw [ofDeclaration, ofDeclaration, childOf?_bare]
  cases t.childOf? .attributeList with
  | none => rfl
  | some list => simp [Function.comp_def]

@[simp] theorem Modifier.ofNode_bare (t : Tree) : ofNode t.bare = ofNode t := by
  simp only [ofNode, keyword_bare, childOf?_bare, Option.map_map, Function.comp_def,
    normalizedText_bare]

@[simp] theorem Modifiers.ofDeclaration_bare (t : Tree) :
    ofDeclaration t.bare = ofDeclaration t := by
  rw [ofDeclaration, ofDeclaration, written, written, childOf?_bare]
  cases t.childOf? .modifierList with
  | none => rfl
  | some list => simp [Function.comp_def]

@[simp] theorem GenericParameter.ofNode_bare (t : Tree) : ofNode t.bare = ofNode t := by
  simp only [ofNode, declaredName_bare, type?_bare, words_bare, Option.map_map,
    Function.comp_def, normalizedText_bare]

@[simp] theorem GenericParameter.ofDeclaration_bare (t : Tree) :
    ofDeclaration t.bare = ofDeclaration t := by
  rw [ofDeclaration, ofDeclaration, childOf?_bare]
  cases t.childOf? .genericParameterClause with
  | none => rfl
  | some clause => simp [Function.comp_def]

@[simp] theorem GenericRequirement.ofNode_bare (t : Tree) : ofNode t.bare = ofNode t := by
  have htypes : t.bare.typeChildren.map normalizedText = t.typeChildren.map normalizedText := by
    simp [Function.comp_def]
  simp only [ofNode, htypes, hasToken_bare (k := .colon) rfl]

@[simp] theorem GenericRequirement.ofDeclaration_bare (t : Tree) :
    ofDeclaration t.bare = ofDeclaration t := by
  rw [ofDeclaration, ofDeclaration, childOf?_bare]
  cases t.childOf? .genericWhereClause with
  | none => rfl
  | some clause => simp [Function.comp_def]

@[simp] theorem inheritedTypes_bare (t : Tree) : inheritedTypes t.bare = inheritedTypes t := by
  rw [inheritedTypes, inheritedTypes, childOf?_bare]
  cases t.childOf? .inheritanceClause with
  | none => rfl
  | some clause => simp [Function.comp_def]

@[simp] theorem Effects.ofParent_bare (t : Tree) : ofParent t.bare = ofParent t := by
  rw [ofParent, ofParent, childOf?_bare]
  cases t.childOf? .effectSpecifiers with
  | none => rfl
  | some clause => simp only [Option.map_some, ofClause, words_bare]

@[simp] theorem Accessor.ofNode?_bare (t : Tree) : ofNode? t.bare = ofNode? t := by
  simp only [ofNode?, keyword?_bare, Attribute.ofDeclaration_bare, Modifiers.ofDeclaration_bare,
    Effects.ofParent_bare, childOf?_bare, Option.bind_map, Function.comp_def, words_bare,
    Option.isSome_map]

@[simp] theorem Accessor.ofOwner_bare (t : Tree) : ofOwner t.bare = ofOwner t := by
  rw [ofOwner, ofOwner, childOf?_bare]
  cases t.childOf? .accessorBlock with
  | none => rfl
  | some block =>
    simp only [Option.map_some, childrenOf_bare]
    cases block.childrenOf .accessorDecl with
    | nil => rfl
    | cons u us =>
      show ((u :: us).map bare).filterMap ofNode? = (u :: us).filterMap ofNode?
      rw [List.filterMap_map]
      exact congrArg (List.filterMap · (u :: us)) (funext ofNode?_bare)

/-! ## types -/

namespace TypeShape

theorem isEscaping_bare (t : Tree) : isEscaping t.bare = isEscaping t := by
  have hname : SeesNoTrivia fun a => (a.childOf? .name).any (·.normalizedText == "escaping") := by
    constructor
    · intro a
      simp [Option.any_map]
    · intro a h
      cases a with
      | node k cs => cases h
      | token k s => rfl
  rw [isEscaping, isEscaping, childrenOf_bare]
  induction t.childrenOf .attributeList with
  | nil => rfl
  | cons l ls ih =>
    rw [List.map_cons, List.flatMap_cons, List.flatMap_cons, List.any_append, List.any_append,
      ih, children_bare, any_bareAll hname]

mutual

/-- The shape of a type does not depend on trivia. -/
@[simp] theorem ofTree_bare (t : Tree) : ofTree t.bare = ofTree t := by
  cases t with
  | token k s => rfl
  | node k cs =>
    have htypes := typesIn_bareAll cs
    have hsegments := segmentsIn_bareAll cs
    have helements := elementsIn_bareAll cs
    have hinputs := inputsIn_bareAll cs
    have htext : (Tree.node k (bareAll cs)).normalizedText = (Tree.node k cs).normalizedText :=
      normalizedText_bare (.node k cs)
    have heffects : Effects.ofParent (.node k (bareAll cs)) = Effects.ofParent (.node k cs) :=
      Effects.ofParent_bare (.node k cs)
    have hescaping : isEscaping (.node k (bareAll cs)) = isEscaping (.node k cs) :=
      isEscaping_bare (.node k cs)
    rw [bare, ofTree.eq_def, ofTree.eq_def (.node k cs)]
    simp only [htypes, hsegments, helements, hinputs, htext, heffects, hescaping]

theorem typesIn_bareAll (ts : List Tree) : typesIn (bareAll ts) = typesIn ts := by
  cases ts with
  | nil => rfl
  | cons t ts =>
    have hts := typesIn_bareAll ts
    by_cases h : t.isTrivia = true
    · rw [bareAll_cons_of_isTrivia ts h, hts, typesIn, seesNoTrivia_isType.trivia t h]
      rfl
    · rw [bareAll_cons_of_not ts h, typesIn, typesIn, seesNoTrivia_isType.bare, ofTree_bare t,
        hts]

theorem segmentsIn_bareAll (ts : List Tree) : segmentsIn (bareAll ts) = segmentsIn ts := by
  cases ts with
  | nil => rfl
  | cons t ts =>
    have hts := segmentsIn_bareAll ts
    cases t with
    | token k s =>
      have htoken : ∀ k s ts, segmentsIn (token k s :: ts) = segmentsIn ts := by simp [segmentsIn]
      rw [apply_bareAll_cons_token htoken, hts, htoken]
    | node k cs =>
      rw [bareAll_cons_node]
      by_cases hk : k = .typePathSegment
      · have harguments := argumentsIn_bareAll cs
        have hkeyword := keyword_bare (.node k cs)
        subst hk
        rw [bare] at hkeyword
        rw [segmentsIn, segmentsIn, hkeyword, harguments, hts]
      · simp [segmentsIn, hk, hts]

theorem argumentsIn_bareAll (ts : List Tree) : argumentsIn (bareAll ts) = argumentsIn ts := by
  cases ts with
  | nil => rfl
  | cons t ts =>
    have hts := argumentsIn_bareAll ts
    cases t with
    | token k s =>
      have htoken : ∀ k s ts, argumentsIn (token k s :: ts) = argumentsIn ts := by
        simp [argumentsIn]
      rw [apply_bareAll_cons_token htoken, hts, htoken]
    | node k cs =>
      rw [bareAll_cons_node]
      by_cases hk : k = .genericArgumentClause
      · have htypes := typesIn_bareAll cs
        subst hk
        rw [argumentsIn, argumentsIn, htypes]
      · simp [argumentsIn, hk, hts]

theorem elementsIn_bareAll (ts : List Tree) : elementsIn (bareAll ts) = elementsIn ts := by
  cases ts with
  | nil => rfl
  | cons t ts =>
    have hts := elementsIn_bareAll ts
    cases t with
    | token k s =>
      have htoken : ∀ k s ts, elementsIn (token k s :: ts) = elementsIn ts := by simp [elementsIn]
      rw [apply_bareAll_cons_token htoken, hts, htoken]
    | node k cs =>
      rw [bareAll_cons_node]
      by_cases hk : k = .typeTupleElement
      · have htypes := typesIn_bareAll cs
        have hcolon := hasToken_bare (k := .colon) rfl (.node k cs)
        have hellipsis := hasToken_bare (k := .ellipsis) rfl (.node k cs)
        subst hk
        rw [bare] at hcolon hellipsis
        rw [elementsIn, elementsIn, htypes, hcolon, hellipsis, hts]
      · simp [elementsIn, hk, hts]

theorem inputsIn_bareAll (ts : List Tree) : inputsIn (bareAll ts) = inputsIn ts := by
  cases ts with
  | nil => rfl
  | cons t ts =>
    have hts := inputsIn_bareAll ts
    cases t with
    | token k s =>
      have htoken : ∀ k s ts, inputsIn (token k s :: ts) = inputsIn ts := by simp [inputsIn]
      rw [apply_bareAll_cons_token htoken, hts, htoken]
    | node k cs =>
      rw [bareAll_cons_node]
      by_cases hk : k = .typeTuple
      · have helements := elementsIn_bareAll cs
        subst hk
        rw [inputsIn, inputsIn, helements]
      · simp [inputsIn, hk, hts]

end

end TypeShape

/-! ## parameters and details -/

@[simp] theorem TypeShape.ofWrapper_bare (t : Tree) : ofWrapper t.bare = ofWrapper t := by
  simp only [ofWrapper, type?_bare, Option.map_map, Function.comp_def, ofTree_bare]

@[simp] theorem Tree.result?_bare (t : Tree) : t.bare.result? = t.result? := by
  simp only [result?, childOf?_bare, Option.map_map, Function.comp_def,
    TypeShape.ofWrapper_bare]

/-- Whether there is an initializer does not depend on trivia, though its text does. -/
theorem Tree.map_initializer?_bare (t : Tree) (f : Unit → String) :
    t.bare.initializer?.map (fun _ => f ()) = t.initializer?.map fun _ => f () := by
  simp only [initializer?, childOf?_bare]
  cases t.childOf? .initializer with
  | none => rfl
  | some i =>
    simp only [Option.map_some, Option.bind_some, childOf?_bare, Option.map_map]
    rfl

namespace Parameter

/-- A parameter without the text of its default value. -/
def outline (p : Parameter) : Parameter := { p with default := p.default.map fun _ => "" }

@[simp] theorem outline_outline (p : Parameter) : p.outline.outline = p.outline := by
  simp only [outline, Option.map_map]
  rfl

theorem typeOf?_bare (t : Tree) : typeOf? t.bare = (typeOf? t).map Tree.bare := by
  simp only [typeOf?, childOf?_bare, type?_bare, Option.bind_map, Function.comp_def]
  cases t.childOf? .annotatedType with
  | none => rfl
  | some a =>
    simp only [Option.bind_some]
    cases a.type? <;> rfl

theorem outline_ofNode_bare (t : Tree) : (ofNode t.bare).outline = (ofNode t).outline := by
  have hinout (u : Tree) : u.bare.hasToken .kwInout = u.hasToken .kwInout := hasToken_bare rfl u
  have hellipsis : t.bare.hasToken .ellipsis = t.hasToken .ellipsis := hasToken_bare rfl t
  have hdefault := t.map_initializer?_bare fun _ => ""
  simp only [outline, ofNode, Attribute.ofDeclaration_bare, words_bare, typeOf?_bare, hellipsis,
    hdefault, Option.map_map, Option.any_map, Function.comp_def, TypeShape.ofTree_bare,
    kind_bare, hinout]

theorem outline_ofClause_bare (t : Tree) :
    (ofClause t.bare).map outline = (ofClause t).map outline := by
  have hparameter := (seesNoTrivia_isNodeOf .functionParameter).or
    (seesNoTrivia_isNodeOf .enumCaseParameter)
  rw [ofClause, ofClause, children_bare, filter_bareAll hparameter, List.map_map, List.map_map,
    List.map_map]
  refine List.map_congr_left fun c _ => ?_
  exact outline_ofNode_bare c

theorem outline_below_bare (k : Kind) (t : Tree) :
    (below k t.bare).map outline = (below k t).map outline := by
  rw [below, below, childOf?_bare]
  cases t.childOf? k with
  | none => rfl
  | some c => exact outline_ofClause_bare c

end Parameter

namespace Signature

/-- A signature without the texts of default values. -/
def outline (s : Signature) : Signature := { s with input := s.input.map Parameter.outline }

theorem outline_ofDeclaration_bare (t : Tree) :
    (ofDeclaration t.bare).outline = (ofDeclaration t).outline := by
  rw [ofDeclaration, ofDeclaration, childOf?_bare]
  cases t.childOf? .functionSignature with
  | none => rfl
  | some c =>
    simp only [Option.map_some, Option.getD_some, outline, ofNode, Effects.ofParent_bare,
      Tree.result?_bare, Parameter.outline_below_bare]

end Signature

/-- A binding without its place and the text of its initial value. -/
def Binding.outline (b : Binding) : Binding :=
  { b with range := ⟨0, 0⟩, initialValue := b.initialValue.map fun _ => "" }

theorem Precedence.step_bare (p : Precedence) (t : Tree) : step p t.bare = step p t := by
  rw [step, step, words_bare]

@[simp] theorem Precedence.ofDeclaration_bare (t : Tree) :
    ofDeclaration t.bare = ofDeclaration t := by
  rw [ofDeclaration, ofDeclaration, childrenOf_bare, List.foldl_map]
  simp only [step_bare]

namespace Detail

/-- What is known by the kind of a declaration, without places and texts of expressions. -/
def outline : Detail → Detail
  | .function s hasBody => .function s.outline hasBody
  | .initializer s isFailable => .initializer s.outline isFailable
  | .subscript indices result accessors =>
    .subscript (indices.map Parameter.outline) result accessors
  | .variable b => .variable b.outline
  | .enumCase _ values rawValue =>
    .enumCase ⟨0, 0⟩ (values.map Parameter.outline) (rawValue.map fun _ => "")
  | d => d

@[simp] theorem outline_outline (d : Detail) : d.outline.outline = d.outline := by
  cases d <;>
    simp [outline, Signature.outline, Binding.outline, Function.comp_def]

@[simp] theorem initializedShape?_bare (t : Tree) :
    initializedShape? t.bare = initializedShape? t := by
  simp only [initializedShape?, childOf?_bare, Option.map_map, Function.comp_def,
    TypeShape.ofWrapper_bare]

@[simp] theorem precedenceGroup?_bare (t : Tree) :
    precedenceGroup? t.bare = precedenceGroup? t := by
  simp only [precedenceGroup?, childOf?_bare, Option.bind_map, Function.comp_def, words_bare]

theorem outline_ofNode_bare (k : DeclarationKind) (t : Tree) :
    (ofNode k t.bare).outline = (ofNode k t).outline := by
  have hquestion := hasToken_bare (k := .question) rfl t
  have hbang := hasToken_bare (k := .bang) rfl t
  cases k <;>
    simp only [ofNode, outline, initializedShape?_bare, precedenceGroup?_bare,
      TypeShape.ofWrapper_bare, Signature.outline_ofDeclaration_bare, childOf?_bare,
      Option.isSome_map, hquestion, hbang, Parameter.outline_below_bare, Tree.result?_bare,
      Accessor.ofOwner_bare, words_bare, Precedence.ofDeclaration_bare]

end Detail

/-! ## facts -/

namespace Facts

/-- Facts with another position, without ranges and texts of expressions. -/
def moved (g : Nat → Nat) (f : Facts) : Facts :=
  { f with position := g f.position, range := ⟨0, 0⟩, detail := f.detail.outline }

/-- Whether a variable may be assigned is known without places and texts. -/
theorem hasSetter_moved (g : Nat → Nat) (f : Facts) (b : Binding) :
    (f.moved g).hasSetter b.outline = f.hasSetter b := rfl

theorem moved_moved (f g : Nat → Nat) (x : Facts) : (x.moved g).moved f = x.moved (f ∘ g) := by
  simp only [moved, Detail.outline_outline]
  rfl

@[simp] theorem condition?_bare (t : Tree) : condition? t.bare = condition? t := by
  simp only [condition?, childOf?_bare, Option.map_map, Function.comp_def, normalizedText_bare]

@[simp] theorem nameOf_bare (k : DeclarationKind) (t : Tree) : nameOf k t.bare = nameOf k t := by
  cases k <;>
    simp only [nameOf, childOf?_bare, type?_bare, Option.bind_map, Option.map_map,
      Function.comp_def, condition?_bare, normalizedText_bare, declaredName_bare]

@[simp] theorem keywordOf_bare (k : DeclarationKind) (t : Tree) :
    keywordOf k t.bare = keywordOf k t := by
  rw [keywordOf, keywordOf, keyword_bare]

variable {g : Nat → Nat}

/-- What is known of a declaration does not depend on trivia, but for its place and the texts
of expressions. -/
theorem moved_ofNode_bare (owner : Option DeclarationKind) (k : DeclarationKind)
    {l b : Located} (htree : b.tree = l.tree.bare) (hstart : l.start = g b.start) :
    (ofNode owner k b).moved g = (ofNode owner k l).moved id := by
  simp only [moved, ofNode, htree, nameOf_bare, keywordOf_bare, Modifiers.ofDeclaration_bare,
    Attribute.ofDeclaration_bare, GenericParameter.ofDeclaration_bare,
    GenericRequirement.ofDeclaration_bare, inheritedTypes_bare, Detail.outline_ofNode_bare,
    hstart, id]

@[simp] theorem patternName_bare (t : Tree) : patternName t.bare = patternName t := by
  have hpattern := (seesNoTrivia_isNodeOf .identifierPattern).or
    (seesNoTrivia_isNodeOf .tuplePattern)
  simp only [patternName, children_bare, find?_bareAll hpattern, Option.map_map,
    Function.comp_def, normalizedText_bare]

@[simp] theorem bindingShape_bare (list binding : Tree) :
    bindingShape list.bare binding.bare = bindingShape list binding := by
  have hsibling : ((list.childrenOf .patternBinding).map Tree.bare).findSome?
        (Tree.childOf? .annotatedType) =
      ((list.childrenOf .patternBinding).findSome? (Tree.childOf? .annotatedType)).map
        Tree.bare := by
    induction list.childrenOf .patternBinding with
    | nil => rfl
    | cons c cs ih =>
      rw [List.map_cons, List.findSome?_cons, List.findSome?_cons, childOf?_bare, ih]
      cases c.childOf? .annotatedType <;> rfl
  simp only [bindingShape, childOf?_bare, childrenOf_bare, hsibling]
  cases binding.childOf? .annotatedType with
  | some c => exact TypeShape.ofWrapper_bare c
  | none =>
    cases (list.childrenOf .patternBinding).findSome? (Tree.childOf? .annotatedType) with
    | some c => exact TypeShape.ofWrapper_bare c
    | none => rfl

theorem moved_ofBinding_bare (owner : Option DeclarationKind) (list : Tree)
    {node node' binding binding' : Located} (hnode : node'.tree = node.tree.bare)
    (htree : binding'.tree = binding.tree.bare) (hstart : binding.start = g binding'.start) :
    (ofBinding owner node' list.bare binding').moved g =
      (ofBinding owner node list binding).moved id := by
  have hvalue := binding.tree.map_initializer?_bare fun _ => ""
  simp only [moved, ofBinding, ofNode, hnode, htree, Detail.outline, Binding.outline,
    keywordOf_bare, Modifiers.ofDeclaration_bare, Attribute.ofDeclaration_bare, bindingShape_bare,
    GenericParameter.ofDeclaration_bare, GenericRequirement.ofDeclaration_bare,
    inheritedTypes_bare, patternName_bare, Accessor.ofOwner_bare, hvalue, hstart, id]

theorem moved_ofElement_bare (owner : Option DeclarationKind)
    {node node' element element' : Located} (hnode : node'.tree = node.tree.bare)
    (htree : element'.tree = element.tree.bare) (hstart : element.start = g element'.start) :
    (ofElement owner node' element').moved g = (ofElement owner node element).moved id := by
  have hvalue := element.tree.map_initializer?_bare fun _ => ""
  simp only [moved, ofElement, ofNode, hnode, htree, Detail.outline, keywordOf_bare,
    declaredName_bare, Modifiers.ofDeclaration_bare, Attribute.ofDeclaration_bare,
    Parameter.outline_below_bare, GenericParameter.ofDeclaration_bare,
    GenericRequirement.ofDeclaration_bare, inheritedTypes_bare, hvalue, hstart, id]

end Facts

end SwiftOutline

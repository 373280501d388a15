import SwiftOutline.Proofs.Framed
import SwiftOutline.Proofs.Lookahead
import SwiftOutline.Proofs.Retold

/-!
# SwiftOutline.Proofs.Retelling

Attributes, effects and types without suffixes are read again from their words with the spaces of
normalized text.

* `joinedKinds` — the words that a type or an effect takes only where they are joined to it;
* `retells_attributeList`, `retells_effectSpecifiers` — what depends on such words: the arguments of
  attributes, whose place the spaces show, and the types that effects throw;
* `reads_primaryType` — names, brackets and parentheses, given the rule for the types inside.
-/

namespace SwiftOutline

namespace Grammar

open Rule
open Sketch (CleanAll cleanAll_append treesOfAll treesOfAll_append wordsOfAll wordsOfAll_append
  tokens_treesOfAll)

/-- The kinds of words that are taken only where they are joined to the word before them. -/
def joinedKinds : List Kind := [.question, .bang, .openParen]

variable {n m : Nat} {ks : List Kind} {us vs : List Word}

/-! ## attributes -/

theorem reads_groupFrom (depth : Nat) {ws : List Word} (h : (groupFrom depth ws).Told ks us vs) :
    (groupFrom depth (us ++ vs)).Reads (treesOfAll (groupFrom depth ws).sketches) vs := by
  induction ws generalizing depth us with
  | nil =>
    obtain ⟨rfl, rfl⟩ := h.eq_nil_of_nil
    exact ⟨True.intro, rfl, rfl⟩
  | cons w r ih =>
    unfold groupFrom at h
    unfold groupFrom
    cases hdepth : depthAfter depth w.kind with
    | zero =>
      simp only [hdepth] at h ⊢
      obtain ⟨v, us', rfl, hv, hrest⟩ := Parsed.Told.cons h
      obtain rfl := hrest.eq_nil_of_done
      simp only [List.cons_append, kind_congr hv, hdepth]
      have hreads := reads_bump v vs (Nat.lt_succ_self _)
      rwa [tree_congr hv] at hreads
    | succ d =>
      simp only [hdepth] at h ⊢
      obtain ⟨v, us', rfl, hv, hrest⟩ := Parsed.Told.cons h
      simp only [List.cons_append, kind_congr hv, hdepth]
      have hreads := (ih (d + 1) hrest).cons v
      rwa [tree_congr hv] at hreads

theorem retells_group : Retells ks (group : Rule n) (group : Rule m) :=
  fun _ _ _ _ htold _ => reads_groupFrom 0 htold

theorem retells_attributeArgument :
    Retells ks (attributeArgument : Rule n) (attributeArgument : Rule m) :=
  ((retells_group.ifAt retells_bump (reaches_atAny _) (firm_group.of_atWord rfl).takes).many _ _
    (reaches_atOther _) (fun _ _ _ => List.not_mem_nil) (List.nil_subset _)).node _

theorem takesItem_attributeArgument :
    TakesItem (atOther [.closeParen]) (attributeArgument : Rule n) := by
  intro ws h hat _
  cases hcomma : at? .comma ws with
  | true => exact .inl rfl
  | false =>
    have hargument : atOther [.comma, .closeParen] ws = true := by
      cases ws with
      | nil => cases hat
      | cons w r => simp_all [atOther, atWord, atAny, at?, kind?]
    exact .inr (advances_many _ ws h hargument)

theorem retells_attributeArguments :
    Retells ks (attributeArguments : Rule n) (attributeArguments : Rule m) :=
  (retells_bump.before ((retells_attributeArgument.commaList takesItem_attributeArgument
    (reaches_atOther _) List.not_mem_nil (List.nil_subset _)).before (retells_expect _ _))).node _

theorem retells_attributeName :
    Retells ks (attributeName : Rule n) (attributeName : Rule m) := by
  have hdotted : Retells ks (whileAt (atPair .dot .identifier) bump : Rule n)
      (whileAt (atPair .dot .identifier) bump : Rule m) := by
    have hname : Retells [] (bump : Rule n) (bump : Rule m) := retells_bump
    refine hname.whileAt (reaches_atPair _ _) (fun w r h hat _ => ?_)
      (fun _ _ _ => List.not_mem_nil) (List.nil_subset _)
    cases r with
    | nil => simp [atPair, at?, kind?] at hat
    | cons v r => exact Nat.le_refl _
  exact ((retells_bump.before hdotted).ifAt (retells_fault _ _) (reaches_one rfl fun _ _ => rfl)
    (firm_bump.seq (solid_bump.whileAt (d := anywhere) fun _ _ _ => rfl)).takes).node _

/-- Behind some words with even spaces a parenthesis is joined exactly if it needs no space. -/
theorem atJoinedParen_of_evenly {x : Word} (h : (us ++ vs).IsChain Word.Evenly)
    (hx : us.getLast? = some x) :
    atJoinedParen vs = (at? .openParen vs && !x.kind.needsSpace .openParen) := by
  cases vs with
  | nil => rfl
  | cons p r =>
    obtain ⟨-, -, heven⟩ := List.isChain_append.1 h
    have hjoined : p.joined = !x.kind.needsSpace p.kind := heven x hx p rfl
    simp only [atJoinedParen, at?, kind?, isJoined, List.head?_cons, Option.map_some,
      Option.any_some, hjoined]
    cases hp : (some p.kind == some Kind.openParen) with
    | false => rfl
    | true =>
      have hkind : p.kind = .openParen := by simpa using hp
      rw [hkind]

/-- An option is taken again where its condition is met again. -/
theorem Rule.Retells.reads_optional {p : Rule n} {q : Rule m} {c : List Word → Bool}
    (hp : Retells ks p q) {ws : List Word} {h : ws.length < n}
    (htold : (Rule.optional c p ws h).Told ks us vs) (hat : c (us ++ vs) = c ws) :
    Reads (Rule.optional c q) (us ++ vs) (treesOfAll (Rule.optional c p ws h).sketches) vs := by
  unfold Rule.optional Rule.ifAt at htold ⊢
  cases hc : c ws with
  | true =>
    simp only [hc, if_true] at htold ⊢
    exact (hp h htold).optional (hat.trans hc)
  | false =>
    simp only [hc, Bool.false_eq_true, if_false] at htold ⊢
    obtain rfl := htold.eq_nil_of_done
    exact reads_optional_not (hat.trans hc)

/-- The spaces show whether an attribute has arguments exactly if a parenthesis behind its name is
joined to it where it has some, and only there. -/
theorem argumentsShow_eq {us₁ us₂ : List Word} {sign : Tree} {name args : List Tree}
    (heven : (us₁ ++ (us₂ ++ vs)).IsChain Word.Evenly) (hne : us₁ ≠ [])
    (hname : us₁.map Word.lexeme = Tree.tokensOfAll name)
    (hargs : us₂.map Word.lexeme = Tree.tokensOfAll args) :
    Tree.argumentsShow (sign :: .node .name name :: args) (vs.map Word.lexeme) =
      (!at? .openParen (us₂ ++ vs) || atJoinedParen (us₂ ++ vs) == !args.isEmpty) := by
  obtain ⟨x, hx⟩ := List.getLast?_isSome.2 hne |> Option.isSome_iff_exists.1
  have hlast : (Tree.node .name name).tokens.getLast? = some x.lexeme := by
    rw [Tree.tokens, ← hname, List.getLast?_map, hx]
    rfl
  have hopens : (Tree.tokensOfAll args ++ vs.map Word.lexeme).head?.any (·.kind == .openParen) =
      at? .openParen (us₂ ++ vs) := by
    rw [← hargs, ← List.map_append]
    cases us₂ ++ vs <;> rfl
  rw [atJoinedParen_of_evenly heven hx, Tree.argumentsShow]
  simp only [hlast, hopens, Option.any_some]
  cases at? .openParen (us₂ ++ vs) <;> rfl

/-- An option behind a joined parenthesis is told again from an opening parenthesis on. -/
theorem at?_of_told_optional {p : Rule n} (hp : Takes 1 (at? .openParen) p) {ws : List Word}
    {h : ws.length < n} (htold : (Rule.optional atJoinedParen p ws h).Told ks us vs)
    (hws : atJoinedParen ws = true) : at? .openParen (us ++ vs) = true := by
  have hsame : Rule.optional atJoinedParen p ws h = p ws h := if_pos hws
  rw [hsame] at htold
  exact (hp.at_eq (reaches_at? _) htold).trans (Bool.and_eq_true_iff.1 hws).1

/-- Where the spaces show the arguments of an attribute, a parenthesis is joined to its name again
exactly if it was. -/
theorem atJoinedParen_arguments {ws : List Word} {h : ws.length < n}
    (htold : (Rule.optional atJoinedParen attributeArguments ws h : Parsed ws).Told ks us vs)
    (hshow : (!at? .openParen (us ++ vs) || atJoinedParen (us ++ vs) ==
      !(treesOfAll (Rule.optional atJoinedParen attributeArguments ws h).sketches).isEmpty) =
        true) :
    atJoinedParen (us ++ vs) = atJoinedParen ws := by
  have htakes : Takes 1 (at? .openParen) (attributeArguments : Rule n) :=
    firm_attributeArguments.of_anywhere.takes
  cases hws : atJoinedParen ws with
  | true =>
    have hopen := at?_of_told_optional htakes htold hws
    have hsame : Rule.optional atJoinedParen attributeArguments ws h = attributeArguments ws h :=
      if_pos hws
    have hsome : (treesOfAll (Rule.optional atJoinedParen attributeArguments ws h).sketches).isEmpty
        = false := by
      rw [hsame]
      rfl
    simpa [hopen, hsome] using hshow
  | false =>
    have hsame : Rule.optional atJoinedParen attributeArguments ws h = .done ws :=
      if_neg (by simp [hws])
    rw [hsame] at hshow
    cases hopen : at? .openParen (us ++ vs) with
    | true => simpa [hopen, Parsed.done, treesOfAll] using hshow
    | false => rw [atJoinedParen, hopen, Bool.false_and]

theorem retells_oneAttribute : Retells ks (oneAttribute : Rule n) (oneAttribute : Rule m) := by
  intro ws us vs h htold
  cases ws with
  | nil => exact htold.clean.1.2.1.1.elim
  | cons sign r =>
    have hr := Nat.lt_of_succ_lt h
    let name : Parsed r := attributeName r hr
    let args : Parsed name.rest :=
      Rule.optional atJoinedParen attributeArguments _ (name.length_rest_lt hr)
    have hshow : Tree.argumentsShow (sign.tree :: (treesOfAll name.sketches ++
        treesOfAll args.sketches)) (vs.map Word.lexeme) = true := by
      rw [← treesOfAll_append]
      exact (Tree.showsArgumentsAll_node.1 htold.shown).1 rfl
    have hinside : (Parsed.cons sign (name.append args)).Told ks us vs := htold.node
    obtain ⟨v, us', rfl, hv, hrest⟩ := hinside.cons
    obtain ⟨us₁, us₂, rfl, hname, hargs⟩ := hrest.split
    have hne : us₁ ≠ [] := by
      rintro rfl
      exact Parsed.wordsOfAll_ne_nil (firm_attributeName r hr rfl hname.clean).2
        (List.map_eq_nil_iff.1 hname.taken.symm)
    obtain ⟨parts, hparts⟩ : ∃ parts, name.sketches = [.node .name parts] := ⟨_, rfl⟩
    rw [hparts] at hshow
    have htokens : us₁.map Word.lexeme = Tree.tokensOfAll (treesOfAll parts) := by
      rw [hname.taken, hparts, tokens_treesOfAll]
      simp
    have hmore : us₂.map Word.lexeme = Tree.tokensOfAll (treesOfAll args.sketches) := by
      rw [hargs.taken, tokens_treesOfAll]
    have hat : atJoinedParen (us₂ ++ vs) = atJoinedParen name.rest :=
      atJoinedParen_arguments hargs
        ((argumentsShow_eq hname.evenly hne htokens hmore).symm.trans hshow)
    have hreads := ((reads_bump v _).seq ((retells_attributeName (m := m) hr hname).seq
      (retells_attributeArguments.reads_optional hargs hat))).node .attribute
    rw [← treesOfAll_append, tree_congr hv] at hreads
    rw [List.cons_append, List.append_assoc]
    exact hreads

theorem retells_attributeList : Retells ks (attributeList : Rule n) (attributeList : Rule m) := by
  have hone : Retells [] (oneAttribute : Rule n) (oneAttribute : Rule m) := retells_oneAttribute
  have hlist : Retells ks (many (at? .atSign) oneAttribute advances_oneAttribute.of_atWord : Rule n)
      (many (at? .atSign) oneAttribute advances_oneAttribute.of_atWord : Rule m) :=
    hone.many _ _ (reaches_at? _) (fun _ _ _ => List.not_mem_nil)
      (List.nil_subset _)
  have hfirm : Firm (at? .atSign)
      (many (at? .atSign) oneAttribute advances_oneAttribute.of_atWord : Rule n) :=
    firm_oneAttribute.of_anywhere.many _
  exact (hlist.node _).optional (reaches_at? _) (hfirm.node _).takes

/-! ## effects -/

theorem atEffect_not_joined {w : Word} {r : List Word} (h : atEffect (w :: r) = true) :
    w.kind ∉ joinedKinds := by
  simp [atEffect, atAny, atName, kind?] at h
  simp [joinedKinds]
  grind

/-- With even spaces a parenthesis is joined to `throws` again exactly if it was. -/
theorem atJoinedParen_group {ws : List Word} {h : ws.length < n} {v : Word}
    (hv : v.kind = .kwThrows) (heven : ([v] ++ (us ++ vs)).IsChain Word.Evenly)
    (htold : (Rule.optional atJoinedParen group ws h : Parsed ws).Told joinedKinds us vs) :
    atJoinedParen (us ++ vs) = atJoinedParen ws := by
  have htakes : Takes 1 (at? .openParen) (group : Rule n) := (advances_group.of_atWord rfl).takes
  have hspace : v.kind.needsSpace .openParen = false := by
    rw [hv]
    decide
  have hlast : [v].getLast? = some v := rfl
  rw [atJoinedParen_of_evenly heven hlast, hspace, Bool.not_false, Bool.and_true]
  cases hws : atJoinedParen ws with
  | true => exact at?_of_told_optional htakes htold hws
  | false =>
    have hsame : Rule.optional atJoinedParen group ws h = .done ws := if_neg (by simp [hws])
    rw [hsame] at htold
    obtain rfl := htold.eq_nil_of_done
    -- no type was taken, so what is left starts with no parenthesis
    have hapart := htold.apart
    cases vs with
    | nil => rfl
    | cons p vs =>
      have hp : p.kind ∉ joinedKinds := hapart p rfl
      simp_all [joinedKinds, at?, kind?]

/-- The type that `throws` may be joined to is joined to it with even spaces. -/
theorem retells_effect :
    Retells joinedKinds (effect : Rule n) (effect : Rule m) := by
  intro ws us vs h htold
  have htakes : Takes 1 (at? .kwThrows) (effect : Rule n) := (advances_effect.of_atWord rfl).takes
  have hat := htakes.at_eq (reaches_at? _) htold
  unfold effect Rule.ifAt at htold ⊢
  cases hws : at? .kwThrows ws with
  | false =>
    simp only [hws, Bool.false_eq_true, if_false] at htold ⊢
    exact (retells_bump h htold).ifAt_not (hat.trans hws)
  | true =>
    simp only [hws, if_true] at htold ⊢
    refine Reads.ifAt ?_ (hat.trans hws)
    cases ws with
    | nil => cases hws
    | cons w r =>
      have hr := Nat.lt_of_succ_lt h
      have hw : w.kind = .kwThrows := by simpa [at?, kind?] using hws
      let type : Parsed r := Rule.optional atJoinedParen group r hr
      have hinside : (Parsed.cons w type).Told joinedKinds us vs := htold
      obtain ⟨v, us', rfl, hv, hrest⟩ := hinside.cons
      have hjoined : atJoinedParen (us' ++ vs) = atJoinedParen r :=
        atJoinedParen_group ((kind_congr hv).trans hw) htold.evenly hrest
      have hreads := (reads_bump v _).seq (retells_group.reads_optional (m := m) hrest hjoined)
      rw [tree_congr hv] at hreads
      exact hreads

theorem retells_effectSpecifiers :
    Retells joinedKinds (effectSpecifiers : Rule n) (effectSpecifiers : Rule m) := by
  have hlist : Retells joinedKinds (many atEffect effect advances_effect.of_atWord : Rule n)
      (many atEffect effect advances_effect.of_atWord : Rule m) :=
    retells_effect.many _ _ (reaches_one rfl fun _ _ => rfl) (fun _ _ => atEffect_not_joined)
      (List.Subset.refl _)
  have hfirm : Firm atEffect (many atEffect effect advances_effect.of_atWord : Rule n) :=
    (firm_effect.of_atWord rfl).many _
  exact (hlist.node _).optional (reaches_one rfl fun _ _ => rfl) (hfirm.node _).takes

/-! ## types, given the rule for those inside -/

theorem labelLength_eq_two (ws : List Word) :
    (labelLength ws == 2) = atPair .identifier .colon ws := by
  unfold labelLength
  split
  · simp [*]
  split <;> simp [*]

theorem labelLength_eq_three (ws : List Word) :
    (labelLength ws == 3) =
      (at? .identifier ws && (at? .identifier ws.tail && at? .colon ws.tail.tail)) := by
  cases ws with
  | nil => rfl
  | cons v ws =>
    cases ws with
    | nil => simp [labelLength, atPair, at?, kind?]
    | cons w ws =>
      simp only [labelLength, atPair, at?, kind?]
      grind

theorem labelLength_le (ws : List Word) : labelLength ws ≤ ws.length := by
  cases ws with
  | nil => exact Nat.le_refl _
  | cons v ws =>
    cases ws with
    | nil => simp [labelLength, atPair, at?, kind?]
    | cons w ws =>
      cases ws with
      | nil =>
        simp only [labelLength, atPair, at?, kind?]
        grind
      | cons x ws =>
        simp only [labelLength, List.length_cons]
        grind

theorem retells_label : Retells ks (label : Rule n) (label : Rule m) := by
  have htwo : Reaches 2 fun ws => labelLength ws == 2 := by
    simpa only [labelLength_eq_two] using reaches_atPair .identifier .colon
  have hthree : Reaches 3 fun ws => labelLength ws == 3 := by
    simpa only [labelLength_eq_three] using
      (reaches_at? .identifier).and_tail ((reaches_at? .identifier).and_tail (reaches_at? .colon))
  have hone : Retells ks (bump >> bump : Rule n) (bump >> bump : Rule m) :=
    retells_bump.before retells_bump
  refine hone.ifAt ((retells_bump.before hone).optional hthree ?_) htwo ?_
  · intro ws h hat _
    have hle : 3 ≤ ws.length := (beq_iff_eq.1 hat) ▸ labelLength_le ws
    show (bump (bump (bump ws h).rest _).rest _).rest.length + 3 ≤ ws.length
    rw [rest_bump, rest_bump, rest_bump]
    simp only [List.length_tail]
    omega
  · intro ws h hat _
    have hle : 2 ≤ ws.length := (beq_iff_eq.1 hat) ▸ labelLength_le ws
    show (bump (bump ws h).rest _).rest.length + 2 ≤ ws.length
    rw [rest_bump, rest_bump]
    simp only [List.length_tail]
    omega

theorem reaches_atPathTail : Reaches 2 atPathTail :=
  (reaches_at? .dot).and_tail (reaches_atAny [.identifier, .kwSelfType, .kwProtocol])

theorem kind_of_at? {k : Kind} {w : Word} {r : List Word} (h : at? k (w :: r) = true) :
    w.kind = k := by
  simpa [at?, kind?] using h

/-- What stands behind the first type in brackets, with a colon there or without. -/
def collectionTail (inside : Rule n) : Bool → Rule n
  | true => bump >> inside >> expect .closeBracket .unclosedCollectionType
  | false => expect .closeBracket .unclosedCollectionType

theorem collectionType_cons {inside : Rule n} {w : Word} {r : List Word}
    (h : (w :: r).length < n + 1) {colon : Bool}
    (hcolon : at? .colon (inside r (Nat.lt_of_succ_lt_succ h)).rest = colon) :
    collectionType inside (w :: r) h =
      node (if colon then .typeDictionary else .typeArray)
        (Rule.after (inside >> collectionTail inside colon)) (w :: r) h := by
  subst hcolon
  unfold collectionType onWord
  dsimp only
  split
  · next hcolon =>
    rw [hcolon]
    rfl
  · next hcolon =>
    rw [Bool.not_eq_true] at hcolon
    rw [hcolon]
    rfl

theorem firm_collectionTail (colon : Bool) :
    Firm anywhere (collectionTail (type : Rule n) colon) := by
  cases colon with
  | true => exact ((firm_expect _ _).after firm_type.solid).after solid_bump
  | false => exact firm_expect _ _

/-- Whether an effect or an arrow stands next, so that a tuple is that of a function type. -/
def atFunctionTail (ws : List Word) : Bool := atEffect ws || at? .arrow ws

theorem reaches_atFunctionTail : Reaches 1 atFunctionTail := reaches_one rfl fun _ _ => rfl

section

variable (hin : Retells joinedKinds (type : Rule n) (type : Rule m))

include hin

theorem retells_genericArguments :
    Retells ks (genericArguments (type : Rule n)) (genericArguments (type : Rule m)) :=
  (retells_bump.before ((hin.commaList firm_type.of_anywhere.takesItem
    (reaches_one rfl fun _ _ => rfl) (by decide) (List.Subset.refl _)).seq (retells_expect _ _)
      (startsApart_expect (by decide) _) (.inr (firm_expect _ _)))).node _

theorem retells_pathSegment :
    Retells ks (pathSegment (type : Rule n)) (pathSegment (type : Rule m)) :=
  (((retells_genericArguments hin).optional (reaches_at? _)
    (firm_genericArguments firm_type).of_anywhere.takes).after).node _

theorem retells_path : Retells ks (path (type : Rule n)) (path (type : Rule m)) := by
  have hsegment : Retells [] (pathSegment (type : Rule n)) (pathSegment (type : Rule m)) :=
    retells_pathSegment hin
  refine (hsegment.before (hsegment.whileAt reaches_atPathTail (fun w r h hat hclean => ?_)
    (fun _ _ _ => List.not_mem_nil) (List.nil_subset _))).node _
  have hword : atWord r = true := by
    cases r with
    | nil => simp [atPathTail, atAny, kind?] at hat
    | cons => rfl
  have := (firm_pathSegment firm_type r h hword hclean).2
  simp only [List.length_cons]
  omega

theorem retells_tupleElement :
    Retells joinedKinds (tupleElement (type : Rule n)) (tupleElement (type : Rule m)) := by
  have hnone : Retells joinedKinds
      (fault .noType >> Rule.optional (atOther [.comma, .closeParen]) bump : Rule n)
      (fault .noType >> Rule.optional (atOther [.comma, .closeParen]) bump : Rule m) :=
    fun _ _ _ _ htold => (cleanAll_append.1 htold.clean).1.1.elim
  have hellipsis : StartsApart joinedKinds (eat .ellipsis : Rule n) :=
    StartsApart.optional fun w r hat => by
      rw [kind_of_at? hat]
      decide
  have hreaches : Reaches 1 Grammar.atTypeStart := reaches_one rfl fun _ _ => rfl
  have htype := hin.ifAt hnone hreaches firm_type.of_anywhere.takes
  exact (retells_label.before
    (htype.seq (retells_eat _) hellipsis (.inl (List.Subset.refl _)))).node _

theorem retells_tupleElements :
    Retells ks (tupleElements (type : Rule n)) (tupleElements (type : Rule m)) :=
  ((retells_tupleElement hin).commaList (firm_tupleElement firm_type).of_anywhere.takesItem
    (reaches_atOther _) (by decide) (List.Subset.refl _)).seq (retells_expect _ _)
      (startsApart_expect (by decide) _) (.inr (firm_expect _ _))

theorem retells_functionTypeTail :
    Retells joinedKinds (functionTypeTail (type : Rule n)) (functionTypeTail (type : Rule m)) :=
  retells_effectSpecifiers.seq ((retells_expect _ _).before hin)
    ((startsApart_expect (by decide) _).before (firm_expect _ _) _) (.inl (List.Subset.refl _))

theorem retells_collectionTail (colon : Bool) :
    Retells ks (collectionTail (type : Rule n) colon) (collectionTail (type : Rule m) colon) := by
  cases colon with
  | true =>
    exact retells_bump.before (hin.seq (retells_expect _ _) (startsApart_expect (by decide) _)
      (.inr (firm_expect _ _)))
  | false => exact retells_expect _ _

omit hin in
/-- Behind the first type in brackets stands a colon, or the bracket that closes them. -/
theorem startsApart_collectionTail {colon : Bool} {ws : List Word} {h : ws.length < n}
    (hcolon : at? .colon ws = colon)
    (hclean : CleanAll (collectionTail (type : Rule n) colon ws h).sketches) :
    ∀ w ∈ (wordsOfAll (collectionTail (type : Rule n) colon ws h).sketches).head?,
      w.kind ∉ joinedKinds := by
  intro w hw
  cases colon with
  | true =>
    have hhead := Parsed.head?_of_taken hw
    simp only [at?, kind?, hhead, Option.map_some, beq_iff_eq, Option.some.injEq] at hcolon
    rw [hcolon]
    decide
  | false => exact startsApart_expect (by decide) _ ws h hclean w hw

/-- What stands in brackets is a collection of the same form again. -/
theorem retells_collectionType :
    Retells ks (collectionType (type : Rule n)) (collectionType (type : Rule m)) := by
  intro ws us vs h htold
  cases ws with
  | nil =>
    obtain ⟨rfl, rfl⟩ := htold.eq_nil_of_nil
    exact fun _ => ⟨⟨True.intro, True.intro⟩, rfl, rfl⟩
  | cons w r =>
    have hr := Nat.lt_of_succ_lt_succ h
    obtain ⟨colon, hcolon⟩ : ∃ colon, at? .colon (type r hr).rest = colon := ⟨_, rfl⟩
    rw [collectionType_cons h hcolon] at htold ⊢
    obtain ⟨v, us', rfl, hv, hrest⟩ := Parsed.Told.cons htold.node
    obtain ⟨-, hclean⟩ := cleanAll_append.1 hrest.clean
    have hne := Parsed.wordsOfAll_ne_nil (firm_collectionTail colon _ _ rfl hclean).2
    have hapart := startsApart_collectionTail hcolon hclean
    have hreads := ((hin.seq_at (retells_collectionTail hin colon) hrest hapart (.inr hne)).after
      (w := v)).node (if colon then .typeDictionary else .typeArray)
    rw [tree_congr hv] at hreads
    rw [List.cons_append]
    intro h'
    have hcolon' := hin.at_rest hrest hapart (.inr hne) (reaches_at? .colon) (fun _ => hne)
      (Nat.lt_of_succ_lt_succ h')
    rw [collectionType_cons h' (hcolon'.trans hcolon)]
    exact hreads h'

omit hin in
/-- A tuple, where no function type starts. -/
theorem tupleOrFunctionType_of_tuple {w : Word} {r : List Word} (h : (w :: r).length < n + 1)
    (hat : atFunctionTail (tupleElements (type : Rule n) r (Nat.lt_of_succ_lt_succ h)).rest =
      false) :
    tupleOrFunctionType (type : Rule n) (w :: r) h =
      node .typeTuple (Rule.after (tupleElements type)) (w :: r) h :=
  if_neg (Bool.not_eq_true _ ▸ hat)

omit hin in
/-- A function type, where one starts. -/
theorem tupleOrFunctionType_of_function {w : Word} {r : List Word} (h : (w :: r).length < n + 1)
    (hat : atFunctionTail (tupleElements (type : Rule n) r (Nat.lt_of_succ_lt_succ h)).rest =
      true) :
    tupleOrFunctionType (type : Rule n) (w :: r) h =
      ((node .typeTuple (Rule.after (tupleElements type)) (w :: r) h).append
        (functionTypeTail type _ ((tupleElements (type : Rule n) r _).length_rest_lt
          (Nat.lt_of_succ_lt_succ h)))).node .typeFunction :=
  if_pos hat

omit hin in
theorem reads_tuple {v : Word} {us vs : List Word} {ts : List Tree}
    (htuple : Reads (node .typeTuple (Rule.after (tupleElements type)) : Rule (m + 1)) (v :: us) ts
      vs) (hat : atFunctionTail vs = false) :
    Reads (tupleOrFunctionType type : Rule (m + 1)) (v :: us) ts vs := by
  intro h
  have hfirst := htuple h
  obtain rfl := hfirst.rest
  rw [tupleOrFunctionType_of_tuple h hat]
  exact hfirst

omit hin in
theorem reads_function_of_tuple {v : Word} {us rest vs : List Word} {ts ts' : List Tree}
    (htuple : Reads (node .typeTuple (Rule.after (tupleElements type)) : Rule (m + 1)) (v :: us) ts
      rest) (hat : atFunctionTail rest = true)
    (htail : Reads (functionTypeTail type : Rule m) rest ts' vs) :
    Reads (tupleOrFunctionType type : Rule (m + 1)) (v :: us) [.node .typeFunction (ts ++ ts')]
      vs := by
  intro h
  have hfirst := htuple h
  obtain rfl := hfirst.rest
  rw [tupleOrFunctionType_of_function h hat]
  exact (hfirst.append (htail _)).node _

/-- Parentheses are told again wherever they stand, but a function type only where its result is. -/
theorem reads_tupleOrFunctionType {ws us vs : List Word} (h : ws.length < n + 1)
    (htold : (tupleOrFunctionType type ws h).Told ks us vs)
    (hfunction : (∃ ps, (tupleOrFunctionType type ws h).sketches = [.node .typeFunction ps]) →
      joinedKinds ⊆ ks) :
    Reads (tupleOrFunctionType type : Rule (m + 1)) (us ++ vs)
      (treesOfAll (tupleOrFunctionType type ws h).sketches) vs := by
  cases ws with
  | nil =>
    obtain ⟨rfl, rfl⟩ := htold.eq_nil_of_nil
    exact fun _ => ⟨⟨True.intro, True.intro⟩, rfl, rfl⟩
  | cons w r =>
    have hr := Nat.lt_of_succ_lt_succ h
    have htuples {ks : List Kind} : Retells ks
        (node .typeTuple (Rule.after (tupleElements type)) : Rule (n + 1))
        (node .typeTuple (Rule.after (tupleElements type)) : Rule (m + 1)) :=
      ((retells_tupleElements hin).after).node _
    cases hat : atFunctionTail (tupleElements type r hr).rest with
    | true =>
      rw [tupleOrFunctionType_of_function h hat] at htold hfunction ⊢
      obtain ⟨us₁, us₂, rfl, htuple, htail⟩ := htold.node.split
      have hat' := (firm_functionTypeTail firm_type).of_anywhere.takes.at_eq reaches_atFunctionTail
        htail
      have hreads := htuples h htuple
      obtain ⟨v, us', rfl, hv, -⟩ := Parsed.Told.cons htuple.node
      have htail' := retells_functionTypeTail hin _ (htail.mono (hfunction ⟨_, rfl⟩))
      have hfunction' := reads_function_of_tuple hreads (hat'.trans hat) htail'
      rw [← treesOfAll_append] at hfunction'
      rw [List.append_assoc]
      exact hfunction'
    | false =>
      rw [tupleOrFunctionType_of_tuple h hat] at htold ⊢
      have hreads := htuples h htold
      obtain ⟨v, us', rfl, hv, -⟩ := Parsed.Told.cons htold.node
      rw [List.cons_append] at hreads ⊢
      exact reads_tuple hreads (htold.left_eq_false reaches_atFunctionTail hat)

/-- A type without prefixes and suffixes is told again. -/
theorem reads_primaryType {ws us vs : List Word} (h : ws.length < n + 1)
    (htold : (primaryType type ws h).Told ks us vs)
    (hfunction : (∃ ps, (primaryType type ws h).sketches = [.node .typeFunction ps]) →
      joinedKinds ⊆ ks) :
    Reads (primaryType type : Rule (m + 1)) (us ++ vs)
      (treesOfAll (primaryType type ws h).sketches) vs := by
  have hnone : Retells ks (gap >> fault .noType : Rule (n + 1))
      (gap >> fault .noType : Rule (m + 1)) :=
    fun _ _ _ _ htold => (cleanAll_append.1 htold.clean).2.1.elim
  have hfirm {c : List Word → Bool} (hnil : c [] = false) : Firm c (path (type : Rule n)) :=
    (firm_path firm_type).of_atWord hnil
  have hothers := (retells_collectionType hin).ifAt
    ((retells_path hin).ifAt hnone (reaches_atAny [.identifier, .kwSelfType, .kwClass, .kwProtocol])
      (hfirm rfl).takes) (reaches_at? .openBracket)
      ((firm_collectionType firm_type).of_atWord rfl).takes
  have hat := (firm_primaryType firm_type).of_anywhere.takes.at_eq (reaches_at? .openParen) htold
  cases hws : at? .openParen ws with
  | true =>
    have heq : primaryType type ws h = tupleOrFunctionType type ws h := if_pos hws
    rw [heq] at htold hfunction ⊢
    exact (reads_tupleOrFunctionType hin h htold hfunction).ifAt (hat.trans hws)
  | false =>
    have heq : primaryType type ws h = Rule.ifAt (at? .openBracket) (collectionType type)
        (Rule.ifAt (atAny [.identifier, .kwSelfType, .kwClass, .kwProtocol]) (path type)
          (gap >> fault .noType)) ws h := if_neg (by simp [hws])
    rw [heq] at htold ⊢
    exact (hothers h htold).ifAt_not (hat.trans hws)

end

end Grammar

end SwiftOutline

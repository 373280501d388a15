import SwiftOutline.Proofs.Firm
import SwiftOutline.Proofs.Lookahead

/-!
# SwiftOutline.Proofs.Runaway

Looking ahead past the end of words of which the last closes a brace.

* `Ended` — such words, with a name behind each `@`;
* `atModifier_append`, `atAccessor_append`, `atDeclaration_append` — what a look ahead finds in
  such words does not change with more words behind them, unless it runs to their end;
* `Loose` — what it has passed then: outside all brackets there are only words that attributes
  and modifiers are made of, and no closing bracket;
* `rest_itemsFrom_of_loose` — from there on the items of a scope are statements that take all
  words, if no fault is found: the scope is not closed.

So a look ahead that runs away is refuted by what stands around it, which has to be closed.
-/

namespace SwiftOutline.Grammar

open Rule Sketch

/-! ## words with an end -/

/-- Every `@` among words has a name right behind it. -/
def Named : List Word → Prop
  | [] => True
  | w :: r => (w.kind = .atSign → at? .identifier r = true) ∧ Named r

instance decidableNamed : DecidablePred Named
  | [] => isTrue True.intro
  | w :: r =>
    have := decidableNamed r
    inferInstanceAs (Decidable ((w.kind = .atSign → at? .identifier r = true) ∧ Named r))

/-- Words of which the last closes a brace, with a name behind each `@`. -/
structure Ended (ws : List Word) : Prop where
  named : Named ws
  sealed : ∀ w ∈ ws.getLast?, w.kind = .closeBrace

namespace Ended

variable {w : Word} {r ws : List Word}

theorem tail (h : Ended (w :: r)) : Ended r where
  named := h.named.2
  sealed := by
    intro v hv
    obtain ⟨vs, hvs⟩ := List.getLast?_eq_some_iff.1 hv
    refine h.sealed v ?_
    rw [hvs, ← List.cons_append, List.getLast?_concat]
    rfl

theorem of_append (vs : List Word) (h : Ended (vs ++ ws)) : Ended ws := by
  induction vs with
  | nil => exact h
  | cons v vs ih => exact ih h.tail

theorem drop (h : Ended ws) (n : Nat) : Ended (ws.drop n) :=
  of_append (ws.take n) (by rwa [List.take_append_drop])

theorem drop_one (h : Ended ws) : Ended ws.tail := by
  rw [← List.drop_one]
  exact h.drop 1

theorem rest (h : Ended ws) (p : Parsed ws) : Ended p.rest :=
  of_append (wordsOfAll p.sketches) (by rwa [p.covers])

theorem skipArguments (h : Ended ws) : Ended (skipArguments ws) := by
  unfold Grammar.skipArguments
  split
  · exact h.drop _
  · exact h

theorem skipDottedNames (h : Ended ws) : Ended (skipDottedNames ws) := by
  fun_induction Grammar.skipDottedNames ws with
  | case1 d i r _ ih => exact ih h.tail.tail
  | case2 d i r _ => exact h
  | case3 ws _ => exact h

/-- Words go on behind any word that closes no brace. -/
theorem exists_cons (h : Ended (w :: r)) (hw : w.kind ≠ .closeBrace) :
    ∃ v r', r = v :: r' := by
  cases r with
  | nil => exact absurd (h.sealed w rfl) hw
  | cons v r' => exact ⟨v, r', rfl⟩

/-- A name stands behind an `@`. -/
theorem exists_name (h : Ended (w :: r)) (hw : w.kind = .atSign) :
    ∃ i r', r = i :: r' ∧ i.kind = .identifier := by
  have hname := h.named.1 hw
  cases r with
  | nil => cases hname
  | cons i r' => exact ⟨i, r', rfl, by simpa [at?, kind?] using hname⟩

end Ended

/-! ## more words behind -/

variable {ws : List Word} (vs : List Word)

theorem groupLengthFrom_append {depth : Nat} (h : ws.drop (groupLengthFrom depth ws) ≠ []) :
    groupLengthFrom depth (ws ++ vs) = groupLengthFrom depth ws := by
  induction ws generalizing depth with
  | nil => exact absurd rfl h
  | cons w r ih =>
    rw [List.cons_append]
    obtain hzero | hpos := Nat.eq_zero_or_pos (depthAfter depth w.kind)
    · rw [groupLengthFrom_of_zero r hzero, groupLengthFrom_of_zero (r ++ vs) hzero]
    · rw [groupLengthFrom_of_pos r hpos] at h ⊢
      rw [groupLengthFrom_of_pos (r ++ vs) hpos, ih h]

theorem drop_groupLengthFrom_append {depth : Nat}
    (h : ws.drop (groupLengthFrom depth ws) ≠ []) :
    (ws ++ vs).drop (groupLengthFrom depth (ws ++ vs)) =
      ws.drop (groupLengthFrom depth ws) ++ vs := by
  have hlt : groupLengthFrom depth ws < ws.length := by
    simpa [List.drop_eq_nil_iff] using h
  rw [groupLengthFrom_append vs h, List.drop_append_of_le_length (Nat.le_of_lt hlt)]

theorem skipArguments_append (h : skipArguments ws ≠ []) :
    skipArguments (ws ++ vs) = skipArguments ws ++ vs := by
  cases ws with
  | nil => exact absurd rfl h
  | cons w r =>
    unfold skipArguments at h ⊢
    have hat : atJoinedParen ((w :: r) ++ vs) = atJoinedParen (w :: r) := rfl
    rw [hat]
    split
    · next hparen =>
      rw [if_pos hparen] at h
      exact drop_groupLengthFrom_append vs h
    · rfl

theorem skipDottedNames_append (hend : Ended ws) (h : skipDottedNames ws ≠ []) :
    skipDottedNames (ws ++ vs) = skipDottedNames ws ++ vs := by
  fun_induction skipDottedNames ws with
  | case1 d i r hdi ih =>
    rw [List.cons_append, List.cons_append, skipDottedNames, if_pos hdi, ih hend.tail.tail h]
  | case2 d i r hdi => rw [List.cons_append, List.cons_append, skipDottedNames, if_neg hdi]
  | case3 ws hws =>
    cases ws with
    | nil => exact absurd rfl h
    | cons w r =>
      cases r with
      | cons i r => exact absurd rfl (hws w i r)
      | nil =>
        have hw : w.kind = .closeBrace := hend.sealed w rfl
        cases vs with
        | nil => rfl
        | cons v vs =>
          show skipDottedNames (w :: v :: vs) = w :: v :: vs
          rw [skipDottedNames, if_neg (by simp [hw])]

theorem skipArguments_nil : skipArguments [] = [] := rfl

/-- The word `class` is no modifier at the end, so what makes it one is seen. -/
theorem atModifier_append (hend : Ended ws) (h : ws ≠ []) :
    atModifier (ws ++ vs) = atModifier ws := by
  induction ws with
  | nil => exact absurd rfl h
  | cons w r ih =>
    rw [List.cons_append]
    by_cases hclass : w.kind = .kwClass
    · obtain ⟨v, r', rfl⟩ := hend.exists_cons (by simp [hclass])
      have hstep (q : List Word) :
          atModifier (w :: q) = (atAny memberWords q || atModifier q) := by
        rw [atModifier, hclass]
      rw [hstep, hstep, ih hend.tail (by simp)]
      rfl
    · unfold atModifier
      split <;> simp_all

/-- The look ahead stops at the same word. -/
theorem skipAttributesAndModifiers_append (hend : Ended ws)
    (h : skipAttributesAndModifiers ws ≠ []) :
    skipAttributesAndModifiers (ws ++ vs) = skipAttributesAndModifiers ws ++ vs := by
  fun_induction skipAttributesAndModifiers ws with
  | case1 => exact absurd rfl h
  | case2 w r hw ih =>
    obtain ⟨i, r', rfl, -⟩ := hend.exists_name hw
    rw [List.tail_cons] at ih h
    -- the look ahead leaves a word, so none of its stages took all of them
    have harguments : skipArguments (skipDottedNames r') ≠ [] := by
      intro hnil
      rw [hnil, skipAttributesAndModifiers] at h
      exact h rfl
    have hnames : skipDottedNames r' ≠ [] := by
      intro hnil
      rw [hnil] at harguments
      exact harguments skipArguments_nil
    have hend' : Ended r' := hend.tail.tail
    rw [List.cons_append, skipAttributesAndModifiers.eq_2, if_pos hw, List.cons_append,
      List.tail_cons, skipDottedNames_append vs hend' hnames,
      skipArguments_append vs harguments, ih hend'.skipDottedNames.skipArguments h]
    rfl
  | case3 w r hw hmodifier ih =>
    have harguments : skipArguments r ≠ [] := by
      intro hnil
      rw [hnil, skipAttributesAndModifiers] at h
      exact h rfl
    have hat : atModifier (w :: (r ++ vs)) = true := by
      rw [← List.cons_append, atModifier_append vs hend (by simp), hmodifier]
    rw [List.cons_append, skipAttributesAndModifiers.eq_2, if_neg hw, if_pos hat,
      skipArguments_append vs harguments, ih hend.tail.skipArguments h]
  | case4 w r hw hmodifier =>
    have hat : ¬atModifier (w :: (r ++ vs)) = true := by
      rw [← List.cons_append, atModifier_append vs hend (by simp)]
      exact hmodifier
    rw [List.cons_append, skipAttributesAndModifiers.eq_2, if_neg hw, if_neg hat]

/-! ## loose words -/

/-- Kinds of words that attributes and modifiers are made of, outside brackets. -/
def looseKinds : List Kind :=
  [.atSign, .identifier, .dot, .openParen, .kwPublic, .kwPrivate, .kwFileprivate, .kwInternal,
    .kwStatic, .kwClass]

/-- From a bracket depth on, only words that attributes and modifiers are made of stand outside
all brackets. -/
def Loose (depth : Nat) : List Word → Prop
  | [] => True
  | w :: r => (depth = 0 → w.kind ∈ looseKinds) ∧ Loose (depthAfter depth w.kind) r

theorem isCloser_of_mem_looseKinds : ∀ k ∈ looseKinds, k.isCloser = false := by decide

theorem isOpener_of_mem_looseKinds :
    ∀ k ∈ looseKinds, k.isOpener = true → k = .openParen := by decide

/-- Outside brackets, a word that opens none does not change whether words are loose. -/
theorem loose_cons_iff {w : Word} {r : List Word} (hw : w.kind ∈ looseKinds)
    (hopen : w.kind.isOpener = false) : Loose 0 (w :: r) ↔ Loose 0 r := by
  rw [Loose, depthAfter, hopen, isCloser_of_mem_looseKinds _ hw]
  exact and_iff_right fun _ => hw

/-- To leave brackets that are open does not change whether words are loose. -/
theorem loose_drop_iff {a : Nat} (ha : 0 < a) (b : Nat) (ws : List Word) :
    Loose b (ws.drop (groupLengthFrom a ws)) ↔ Loose (a + b) ws := by
  induction ws generalizing a with
  | nil => exact Iff.rfl
  | cons w r ih =>
    have hdepth := depthAfter_add ha b w.kind
    have hcons : Loose (a + b) (w :: r) ↔ Loose (depthAfter a w.kind + b) r := by
      rw [← hdepth]
      exact and_iff_right fun h => by omega
    rw [hcons]
    obtain hzero | hpos := Nat.eq_zero_or_pos (depthAfter a w.kind)
    · rw [groupLengthFrom_of_zero r hzero, hzero, Nat.zero_add, List.drop_succ_cons,
        List.drop_zero]
    · rw [groupLengthFrom_of_pos r hpos, List.drop_succ_cons]
      exact ih hpos

/-- Outside brackets, a parenthesis may open whatever comes before loose words. -/
theorem loose_paren_iff {w : Word} {r : List Word} (hw : w.kind = .openParen) :
    Loose 0 (w :: r) ↔ Loose 0 (r.drop (groupLengthFrom 1 r)) := by
  rw [loose_drop_iff Nat.one_pos, Loose, hw]
  exact and_iff_right fun _ => by decide

theorem kind_of_atJoinedParen {w : Word} {r : List Word}
    (h : atJoinedParen (w :: r) = true) : w.kind = .openParen := by
  simp only [atJoinedParen, at?, kind?, Bool.and_eq_true, beq_iff_eq] at h
  simpa using h.1

theorem loose_skipArguments_iff (ws : List Word) : Loose 0 (skipArguments ws) ↔ Loose 0 ws := by
  unfold skipArguments
  split
  · next hparen =>
    cases ws with
    | nil => exact Iff.rfl
    | cons w r =>
      have hw := kind_of_atJoinedParen hparen
      have hopen : w.kind.isOpener = true := by rw [hw]; rfl
      rw [groupLength_of_isOpener r hopen, List.drop_succ_cons, loose_paren_iff hw]
  · exact Iff.rfl

theorem loose_skipDottedNames_iff (ws : List Word) :
    Loose 0 (skipDottedNames ws) ↔ Loose 0 ws := by
  fun_induction skipDottedNames ws with
  | case1 d i r hdi ih =>
    rw [ih, loose_cons_iff (by simp [hdi.1, looseKinds]) (by rw [hdi.1]; rfl),
      loose_cons_iff (by simp [hdi.2, looseKinds]) (by rw [hdi.2]; rfl)]
  | case2 => exact Iff.rfl
  | case3 => exact Iff.rfl

theorem mem_looseKinds_of_atModifier {w : Word} {r : List Word}
    (h : atModifier (w :: r) = true) : w.kind ∈ looseKinds ∧ w.kind.isOpener = false := by
  unfold atModifier at h
  split at h <;> simp_all [looseKinds, Kind.isOpener]

theorem loose_of_attribute {w : Word} {r : List Word} (hend : Ended (w :: r))
    (hw : w.kind = .atSign) (h : Loose 0 r.tail) : Loose 0 (w :: r) := by
  obtain ⟨i, r', rfl, hi⟩ := hend.exists_name hw
  rw [loose_cons_iff (by simp [hw, looseKinds]) (by rw [hw]; rfl),
    loose_cons_iff (by simp [hi, looseKinds]) (by rw [hi]; rfl)]
  exact h

/-- A look ahead passes loose words only; if it runs to the end, there are no others. -/
theorem loose_of_skipAttributesAndModifiers {ws : List Word} (hend : Ended ws)
    (h : Loose 0 (skipAttributesAndModifiers ws)) : Loose 0 ws := by
  fun_induction skipAttributesAndModifiers ws with
  | case1 => exact True.intro
  | case2 w r hw ih =>
    refine loose_of_attribute hend hw ?_
    rw [← loose_skipDottedNames_iff, ← loose_skipArguments_iff]
    exact ih (hend.tail.drop_one.skipDottedNames.skipArguments) h
  | case3 w r _ hmodifier ih =>
    obtain ⟨hk, hopen⟩ := mem_looseKinds_of_atModifier hmodifier
    rw [loose_cons_iff hk hopen, ← loose_skipArguments_iff]
    exact ih hend.tail.skipArguments h
  | case4 => exact h

/-! ## accessors -/

/-- The look ahead stops at the same word. -/
theorem skipAccessorModifiers_append {ws : List Word} (hend : Ended ws)
    (h : skipAccessorModifiers ws ≠ []) :
    skipAccessorModifiers (ws ++ vs) = skipAccessorModifiers ws ++ vs := by
  fun_induction skipAccessorModifiers ws with
  | case1 => exact absurd rfl h
  | case2 w r hw ih =>
    obtain ⟨i, r', rfl, -⟩ := hend.exists_name hw
    rw [List.tail_cons] at ih h
    have harguments : skipArguments r' ≠ [] := by
      intro hnil
      rw [hnil, skipAccessorModifiers] at h
      exact h rfl
    rw [List.cons_append, skipAccessorModifiers.eq_2, if_pos hw, List.cons_append,
      List.tail_cons, skipArguments_append vs harguments, ih hend.tail.tail.skipArguments h]
    rfl
  | case3 w r hw hname ih =>
    have hat : atName accessorModifierNames (w :: (r ++ vs)) = true := hname
    rw [List.cons_append, skipAccessorModifiers.eq_2, if_neg hw, if_pos hat, ih hend.tail h]
  | case4 w r hw hname =>
    have hat : ¬atName accessorModifierNames (w :: (r ++ vs)) = true := hname
    rw [List.cons_append, skipAccessorModifiers.eq_2, if_neg hw, if_neg hat]

theorem Ended.skipAccessorModifiers {ws : List Word} (h : Ended ws) :
    Ended (skipAccessorModifiers ws) := by
  fun_induction Grammar.skipAccessorModifiers ws with
  | case1 => exact h
  | case2 w r _ ih => exact ih h.tail.drop_one.skipArguments
  | case3 w r _ _ ih => exact ih h.tail
  | case4 => exact h

theorem loose_of_atName {names : List String} {w : Word} {r : List Word}
    (hname : atName names (w :: r) = true) (h : Loose 0 r) : Loose 0 (w :: r) := by
  have hw : w.kind = .identifier := by
    simp only [atName, List.head?_cons, Option.any_some, Bool.and_eq_true, beq_iff_eq] at hname
    exact hname.1
  rw [loose_cons_iff (by simp [hw, looseKinds]) (by rw [hw]; rfl)]
  exact h

theorem loose_of_skipAccessorModifiers {ws : List Word} (hend : Ended ws)
    (h : Loose 0 (skipAccessorModifiers ws)) : Loose 0 ws := by
  fun_induction skipAccessorModifiers ws with
  | case1 => exact True.intro
  | case2 w r hw ih =>
    refine loose_of_attribute hend hw ?_
    rw [← loose_skipArguments_iff]
    exact ih (hend.tail.drop_one.skipArguments) h
  | case3 w r _ hname ih => exact loose_of_atName hname (ih hend.tail h)
  | case4 => exact h

theorem atAccessor_eq (ws : List Word) :
    atAccessor ws = match skipAccessorModifiers ws with
      | [] => false
      | w :: r => atName accessorNames (w :: r) &&
          (atAny afterAccessorName r || (at? .identifier r &&
            (atName ["async"] r || atAccessor r))) := by
  rw [atAccessor]
  split <;> simp_all

/-- An accessor is seen or not whatever stands behind the words, unless the look ahead runs to
their end. -/
theorem atAccessor_append {ws : List Word} (hend : Ended ws) :
    atAccessor (ws ++ vs) = atAccessor ws ∨ atAccessor ws = false ∧ Loose 0 ws := by
  induction hlen : ws.length using Nat.strongRecOn generalizing ws with
  | ind l ih =>
    subst hlen
    have hpassed := loose_of_skipAccessorModifiers hend
    have hrest := hend.skipAccessorModifiers
    have hle := length_skipAccessorModifiers_le ws
    rw [atAccessor_eq, atAccessor_eq]
    cases hs : skipAccessorModifiers ws with
    | nil =>
      rw [hs] at hpassed
      exact .inr ⟨rfl, hpassed True.intro⟩
    | cons w r =>
      rw [skipAccessorModifiers_append vs hend (by simp [hs])]
      rw [hs] at hpassed hrest hle ⊢
      rw [List.cons_append]
      dsimp only
      have hhead : atName accessorNames (w :: (r ++ vs)) = atName accessorNames (w :: r) := rfl
      rw [hhead]
      cases hname : atName accessorNames (w :: r) with
      | false => exact .inl rfl
      | true =>
        have hw : w.kind = .identifier := by
          simp only [atName, List.head?_cons, Option.any_some, Bool.and_eq_true,
            beq_iff_eq] at hname
          exact hname.1
        obtain ⟨v, r', rfl⟩ := hrest.exists_cons (by simp [hw])
        obtain heq | ⟨hfalse, hloose⟩ := ih (v :: r').length hle hrest.tail rfl
        · rw [heq]
          exact .inl rfl
        · -- The looks at the next word agree; only the look ahead behind it may not.
          have hloose' := hpassed (loose_of_atName hname hloose)
          have hnext (ks : List Kind) : atAny ks ((v :: r') ++ vs) = atAny ks (v :: r') := rfl
          have hat (k : Kind) : at? k ((v :: r') ++ vs) = at? k (v :: r') := rfl
          have hasync (ns : List String) : atName ns ((v :: r') ++ vs) = atName ns (v :: r') := rfl
          rw [hnext, hat, hasync, hfalse]
          generalize atAny _ (v :: r') = a
          generalize at? _ (v :: r') = b
          generalize atName _ (v :: r') = c
          cases a <;> cases b <;> cases c <;> simp [hloose']

theorem Ended.skipAttributesAndModifiers {ws : List Word} (h : Ended ws) :
    Ended (skipAttributesAndModifiers ws) := by
  fun_induction Grammar.skipAttributesAndModifiers ws with
  | case1 => exact h
  | case2 w r _ ih => exact ih h.tail.drop_one.skipDottedNames.skipArguments
  | case3 w r _ _ ih => exact ih h.tail.skipArguments
  | case4 => exact h

theorem atName_of_closeBrace (names : List String) {w : Word} (r : List Word)
    (hw : w.kind = .closeBrace) : atName names (w :: r) = false := by
  have hne : (Kind.closeBrace == Kind.identifier) = false := rfl
  simp [atName, hw, hne]

/-- A declaration is announced or not whatever stands behind the words, unless the look ahead
runs to their end. -/
theorem atDeclaration_append {ws : List Word} (hend : Ended ws) (h : ¬Loose 0 ws) :
    atDeclaration (ws ++ vs) = atDeclaration ws := by
  have hrest := hend.skipAttributesAndModifiers
  unfold atDeclaration
  cases hs : skipAttributesAndModifiers ws with
  | nil => exact absurd (loose_of_skipAttributesAndModifiers hend (by rw [hs]; trivial)) h
  | cons w r =>
    rw [skipAttributesAndModifiers_append vs hend (by simp [hs]), hs]
    rw [hs] at hrest
    by_cases hw : w.kind = .closeBrace
    · simp [atDeclarationWord, atAny, kind?, hw, atName_of_closeBrace _ _ hw]
    · obtain ⟨v, r', rfl⟩ := hrest.exists_cons hw
      rfl

/-! ## what follows loose words -/

/-- Behind the words of a statement, loose words go on loosely outside brackets. -/
theorem loose_rest_statementWords (stop : List Kind) (depth : Nat) (begun : Bool) {ws : List Word}
    (h : Loose depth ws) : Loose 0 (statementWords stop depth begun ws).rest := by
  induction ws generalizing depth begun with
  | nil => exact True.intro
  | cons w r ih =>
    unfold statementWords
    split
    · next hends =>
      obtain rfl : depth = 0 := by simp_all
      exact h
    · split
      · next hsemi =>
        obtain ⟨rfl, hw⟩ : depth = 0 ∧ w.kind = .semicolon := by simpa using hsemi
        have hk := h.1 rfl
        rw [hw] at hk
        exact absurd hk (by decide)
      · exact ih _ _ h.2

/-- An expression that has opened a bracket before loose words takes them all. -/
theorem rest_expressionWords_of_loose (accessorsFollow : Bool) (depth : Nat) (begun : Bool)
    {ws : List Word} (h : Loose depth ws) :
    (expressionWords accessorsFollow (depth + 1) begun ws).rest = [] := by
  induction ws generalizing depth begun with
  | nil => rfl
  | cons w r ih =>
    have hdepth : depthAfter (depth + 1) w.kind = depthAfter depth w.kind + 1 := by
      have hclose : depth = 0 → w.kind.isCloser = false := fun hzero =>
        isCloser_of_mem_looseKinds _ (h.1 hzero)
      unfold depthAfter
      split
      · rfl
      · split
        · next hcloser =>
          have hpos : depth ≠ 0 := fun hzero => by simp [hclose hzero] at hcloser
          omega
        · rfl
    unfold expressionWords
    rw [if_neg (by simp), hdepth]
    exact ih _ _ h.2

/-! ## attributes and modifiers in loose words -/

/-- No parenthesis closes what is open before loose words. -/
theorem afterParen_of_loose {ws : List Word} (h : Loose 0 ws) : afterParen ws = [] := by
  fun_induction afterParen ws with
  | case1 => rfl
  | case2 w r hw =>
    have hk := h.1 rfl
    rw [hw] at hk
    exact absurd hk (by decide)
  | case3 w r _ hopen ih =>
    have hw := isOpener_of_mem_looseKinds _ (h.1 rfl) hopen
    exact ih ((loose_paren_iff hw).1 h)
  | case4 w r _ hopen ih => exact ih ((loose_cons_iff (h.1 rfl) (by simpa using hopen)).1 h)

/-- Behind the arguments of an attribute, loose words go on loosely: the arguments end where
their brackets do, or not at all. -/
theorem loose_afterParen {ws : List Word} (h : Loose 1 ws) : Loose 0 (afterParen ws) := by
  fun_induction afterParen ws with
  | case1 => exact True.intro
  | case2 w r hw =>
    have hr := h.2
    rwa [hw] at hr
  | case3 w r _ hopen ih =>
    have hr := h.2
    rw [depthAfter, if_pos hopen, ← loose_drop_iff Nat.one_pos] at hr
    exact ih hr
  | case4 w r _ hopen ih =>
    have hr := h.2
    rw [depthAfter, if_neg hopen] at hr
    split at hr
    · rw [afterParen_of_loose hr]
      exact True.intro
    · exact ih hr

theorem loose_skipAttributeArguments {ws : List Word} (h : Loose 0 ws) :
    Loose 0 (skipAttributeArguments ws) := by
  unfold skipAttributeArguments
  split
  · next hparen =>
    cases ws with
    | nil => cases hparen
    | cons w r =>
      have hr := h.2
      rw [kind_of_atJoinedParen hparen] at hr
      exact loose_afterParen hr
  · exact h

theorem loose_skipAttributes {ws : List Word} (hend : Ended ws) (h : Loose 0 ws) :
    Loose 0 (skipAttributes ws) := by
  fun_induction skipAttributes ws with
  | case1 => exact h
  | case2 w r hw ih =>
    have hnext : Ended (skipAttributeArguments (skipDottedNames r.tail)) := by
      have hrest := hend.rest (oneAttribute (w :: r) (Nat.lt_succ_self _))
      rwa [rest_oneAttribute] at hrest
    obtain ⟨i, r', rfl, hi⟩ := hend.exists_name hw
    have hr := (loose_cons_iff (h.1 rfl) (by rw [hw]; rfl)).1 h
    have hr' : Loose 0 r' := (loose_cons_iff (hr.1 rfl) (by rw [hi]; rfl)).1 hr
    exact ih hnext (loose_skipAttributeArguments ((loose_skipDottedNames_iff r').2 hr'))
  | case3 => exact h

theorem loose_skipModifiers {ws : List Word} (h : Loose 0 ws) : Loose 0 (skipModifiers ws) := by
  fun_induction skipModifiers ws with
  | case1 => exact h
  | case2 w r hw ih =>
    obtain ⟨hk, hopen⟩ := mem_looseKinds_of_atModifier hw
    exact ih ((loose_skipArguments_iff r).2 ((loose_cons_iff hk hopen).1 h))
  | case3 => exact h

/-- Behind attributes and then modifiers, loose words go on loosely. -/
theorem loose_afterLead {ws : List Word} (hend : Ended ws) (h : Loose 0 ws) :
    Loose 0 (afterLead ws) := loose_skipModifiers (loose_skipAttributes hend h)

/-! ## scopes that are not closed -/

section

variable {n : Nat} {inside : List Kind → Rule n}

/-- A part that is not there does not matter. -/
theorem cleanAll_of_seq_optional {c : List Word → Bool} {p q : Rule n} {ws : List Word}
    {h : ws.length < n} (hc : c ws = false)
    (hclean : CleanAll ((optional c p >> q) ws h).sketches) : CleanAll (q ws h).sketches := by
  have hdone : optional c p ws h = .done ws := by
    unfold Rule.optional Rule.ifAt
    rw [if_neg (by simp [hc])]
    rfl
  change CleanAll ((optional c p ws h).append
    (q _ ((optional c p ws h).length_rest_lt h))).sketches at hclean
  generalize optional c p ws h = P at hclean hdone
  subst hdone
  exact hclean

theorem mem_looseKinds_of_kind? {ws : List Word} (h : Loose 0 ws) {k : Kind}
    (hk : kind? ws = some k) : k ∈ looseKinds := by
  cases ws with
  | nil => cases hk
  | cons w r =>
    obtain rfl : w.kind = k := by simpa [kind?] using hk
    exact h.1 rfl

/-- A word that is not loose does not stand next. -/
theorem not_at_of_loose {ws : List Word} (h : Loose 0 ws) {k : Kind} (hk : k ∉ looseKinds) :
    at? k ws = false := by
  refine Bool.eq_false_iff.2 fun hat => ?_
  exact hk (mem_looseKinds_of_kind? h (by simpa [at?] using hat))

theorem loose_rest_identifierName {ws : List Word} {h : ws.length < n} (hloose : Loose 0 ws) :
    Loose 0 (identifierName ws h).rest := by
  show Loose 0 (Rule.ifAt _ _ _ ws h).rest
  unfold Rule.ifAt
  split
  · next hat =>
    cases ws with
    | nil => cases hat
    | cons w r =>
      have hw : w.kind = .identifier := by simpa [at?, kind?] using hat
      exact (loose_cons_iff (hloose.1 rfl) (by rw [hw]; rfl)).1 hloose
  · exact hloose

/-- A type with members needs a brace, which loose words do not have. -/
theorem not_clean_nominal_of_loose {ws : List Word} {h : ws.length < n + 1} {k : Kind}
    (hloose : Loose 0 ws) (hk : kind? ws = some k) (hopen : k.isOpener = false) :
    ¬CleanAll (nominal inside ws h).sketches := by
  have hmembers {ws : List Word} {hws : ws.length < n + 1} (hloose : Loose 0 ws) :
      ¬CleanAll ((genericParameters >> inheritance >> genericRequirements >>
        memberBlock inside : Rule (n + 1)) ws hws).sketches := by
    have hangle := not_at_of_loose hloose (k := .openAngle) (by decide)
    have hcolon := not_at_of_loose hloose (k := .colon) (by decide)
    have hwhere := not_at_of_loose hloose (k := .kwWhere) (by decide)
    have hbrace := not_at_of_loose hloose (k := .openBrace) (by decide)
    intro hclean
    have hblock := cleanAll_of_seq_optional hwhere (cleanAll_of_seq_optional hcolon
      (cleanAll_of_seq_optional hangle hclean))
    change CleanAll [.node _ (Rule.ifAt _ _ _ ws hws).sketches] at hblock
    rw [Rule.ifAt, if_neg (by simp [hbrace])] at hblock
    exact hblock.1.1
  cases ws with
  | nil => cases hk
  | cons w r =>
    obtain rfl : w.kind = k := by simpa [kind?] using hk
    have hr := (loose_cons_iff (hloose.1 rfl) hopen).1 hloose
    intro hclean
    obtain ⟨-, hclean⟩ := cleanAll_append.1 hclean
    obtain ⟨-, hclean⟩ := cleanAll_append.1 hclean
    exact hmembers (loose_rest_identifierName hr) hclean

theorem not_clean_form_of_loose (stop : List Kind) {ws : List Word} {h : ws.length < n + 1}
    (hloose : Loose 0 ws) : ¬CleanAll ((form inside stop ws).2 ws h).sketches := by
  unfold form
  split
  case h_1 hk => exact not_clean_nominal_of_loose hloose hk rfl
  case h_19 =>
    split
    · next hactor =>
      cases ws with
      | nil => cases hactor
      | cons w r =>
        have hk : kind? (w :: r) = some .identifier := by
          simp only [atName, List.head?_cons, Option.any_some, Bool.and_eq_true,
            beq_iff_eq] at hactor
          simp [kind?, hactor.1]
        exact not_clean_nominal_of_loose hloose hk rfl
    · exact fun hclean => hclean.1
  all_goals
    next hk => exact absurd (mem_looseKinds_of_kind? hloose hk) (by decide)

/-- In loose words no declaration is read without fault. -/
theorem not_clean_declaration_of_loose (stop : List Kind) {ws : List Word}
    {h : ws.length < n + 1} (hend : Ended ws) (hloose : Loose 0 ws) :
    ¬CleanAll (declaration inside stop ws h).sketches := by
  have hrest : Loose 0 (attributesAndModifiers ws h).rest := by
    rw [rest_attributesAndModifiers]
    exact loose_afterLead hend hloose
  intro hclean
  obtain ⟨-, hform⟩ := cleanAll_append.1 hclean.1
  exact not_clean_form_of_loose stop hrest hform

end

/-- In loose words the next item is a statement, if no fault is found, and leaves loose
words. -/
theorem item_of_loose {n : Nat} {inside : List Kind → Rule n} {stop : List Kind} {ws : List Word}
    {h : ws.length < n + 1} (hend : Ended ws) (hloose : Loose 0 ws)
    (hclean : CleanAll (item inside stop ws h).sketches) :
    Loose 0 (item inside stop ws h).rest ∧
      ∃ ps, (item inside stop ws h).sketches = [.node .statement ps] := by
  have hsemicolon := not_at_of_loose hloose (k := .semicolon) (by decide)
  have hcloser : atCloser ws = false := by
    cases ws with
    | nil => rfl
    | cons w r => exact isCloser_of_mem_looseKinds _ (hloose.1 rfl)
  unfold item Rule.ifAt at hclean ⊢
  rw [if_neg (by simp [hsemicolon])] at hclean ⊢
  split
  · next hat =>
    rw [if_pos hat] at hclean
    exact absurd hclean (not_clean_declaration_of_loose stop hend hloose)
  · refine ⟨?_, _, rfl⟩
    show Loose 0 (Rule.ifAt _ _ _ ws h).rest
    unfold Rule.ifAt
    rw [if_neg (by simp [hcloser])]
    exact loose_rest_statementWords stop 0 false hloose

/-- From loose words on, the items of a scope take all words and are statements, if no fault is
found. -/
theorem rest_itemsFrom_of_loose {stop : List Kind} (hstop : ∀ k ∈ stop, k ∉ looseKinds)
    {ws : List Word} (hend : Ended ws) (hloose : Loose 0 ws)
    (hclean : CleanAll (itemsFrom stop ws).sketches) :
    (itemsFrom stop ws).rest = [] ∧
      ∀ s ∈ (itemsFrom stop ws).sketches, ∃ ps, s = .node .statement ps := by
  induction hlen : ws.length using Nat.strongRecOn generalizing ws with
  | ind l ih =>
    subst hlen
    rw [itemsFrom] at hclean ⊢
    split
    · next hc =>
      rw [dif_pos hc] at hclean
      obtain ⟨hitem, hitems⟩ := cleanAll_append.1 hclean
      obtain ⟨hrest, ps, hps⟩ := item_of_loose hend hloose hitem
      obtain ⟨hnil, hall⟩ := ih _ (advances_item _ stop ws (Nat.lt_succ_self _) hc)
        (hend.rest _) hrest hitems rfl
      refine ⟨hnil, fun s hs => ?_⟩
      obtain hs | hs := List.mem_append.1 hs
      · rw [hps, List.mem_singleton] at hs
        exact ⟨ps, hs⟩
      · exact hall s hs
    · next hc =>
      cases ws with
      | nil => exact ⟨rfl, fun s hs => nomatch hs⟩
      | cons w r =>
        have hw : w.kind ∈ stop := by simpa [atOther, atWord, atAny, kind?] using hc
        exact absurd (hloose.1 rfl) (hstop _ hw)

end SwiftOutline.Grammar

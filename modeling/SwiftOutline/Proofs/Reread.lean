import SwiftOutline.Proofs.Alone
import SwiftOutline.Proofs.Nest
import SwiftOutline.Proofs.Retelling

/-!
# SwiftOutline.Proofs.Reread

Types are read again from their words with the spaces of normalized text.

* `reads_wrapped` — with such spaces all suffixes are joined to the type before them, as they were;
* `retells_type` — so the rule for types reads again what it took without a fault;
* `Sketch.RetoldBy` — words that tell a node of a type again;
* `local_rereads`, `Site.reads_typeFrom` — every type of a source file without faults, whatever it
  stands in, is read again from such words.
-/

namespace SwiftOutline

namespace Grammar

open Rule
open Sketch (CleanAll cleanAll_append treesOfAll treesOfAll_append wordsOfAll wordsOfAll_append
  tokens_treesOfAll)

variable {n m : Nat} {ks : List Kind} {us vs : List Word}

/-! ## suffixes -/

theorem suffixKind?_rest_wrapSuffixes (ss : List Sketch) (ws : List Word) :
    suffixKind? (wrapSuffixes ss ws).2 = none := by
  fun_induction wrapSuffixes ss ws with
  | case1 => rfl
  | case2 ss w r k hk ih => exact ih
  | case3 ss w r hk => exact hk

/-- A type takes all suffixes behind it. -/
theorem suffixKind?_rest_typeFrom (ws : List Word) : suffixKind? (typeFrom ws).rest = none := by
  induction hlen : ws.length using Nat.strongRecOn generalizing ws with
  | ind l ih =>
    subst hlen
    have hin : ∀ r (h : r.length < ws.length), suffixKind? (type r h : Parsed r).rest = none :=
      fun r h => ih _ h r rfl
    have hafter (k : Kind) :
        suffixKind? (node k (Rule.after type) ws (Nat.lt_succ_self _)).rest = none := by
      cases ws with
      | nil => rfl
      | cons w r => exact hin r _
    have hsuffixed (r : List Word) (h) :
        suffixKind? (suffixedType (type : Rule ws.length) r h).rest = none :=
      suffixKind?_rest_wrapSuffixes _ _
    -- what stands last in each branch is a type or a type with all its suffixes
    rw [typeFrom]
    change suffixKind? (typeWith type ws _).rest = none
    unfold typeWith Rule.ifAt
    split
    · split <;> exact hafter _
    split
    · next hat =>
      unfold attributedType Rule.node Rule.advancing
      rw [dif_pos hat]
      exact hin (typeAttributes ws _).rest (advances_typeAttributes ws _ hat)
    · unfold composedType
      dsimp only
      split
      · exact rest_whileAt (I := fun r => suffixKind? r = none) hsuffixed _ _ (hsuffixed _ _)
      · exact hsuffixed _ _

theorem suffixKind?_rest_functionTypeTail (ws : List Word) (h : ws.length < n) :
    suffixKind? (functionTypeTail (type : Rule n) ws h).rest = none :=
  let effects := effectSpecifiers ws h
  suffixKind?_rest_typeFrom
    (expect .arrow .noFunctionTypeArrow effects.rest (effects.length_rest_lt h)).rest

/-- A type without prefixes is not an attributed one. A function type takes all suffixes behind
it. -/
theorem node_of_primaryType {ws : List Word} (h : ws.length < n + 1) {k : Kind} {ps : List Sketch}
    (hps : (primaryType (type : Rule n) ws h).sketches = [.node k ps]) :
    k ≠ .typeAttributed ∧
      (k = .typeFunction → suffixKind? (primaryType (type : Rule n) ws h).rest = none) := by
  unfold primaryType Rule.ifAt at hps ⊢
  split at hps
  · next hparen =>
    rw [if_pos hparen]
    cases ws with
    | nil => cases hparen
    | cons w r =>
      have hr := Nat.lt_of_succ_lt_succ h
      cases hat : atFunctionTail (tupleElements (type : Rule n) r hr).rest with
      | true =>
        rw [tupleOrFunctionType_of_function h hat] at hps ⊢
        obtain ⟨rfl, -⟩ := Sketch.node.inj (List.cons.inj hps).1
        exact ⟨by decide, fun _ => suffixKind?_rest_functionTypeTail _ _⟩
      | false =>
        rw [tupleOrFunctionType_of_tuple h hat] at hps
        obtain ⟨rfl, -⟩ := Sketch.node.inj (List.cons.inj hps).1
        exact ⟨by decide, fun hk => absurd hk (by decide)⟩
  split at hps
  · cases ws with
    | nil => cases hps
    | cons w r =>
      rw [collectionType_cons h rfl] at hps
      obtain ⟨rfl, -⟩ := Sketch.node.inj (List.cons.inj hps).1
      split
      · exact ⟨by decide, fun hk => absurd hk (by decide)⟩
      · exact ⟨by decide, fun hk => absurd hk (by decide)⟩
  split at hps
  · obtain ⟨rfl, -⟩ := Sketch.node.inj (List.cons.inj hps).1
    exact ⟨by decide, fun hk => absurd hk (by decide)⟩
  · cases hps

/-- With even spaces, suffixes behind the last word of a type are joined to it. -/
theorem joined_of_evenly {x : Word} {sfx : List Word} (hx : x.kind ∈ typeEnds)
    (heven : (x :: sfx).IsChain Word.Evenly) (hsuffix : ∀ w ∈ sfx, w.kind ∈ [.question, .bang]) :
    ∀ w ∈ sfx, w.joined = true := by
  have hspace : ∀ j ∈ typeEnds, ∀ k ∈ [Kind.question, .bang], j.needsSpace k = false := by decide
  have hends : ∀ k ∈ [Kind.question, .bang], k ∈ typeEnds := by decide
  induction sfx generalizing x with
  | nil => simp
  | cons w r ih =>
    obtain ⟨hw, hr⟩ := List.forall_mem_cons.1 hsuffix
    obtain ⟨hjoined, hrest⟩ := List.isChain_cons_cons.1 heven
    refine List.forall_mem_cons.2 ⟨?_, ih (hends _ hw) hrest hr⟩
    rw [hjoined, hspace _ hx _ hw]
    rfl

theorem kind_of_suffixKind? {k : Kind} {w : Word} {r : List Word}
    (h : suffixKind? (w :: r) = some k) : w.kind ∈ [.question, .bang] := by
  simp only [suffixKind?, at?, kind?] at h
  grind

/-- All that suffixes wrap was taken with them. -/
theorem kinds_of_wrapSuffixes {ss ts : List Sketch} {sfx : List Word}
    (h : wrapSuffixes ss sfx = (ts, [])) : ∀ w ∈ sfx, w.kind ∈ [.question, .bang] := by
  fun_induction wrapSuffixes ss sfx with
  | case1 => simp
  | case2 ss w r k hk ih => exact List.forall_mem_cons.2 ⟨kind_of_suffixKind? hk, ih h⟩
  | case3 => cases congrArg Prod.snd h

/-- Suffixes that are told again, each joined to what stands before it, wrap a type again. -/
theorem reads_withSuffixes {ws : List Word} {p : Parsed ws} {ss ts : List Sketch}
    {sfx sfx' : List Word} (hp : p.Reads (treesOfAll ss) (sfx' ++ vs))
    (hwrap : wrapSuffixes ss sfx = (ts, [])) (htold : sfx'.map Word.lexeme = sfx.map Word.lexeme)
    (hjoined : ∀ w ∈ sfx', w.joined = true) (hvs : suffixKind? vs = none) :
    (withSuffixes p).Reads (treesOfAll ts) vs := by
  -- each suffix wraps what was read so far, so the induction is over all such `p`
  induction sfx generalizing ss sfx' p with
  | nil =>
    obtain rfl := List.map_eq_nil_iff.1 htold
    obtain rfl : ss = ts := congrArg Prod.fst hwrap
    have hnone : wrapSuffixes p.sketches p.rest = (p.sketches, p.rest) := by
      rw [hp.rest]
      exact wrapSuffixes_of_none _ hvs
    have hsame : withSuffixes p = p := by
      cases p
      simp only at hnone
      simp only [withSuffixes, hnone]
    rwa [hsame]
  | cons w r ih =>
    obtain ⟨v, r', rfl, hv, hr⟩ := List.map_eq_cons_iff.1 htold
    obtain ⟨hvjoined, hrjoined⟩ := List.forall_mem_cons.1 hjoined
    rw [wrapSuffixes] at hwrap
    split at hwrap
    · next k hk =>
      have hk' : suffixKind? (v :: (r' ++ vs)) = some k := by
        simp only [suffixKind?, at?, kind?, isJoined, List.head?_cons, Option.map_some,
          kind_congr hv, Option.any_some, hvjoined] at hk ⊢
        grind
      let suffix : Parsed p.rest := ⟨[.word v], r' ++ vs, hp.rest.symm⟩
      have hsuffix : suffix.Reads [w.tree] (r' ++ vs) :=
        ⟨⟨True.intro, True.intro⟩, congrArg ([·]) (tree_congr hv), rfl⟩
      have hstep : wrapSuffixes p.sketches p.rest =
          wrapSuffixes [.node k (p.sketches ++ [.word v])] (r' ++ vs) := by
        rw [hp.rest, List.cons_append, wrapSuffixes, hk']
      have hnext : withSuffixes p = withSuffixes ((p.append suffix).node k) := by
        simp only [withSuffixes, hstep]
        rfl
      have hwrapped := (hp.append hsuffix).node k
      have htrees : treesOfAll [.node k (ss ++ [.word w])] =
          [.node k (treesOfAll ss ++ [w.tree])] := by
        rw [treesOfAll, Sketch.trees, treesOfAll_append]
        rfl
      rw [hnext]
      rw [← htrees] at hwrapped
      exact ih hwrapped hwrap hr hrjoined
    · cases congrArg Prod.snd hwrap

/-- What suffixes wrap is told again before them. -/
theorem Parsed.Told.of_wrapped {ws : List Word} {p q : Parsed ws} {sfx : List Word}
    (hwrap : wrapSuffixes p.sketches sfx = (q.sketches, [])) (hrest : p.rest = sfx ++ q.rest)
    (htold : q.Told ks us vs) : ∃ us₁ us₂, us = us₁ ++ us₂ ∧
      us₂.map Word.lexeme = sfx.map Word.lexeme ∧ p.Told [] us₁ (us₂ ++ vs) := by
  induction sfx generalizing p with
  | nil =>
    obtain rfl : p = q := by
      cases p
      cases q
      cases hwrap
      cases hrest
      rfl
    exact ⟨us, [], (List.append_nil us).symm, rfl, htold.mono (List.nil_subset _)⟩
  | cons w r ih =>
    rw [wrapSuffixes] at hwrap
    split at hwrap
    · next k hk =>
      let suffix : Parsed p.rest := ⟨[.word w], r ++ q.rest, hrest.symm⟩
      obtain ⟨us₁, us₂, rfl, htold₂, hwrapped⟩ := ih (p := (p.append suffix).node k) hwrap rfl
      obtain ⟨us₁, us₃, rfl, hp, hsuffix⟩ := hwrapped.node.split
      refine ⟨us₁, us₃ ++ us₂, List.append_assoc .., ?_, ?_⟩
      · rw [List.map_append, htold₂, hsuffix.taken]
        rfl
      · rwa [List.append_assoc]
    · cases congrArg Prod.snd hwrap

/-- The words that some suffixes wrap end as types do. -/
theorem exists_last_of_primaryType {ws : List Word} (h : ws.length < n + 1)
    (hclean : CleanAll (primaryType (type : Rule n) ws h).sketches)
    (htaken : us.map Word.lexeme =
      (wordsOfAll (primaryType (type : Rule n) ws h).sketches).map Word.lexeme) :
    ∃ x, us.getLast? = some x ∧ x.kind ∈ typeEnds := by
  have hyields := yields_primaryType yields_type ws h rfl hclean
  obtain ⟨k, hk, hparts⟩ := hyields.parts
  obtain ⟨t, ts, htrees, hpart, hnil⟩ := List.map_eq_cons_iff.1 hparts
  obtain rfl := List.map_eq_nil_iff.1 hnil
  have hregular := Sketch.regular_treesOfAll hyields.regular
  have htokens := tokens_treesOfAll (primaryType (type : Rule n) ws h).sketches
  rw [htrees] at hregular htokens
  cases t with
  | token => cases hpart
  | node j cs =>
    obtain rfl : j = k := Part.node.inj hpart
    obtain ⟨l, hl, hend⟩ := Tree.exists_lastWord hregular.1 (List.mem_append_left _ hk)
    rw [← htaken] at htokens
    have hlast : us.getLast?.map Word.lexeme = some l := by
      rw [← List.getLast?_map, ← htokens]
      simpa [Tree.tokensOfAll, Tree.tokens] using hl
    obtain ⟨x, hx, rfl⟩ := Option.map_eq_some_iff.1 hlast
    exact ⟨x, hx, hend⟩

theorem suffixKind?_of_apart (h : ∀ w ∈ vs.head?, w.kind ∉ joinedKinds) :
    suffixKind? vs = none := by
  cases vs with
  | nil => rfl
  | cons w r =>
    have hw : w.kind ∉ joinedKinds := h w rfl
    have hnone : w.kind ≠ .question ∧ w.kind ≠ .bang := by
      simp only [joinedKinds, List.mem_cons, not_or] at hw
      exact ⟨hw.1, hw.2.1⟩
    simp [suffixKind?, at?, kind?, hnone]

/-- The suffixes that are taken, apart from what is left behind them. -/
theorem exists_suffixes (ss : List Sketch) (ws : List Word) :
    ∃ sfx, ws = sfx ++ (wrapSuffixes ss ws).2 ∧
      wrapSuffixes ss sfx = ((wrapSuffixes ss ws).1, []) := by
  fun_induction wrapSuffixes ss ws with
  | case1 ss => exact ⟨[], rfl, rfl⟩
  | case2 ss w r k hk ih =>
    obtain ⟨sfx, hr, hwrap⟩ := ih
    have hk' : suffixKind? (w :: sfx) = some k := hk
    refine ⟨w :: sfx, congrArg (w :: ·) hr, ?_⟩
    rw [wrapSuffixes, hk']
    exact hwrap
  | case3 ss w r hk => exact ⟨[], rfl, rfl⟩

section

variable (hin : Retells joinedKinds (type : Rule n) (type : Rule m))

include hin

/-- A type that some suffixes wrap is read again with these suffixes. -/
theorem reads_wrapped {ws sfx : List Word} (h : ws.length < n + 1) {q : Parsed ws}
    (hwrap : wrapSuffixes (primaryType (type : Rule n) ws h).sketches sfx = (q.sketches, []))
    (hrest : (primaryType (type : Rule n) ws h).rest = sfx ++ q.rest)
    (htold : q.Told joinedKinds us vs) :
    Reads (suffixedType type : Rule (m + 1)) (us ++ vs) (treesOfAll q.sketches) vs := by
  obtain ⟨us₁, us₂, rfl, htold₂, hprimary⟩ := htold.of_wrapped hwrap hrest
  have hreads : Reads (primaryType type : Rule (m + 1)) (us₁ ++ (us₂ ++ vs))
      (treesOfAll (primaryType type ws h).sketches) (us₂ ++ vs) := by
    cases sfx with
    | nil =>
      obtain rfl := List.map_eq_nil_iff.1 htold₂
      exact reads_primaryType hin h { hprimary with apart := htold.apart }
        fun _ => List.Subset.refl _
    | cons w r =>
      refine reads_primaryType hin h hprimary ?_
      rintro ⟨ps, hps⟩
      have hnone := (node_of_primaryType h hps).2 rfl
      rw [hrest] at hnone
      have hnone' : suffixKind? (w :: r) = none := hnone
      rw [wrapSuffixes, hnone'] at hwrap
      cases congrArg Prod.snd hwrap
  have hjoined : ∀ w ∈ us₂, w.joined = true := by
    obtain ⟨x, hx, hend⟩ := exists_last_of_primaryType h hprimary.clean hprimary.taken
    obtain ⟨front, rfl⟩ := List.getLast?_eq_some_iff.1 hx
    have heven := htold.evenly
    rw [List.append_assoc, List.append_assoc] at heven
    have hsuffixes : ((x :: us₂) ++ vs).IsChain Word.Evenly := heven.right_of_append
    refine joined_of_evenly hend hsuffixes.left_of_append fun w hw => ?_
    obtain ⟨v, hv, hlexeme⟩ := List.mem_map.1 (htold₂ ▸ List.mem_map_of_mem hw)
    rw [← kind_congr hlexeme]
    exact kinds_of_wrapSuffixes hwrap v hv
  rw [List.append_assoc]
  exact fun h' => reads_withSuffixes (hreads h') hwrap htold₂ hjoined
    (suffixKind?_of_apart htold.apart)

theorem retells_suffixedType :
    Retells joinedKinds (suffixedType (type : Rule n)) (suffixedType (type : Rule m)) := by
  intro ws us vs h htold
  obtain ⟨sfx, hrest, hwrap⟩ := exists_suffixes (primaryType (type : Rule n) ws h).sketches
    (primaryType (type : Rule n) ws h).rest
  exact reads_wrapped hin h (q := suffixedType type ws h) hwrap hrest htold

theorem retells_ampersands :
    Retells joinedKinds (whileAt (at? .ampersand) (suffixedType (type : Rule n)))
      (whileAt (at? .ampersand) (suffixedType (type : Rule m))) := by
  refine (retells_suffixedType hin).whileAt (reaches_at? _) (fun w r h hat hclean => ?_)
    (fun w r hat => by rw [kind_of_at? hat]; decide) (List.Subset.refl _)
  have := (firm_suffixedType firm_type r h rfl hclean).2
  simp only [List.length_cons]
  omega

omit hin in
theorem composedType_of_ampersand {ws : List Word} (h : ws.length < n + 1)
    (hat : at? .ampersand (suffixedType (type : Rule n) ws h).rest = true) :
    composedType type ws h = node .typeComposition (suffixedType type >>
      whileAt (at? .ampersand) (suffixedType type)) ws h := if_pos hat

omit hin in
theorem composedType_of_not {ws : List Word} (h : ws.length < n + 1)
    (hat : at? .ampersand (suffixedType (type : Rule n) ws h).rest = false) :
    composedType type ws h = suffixedType type ws h := if_neg (Bool.not_eq_true _ ▸ hat)

theorem retells_composedType :
    Retells joinedKinds (composedType (type : Rule n)) (composedType (type : Rule m)) := by
  intro ws us vs h htold
  have hsuffixed := retells_suffixedType hin
  cases hat : at? .ampersand (suffixedType (type : Rule n) ws h).rest with
  | true =>
    rw [composedType_of_ampersand h hat] at htold ⊢
    have hapart : StartsApart joinedKinds
        (whileAt (at? .ampersand) (suffixedType (type : Rule n))) :=
      StartsApart.whileAt fun w r hat => by
        rw [kind_of_at? hat]
        decide
    have hsub : joinedKinds ⊆ joinedKinds := List.Subset.refl _
    have hreads := ((hsuffixed.seq (retells_ampersands hin) hapart (.inl hsub)).node
      .typeComposition) h htold
    intro h'
    obtain ⟨-, hclean⟩ := cleanAll_append.1 htold.node.clean
    have hat' := hsuffixed.at_rest htold.node (hapart _ _ hclean) (.inl hsub)
      (reaches_at? .ampersand) (fun hat => wordsOfAll_whileAt_ne_nil rfl hat) h'
    rw [composedType_of_ampersand h' (hat'.trans hat)]
    exact hreads h'
  | false =>
    rw [composedType_of_not h hat] at htold ⊢
    have hreads := hsuffixed h htold
    intro h'
    have hat' : at? .ampersand (suffixedType (type : Rule m) (us ++ vs) h').rest = false := by
      rw [(hreads h').rest]
      exact htold.left_eq_false (reaches_at? _) hat
    rw [composedType_of_not h' hat']
    exact hreads h'

/-! ## prefixes -/

omit hin in
theorem retells_typeAttributes :
    Retells ks (typeAttributes : Rule n) (typeAttributes : Rule m) := by
  have hnone : Retells [] (done : Rule n) (done : Rule m) := retells_done
  have howners : Retells [] (whileAt atOwnership done : Rule n)
      (whileAt atOwnership done : Rule m) :=
    hnone.whileAt (reaches_one rfl fun _ _ => rfl)
      (fun _ _ _ _ _ => Nat.le_refl _) (fun _ _ _ => List.not_mem_nil) (List.nil_subset _)
  exact (retells_attributeList.ifAt retells_bump (reaches_at? _) firm_attributeList.takes).before
    (howners.before retells_attributeList)

theorem retells_typeWith :
    Retells joinedKinds (typeWith (type : Rule n)) (typeWith (type : Rule m)) := by
  have hafter (k : Kind) : Retells joinedKinds (node k (Rule.after (type : Rule n)))
      (node k (Rule.after (type : Rule m))) := hin.after.node k
  have hfirm (k : Kind) : Firm (atName ["some"]) (node k (Rule.after (type : Rule n))) :=
    ((firm_after firm_type.solid).of_atWord rfl).node k
  have hconstraint : Reaches 2 atConstraint :=
    (reaches_atName _).and_tail (reaches_atAny [.identifier, .kwSelfType, .openParen, .openBracket])
  -- the types without `some` or `any` in front
  have hothers : Retells joinedKinds
      (Rule.ifAt atTypeAttribute (attributedType type) (composedType (type : Rule n)))
      (Rule.ifAt atTypeAttribute (attributedType type) (composedType (type : Rule m))) := by
    intro ws us vs h htold
    have hreaches : Reaches 1 atTypeAttribute := reaches_one rfl fun _ _ => rfl
    unfold Rule.ifAt at htold ⊢
    cases hws : atTypeAttribute ws with
    | true =>
      simp only [hws, if_true] at htold ⊢
      have hat := (firm_attributedType firm_type).takes.at_eq hreaches htold
      exact ((retells_typeAttributes.advancing hin _ _ hreaches h hws htold.node).node _).ifAt
        (hat.trans hws)
    | false =>
      simp only [hws, Bool.false_eq_true, if_false] at htold ⊢
      exact (retells_composedType hin h htold).ifAt_not
        ((htold.at_eq hreaches (by simp [hws])).trans hws)
  refine ((hafter _).ifAt (hafter _) (reaches_atName _) (hfirm _).takes).ifAt hothers hconstraint ?_
  intro ws h hat hclean
  cases ws with
  | nil => cases hat
  | cons w r =>
    have hword (k : Kind)
        (hclean : CleanAll (node k (Rule.after (type : Rule n)) (w :: r) h).sketches) :
        (node k (Rule.after (type : Rule n)) (w :: r) h).rest.length + 2 ≤ (w :: r).length :=
      Nat.succ_le_succ (firm_typeFrom r hclean.1.2).2
    unfold Rule.ifAt at hclean ⊢
    split at hclean
    · next hsome =>
      rw [if_pos hsome]
      exact hword _ hclean
    · next hsome =>
      rw [if_neg hsome]
      exact hword _ hclean

end

/-- The rule for types reads again what it took without a fault. -/
theorem reads_typeFrom_of_told {ws us vs : List Word}
    (htold : (typeFrom ws).Told joinedKinds us vs) :
    (typeFrom (us ++ vs)).Reads (treesOfAll (typeFrom ws).sketches) vs := by
  induction hlen : ws.length using Nat.strongRecOn generalizing ws us vs with
  | ind l ih =>
    subst hlen
    have hin : Retells joinedKinds (type : Rule ws.length) (type : Rule (us ++ vs).length) :=
      fun r us vs h htold h' => ih _ h htold rfl
    rw [typeFrom.eq_1 ws] at htold ⊢
    rw [typeFrom.eq_1 (us ++ vs)]
    exact retells_typeWith hin _ htold _

theorem retells_type : Retells joinedKinds (type : Rule n) (type : Rule m) :=
  fun _ _ _ _ htold _ => reads_typeFrom_of_told htold

/-! ## nodes of types -/

/-- A type without prefixes starts with a name, a bracket or a parenthesis. -/
theorem start_of_primaryType {w : Word} {r : List Word} {h : (w :: r).length < n + 1}
    (hclean : CleanAll (primaryType (type : Rule n) (w :: r) h).sketches) :
    w.kind ∈ [.openParen, .openBracket, .identifier, .kwSelfType, .kwClass, .kwProtocol] := by
  unfold primaryType Rule.ifAt at hclean
  split at hclean
  · next hat => simp [kind_of_at? hat]
  split at hclean
  · next hat => simp [kind_of_at? hat]
  split at hclean
  · next hat =>
    simp only [atAny, kind?, List.head?_cons, Option.map_some, Option.any_some] at hat
    grind
  · exact hclean.2.1.elim

/-- Suffixes make no attributed type of another one. -/
theorem kind_of_wrapSuffixes {ss ps : List Sketch} {sfx : List Word} {k : Kind}
    (h : wrapSuffixes ss sfx = ([.node k ps], [])) (hss : ∀ ps, ss ≠ [.node .typeAttributed ps]) :
    k ≠ .typeAttributed := by
  fun_induction wrapSuffixes ss sfx with
  | case1 ss =>
    rintro rfl
    exact hss ps (congrArg Prod.fst h)
  | case2 ss w r k' hk ih =>
    refine ih h fun ps hps => ?_
    obtain rfl : k' = .typeAttributed := (Sketch.node.inj (List.cons.inj hps).1).1
    simp only [suffixKind?] at hk
    grind
  | case3 => cases congrArg Prod.snd h

/-- Words that are all read as a type without prefixes are not read as a constraint. -/
theorem atConstraint_of_suffixedType {ws : List Word} {ts : List Tree}
    (h : Reads (suffixedType type : Rule (ws.length + 1)) ws ts []) : atConstraint ws = false := by
  by_contra hat
  rcases ws with _ | ⟨w, _ | ⟨v, r⟩⟩
  · simp [atConstraint, atName] at hat
  · simp [atConstraint, atAny, kind?] at hat
  · simp only [atConstraint, atName, atAny, kind?, List.tail_cons, Bool.not_eq_false,
      Bool.and_eq_true, beq_iff_eq, List.head?_cons, Option.map_some, Option.any_some,
      List.contains_iff_mem] at hat
    have hname := reads_suffixedType_name (n := (w :: v :: r).length) hat.1.1
      (before_cons hat.2 r) (by decide)
    have hlt := Nat.lt_succ_self (w :: v :: r).length
    cases (hname hlt).rest.symm.trans (h hlt).rest

end Grammar

open Grammar Rule
open Sketch (CleanAll treesOfAll wordsOfAll)

/-- Words that tell a node of a type again, with even spaces that show which attributes in it have
arguments. A word on ownership at their start belongs to the type. -/
structure Sketch.RetoldBy (k : Kind) (ps : List Sketch) (ws : List Word) : Prop where
  words : ws.map Word.lexeme = (wordsOfAll ps).map Word.lexeme
  evenly : ws.IsChain Word.Evenly
  shown : (Tree.node k (treesOfAll ps)).showsArguments [] = true
  owner : atName ownershipNames ws = true → k = .typeAttributed

namespace Sketch.RetoldBy

variable {n : Nat} {k : Kind} {ps : List Sketch} {ws us : List Word}

theorem told {p : Parsed ws} (h : RetoldBy k ps us) (hps : p.sketches = [.node k ps])
    (hclean : CleanAll ps) : p.Told joinedKinds us [] where
  clean := by
    rw [hps]
    exact ⟨hclean, True.intro⟩
  taken := by simp [hps, h.words]
  left := List.nil_prefix
  evenly := by rw [List.append_nil]; exact h.evenly
  shown := by
    rw [hps]
    exact Bool.and_eq_true_iff.2 ⟨h.shown, rfl⟩
  apart := by simp

/-- A type is read again as it was read. -/
theorem reads_typeFrom (h : RetoldBy k ps us) (hps : (typeFrom ws).sketches = [.node k ps])
    (hclean : CleanAll ps) : (typeFrom us).Reads [.node k (treesOfAll ps)] [] := by
  have hreads := reads_typeFrom_of_told (h.told hps hclean)
  rw [List.append_nil, hps] at hreads
  exact hreads

/-- A type with some of its suffixes is read again alone. -/
theorem reads_wrapped {sfx vs : List Word} {hlt : ws.length < n + 1} (h : RetoldBy k ps us)
    (hrest : (primaryType type ws hlt).rest = sfx ++ vs)
    (hwrap : wrapSuffixes (primaryType type ws hlt).sketches sfx = ([.node k ps], []))
    (hclean : CleanAll ps) : (typeFrom us).Reads [.node k (treesOfAll ps)] [] := by
  have hcovers : wordsOfAll [.node k ps] ++ vs = ws := by
    have hwords := wordsOfAll_wrapSuffixes (primaryType type ws hlt).sketches sfx
    rw [hwrap, List.append_nil] at hwords
    rw [hwords, List.append_assoc, ← hrest, Parsed.covers]
  let q : Parsed ws := ⟨[.node k ps], vs, hcovers⟩
  have hsuffixed {m : Nat} : Reads (suffixedType type : Rule (m + 1)) us
      [.node k (treesOfAll ps)] [] := by
    have hreads := Grammar.reads_wrapped (m := m) retells_type hlt (q := q) hwrap hrest
      (h.told rfl hclean)
    rwa [List.append_nil] at hreads
  have hconstraint := atConstraint_of_suffixedType (hsuffixed (m := us.length))
  have hstart := cleanAll_of_wrapSuffixes (hsuffixed (Nat.lt_succ_self us.length)).clean
  cases us with
  | nil => exact hstart.2.1.elim
  | cons w r =>
    have hk : k ≠ .typeAttributed :=
      kind_of_wrapSuffixes hwrap fun ps hps => (node_of_primaryType hlt hps).1 rfl
    have hattribute : atTypeAttribute (w :: r) = false := by
      have howner : atName ownershipNames (w :: r) = false := by
        by_contra hat
        exact hk (h.owner (by simpa using hat))
      have hkind := start_of_primaryType hstart
      rw [atTypeAttribute, atOwnership, howner]
      simp [at?, kind?]
      grind
    exact Grammar.reads_typeFrom ((hsuffixed.composedType rfl).typeWith hconstraint hattribute)

/-- The tuple of a function type is read again alone. -/
theorem reads_tuple {w : Word} {r : List Word} {hlt : r.length < n} (hw : w.kind = .openParen)
    (h : RetoldBy .typeTuple (Parsed.cons w (tupleElements type r hlt)).sketches us)
    (hclean : CleanAll (Parsed.cons w (tupleElements type r hlt)).sketches) :
    (typeFrom us).Reads
      [.node .typeTuple (treesOfAll (Parsed.cons w (tupleElements type r hlt)).sketches)] [] := by
  obtain ⟨v, us', rfl, hv, -⟩ := List.map_eq_cons_iff.1 h.words
  have hopen : v.kind = .openParen := (kind_congr hv).trans hw
  have hlt' : (w :: r).length < n + 1 := Nat.succ_lt_succ hlt
  have htold : (Rule.node .typeTuple (Rule.after (tupleElements type)) (w :: r) hlt').Told
      joinedKinds (v :: us') [] := h.told rfl hclean
  have hreads {m : Nat} :
      Reads (Rule.node .typeTuple (Rule.after (tupleElements type)) : Rule (m + 1))
        (v :: us' ++ []) _ [] := ((retells_tupleElements retells_type).after.node _) hlt' htold
  rw [List.append_nil] at hreads
  exact reads_typeFrom_of_suffixed ((Rule.Reads.parenthesized (Grammar.reads_tuple hreads rfl)
    hopen).suffixedType rfl) (by simp [isPrefix, hopen]) (by simp [Before])

end Sketch.RetoldBy

/-- A type is read again from words that tell it again. -/
def NestedLaw.rereads : NestedLaw := fun _ k ps _ =>
  k ∈ Kind.types → CleanAll ps → ∀ us, Sketch.RetoldBy k ps us →
    (typeFrom us).Reads [.node k (treesOfAll ps)] []

theorem NestedLaw.rereads_of_not_mem {above : List Frame} {k : Kind} {ps : List Sketch}
    {rest : List Word} (hk : k ∉ Kind.types) : NestedLaw.rereads above k ps rest :=
  fun htype => absurd htype hk

theorem local_rereads : NestedLaw.rereads.Local where
  free hk _ _ _ := by
    have hnoted : ∀ k ∈ Kind.types, k.isNoted = true := by decide
    exact NestedLaw.rereads_of_not_mem fun htype => by simp [hnoted _ htype] at hk
  types _ hmade _ := by
    intro _ hclean us h
    cases hmade with
    | whole hps => exact h.reads_typeFrom hps hclean
    | suffixed _ hrest hwrap => exact h.reads_wrapped hrest hwrap hclean
    | tuple _ hw => exact h.reads_tuple hw hclean
  made hmade := NestedLaw.rereads_of_not_mem hmade.notMem_types

/-- A type of a source file without faults is read again from its words with even spaces that show
which attributes in it have arguments, unless a word on ownership at its start is a name of the
type. -/
theorem Site.reads_typeFrom {source : String} (hclean : (parse source).faults = []) {s : Site}
    (hs : s ∈ all (parse source).tree) (hk : s.node.tree.isType = true) {us : List Word}
    (hwords : us.map Word.lexeme = s.node.tree.allWords) (heven : us.IsChain Word.Evenly)
    (hshown : s.node.tree.bare.showsArguments [] = true)
    (howner : atName ownershipNames us = true → s.node.kind = .typeAttributed) :
    (typeFrom us).Reads [s.node.tree.bare] [] := by
  have htype : s.node.kind ∈ Kind.types := Kind.mem_types (Bool.and_eq_true_iff.1 hk).2
  have hroot : s.node.kind ≠ .sourceFile := fun h => absurd (h ▸ htype) (by decide)
  obtain ⟨e, he, heq⟩ := Site.exists_nest hs hroot
  obtain ⟨parts, hlaid, -, hlaw, hparts⟩ := local_rereads.clean_of_mem_fileNests hclean he
  rw [heq] at hlaid hlaw
  rw [hlaid.bare] at hshown ⊢
  exact hlaw htype hparts us ⟨hwords.trans hlaid.allWords, heven, hshown, howner⟩

end SwiftOutline

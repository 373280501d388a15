import SwiftOutline.Proofs.Enclosed
import SwiftOutline.Proofs.Spelling

/-!
# SwiftOutline.Proofs.Alone

A type that takes all words without a fault reads as the same type wherever types may stand.

* `isType_of_clean` — it does so before every closing mark;
* `alike_typeFrom`, `IsType.rejoined` — whether its first word is joined to what stands before it
  makes no difference;
* `Parts.EndsWith`, `Tree.exists_lastWord` — by the rows that the nodes of types have, its last word
  is a name, `Self`, a closing mark or a suffix;
* `spells_of_clean` — so a text spells the type that it is read as alone.
-/

namespace SwiftOutline

open Sketch (CleanAll treesOfAll unjoinedAll)

namespace Sketch

mutual

theorem trees_unjoined (s : Sketch) : s.unjoined.trees = s.trees := by
  cases s with
  | word w => rfl
  | node k ps => rw [unjoined, trees, trees, treesOfAll_unjoined ps]
  | fault f => rfl
  | gap => rfl

theorem treesOfAll_unjoined (ss : List Sketch) : treesOfAll (unjoinedAll ss) = treesOfAll ss := by
  cases ss with
  | nil => rfl
  | cons s ss => rw [unjoinedAll, treesOfAll, treesOfAll, trees_unjoined s, treesOfAll_unjoined ss]

end

mutual

theorem clean_unjoined (s : Sketch) : s.unjoined.Clean ↔ s.Clean := by
  cases s with
  | word w => rfl
  | node k ps => exact cleanAll_unjoined ps
  | fault f => rfl
  | gap => rfl

theorem cleanAll_unjoined (ss : List Sketch) : CleanAll (unjoinedAll ss) ↔ CleanAll ss := by
  cases ss with
  | nil => rfl
  | cons s ss => exact and_congr (clean_unjoined s) (cleanAll_unjoined ss)

end

end Sketch

namespace Grammar

open Rule

/-! ## the first word -/

theorem Parsed.Alike.reads {ws ws' : List Word} {p : Parsed ws} {q : Parsed ws'} {ts : List Tree}
    {rest : List Word} (h : p.Alike Eq q) (hp : p.Reads ts rest) : q.Reads ts rest where
  clean := by
    rw [← Sketch.cleanAll_unjoined, h.sketches, Sketch.cleanAll_unjoined]
    exact hp.clean
  trees := by
    rw [← Sketch.treesOfAll_unjoined, h.sketches, Sketch.treesOfAll_unjoined]
    exact hp.trees
  rest := h.rest ▸ hp.rest

section

variable {n : Nat} {inside : Rule n} {ws ws' : List Word}

theorem unaware_atAny (ks : List Kind) : Unaware (atAny ks) := fun _ _ _ _ => rfl

theorem fresh_path : Fresh (path inside) := ((fresh_after _).node _).seq _ |>.node _

theorem fresh_collectionType : Fresh (collectionType inside) := by
  intro ws ws' h h' hws
  cases hws with
  | same => exact ⟨rfl, rfl⟩
  | first w j l r =>
    unfold collectionType onWord
    dsimp only
    split <;> exact ⟨rfl, rfl⟩

theorem fresh_tupleOrFunctionType : Fresh (tupleOrFunctionType inside) := by
  intro ws ws' h h' hws
  cases hws with
  | same => exact ⟨rfl, rfl⟩
  | first w j l r =>
    unfold tupleOrFunctionType onWord
    dsimp only
    split <;> exact ⟨rfl, rfl⟩

/-- What starts no type is at fault, and all else takes the first word. -/
theorem alike_primaryType (hws : Rejoined ws ws') {h : ws.length < n + 1} (h' : ws'.length < n + 1)
    (hclean : CleanAll (primaryType inside ws h).sketches) :
    (primaryType inside ws h).Alike Eq (primaryType inside ws' h') := by
  unfold primaryType Rule.ifAt at hclean ⊢
  rw [(unaware_at? _).eq hws, (unaware_at? _).eq hws, (unaware_atAny _).eq hws]
  split
  · exact fresh_tupleOrFunctionType ws ws' h h' hws
  split
  · exact fresh_collectionType ws ws' h h' hws
  split
  · exact fresh_path ws ws' h h' hws
  · next hparen hbracket hname =>
    rw [if_neg hparen, if_neg hbracket, if_neg hname] at hclean
    exact hclean.2.1.elim

theorem unjoinedAll_wrapSuffixes {ss ts : List Sketch} (h : unjoinedAll ts = unjoinedAll ss)
    (ws : List Word) :
    unjoinedAll (wrapSuffixes ts ws).1 = unjoinedAll (wrapSuffixes ss ws).1 ∧
      (wrapSuffixes ts ws).2 = (wrapSuffixes ss ws).2 := by
  fun_induction wrapSuffixes ss ws generalizing ts with
  | case1 ss => exact ⟨h, rfl⟩
  | case2 ss w r k hk ih =>
    rw [wrapSuffixes, hk]
    refine ih ?_
    show [Sketch.node k (unjoinedAll (ts ++ [.word w]))] = [.node k (unjoinedAll (ss ++ [.word w]))]
    rw [Sketch.unjoinedAll_append, Sketch.unjoinedAll_append, h]
  | case3 ss w r hk =>
    rw [wrapSuffixes, hk]
    exact ⟨h, rfl⟩

theorem alike_suffixedType (hws : Rejoined ws ws') {h : ws.length < n + 1} (h' : ws'.length < n + 1)
    (hclean : CleanAll (suffixedType inside ws h).sketches) :
    (suffixedType inside ws h).Alike Eq (suffixedType inside ws' h') := by
  have hprimary := alike_primaryType hws h' (cleanAll_of_wrapSuffixes hclean)
  have hwrap := unjoinedAll_wrapSuffixes hprimary.sketches (primaryType inside ws h).rest
  constructor
  · show unjoinedAll (wrapSuffixes _ (primaryType inside ws' h').rest).1 = _
    rw [← hprimary.rest, hwrap.1]
    rfl
  · show _ = (wrapSuffixes _ (primaryType inside ws' h').rest).2
    rw [← hprimary.rest, hwrap.2]
    rfl

theorem alike_composedType (hws : Rejoined ws ws') {h : ws.length < n + 1} (h' : ws'.length < n + 1)
    (hclean : CleanAll (composedType inside ws h).sketches) :
    (composedType inside ws h).Alike Eq (composedType inside ws' h') := by
  unfold composedType at hclean ⊢
  dsimp only at hclean ⊢
  have hfirst : CleanAll (suffixedType inside ws h).sketches := by
    split at hclean
    · exact (Sketch.cleanAll_append.1 hclean.1).1
    · exact hclean
  have hleft := alike_suffixedType hws h' hfirst
  have hat : at? .ampersand (suffixedType inside ws' h').rest =
      at? .ampersand (suffixedType inside ws h).rest := by rw [hleft.rest]
  rw [hat]
  split
  · exact (hleft.append (alike_of_eq _ _ _ hleft.rest)).node _
  · exact hleft

/-- Where a loop runs at all, it takes the first word. -/
theorem alike_many {c : List Word → Bool} {p : Rule n} (hc : Unaware c) (hp : Fresh p)
    (ha : Advances c p) (hws : Rejoined ws ws') {h : ws.length < n} (h' : ws'.length < n)
    (hcw : c ws = true) : (many c p ha ws h).Alike Eq (many c p ha ws' h') := by
  have hat := hc.eq hws
  unfold Rule.many
  rw [dif_pos hcw, dif_pos (hat.trans hcw)]
  have hfirst := hp ws ws' h h' hws
  exact hfirst.append ((many c p ha).alike_of_eq _ _ hfirst.rest)

theorem alike_typeAttributes (hws : Rejoined ws ws') {h : ws.length < n} (h' : ws'.length < n) :
    ((typeAttributes : Rule n) ws h).Alike Eq ((typeAttributes : Rule n) ws' h') := by
  have hfirst : ((Rule.ifAt (at? .atSign) attributeList bump : Rule n) ws h).Alike Eq
      ((Rule.ifAt (at? .atSign) attributeList bump : Rule n) ws' h') := by
    have hat := (unaware_at? .atSign).eq hws
    unfold Rule.ifAt
    rw [hat]
    split
    · next hsign =>
      unfold attributeList Rule.optional Rule.ifAt
      rw [if_pos hsign, if_pos (hat.trans hsign)]
      exact (alike_many (unaware_at? _) ((fresh_bump.seq _).node _) _ hws h' hsign).node _
    · exact fresh_bump ws ws' h h' hws
  exact hfirst.append (alike_of_eq _ _ _ hfirst.rest)

theorem alike_attributedType (hws : Rejoined ws ws') {h : ws.length < n + 1}
    (h' : ws'.length < n + 1) (hat : atTypeAttribute ws = true) :
    (attributedType inside ws h).Alike Eq (attributedType inside ws' h') := by
  have hat' : atTypeAttribute ws' = true :=
    (Unaware.eq (f := atTypeAttribute) (fun _ _ _ _ => rfl) hws).trans hat
  refine Parsed.Alike.node ?_ _
  unfold Rule.advancing
  rw [dif_pos hat, dif_pos hat']
  have hfirst := alike_typeAttributes hws (h := h) h'
  exact hfirst.append (alike_of_eq _ _ _ hfirst.rest)

theorem alike_typeWith (hws : Rejoined ws ws') {h : ws.length < n + 1} (h' : ws'.length < n + 1)
    (hclean : CleanAll (typeWith inside ws h).sketches) :
    (typeWith inside ws h).Alike Eq (typeWith inside ws' h') := by
  have hconstraint : Unaware atConstraint := fun _ _ _ _ => rfl
  have hattribute : Unaware atTypeAttribute := fun _ _ _ _ => rfl
  have hsome : Unaware (atName ["some"]) := fun _ _ _ _ => rfl
  unfold typeWith Rule.ifAt at hclean ⊢
  rw [hconstraint.eq hws, hattribute.eq hws, hsome.eq hws]
  split
  · split
    · exact (fresh_after _).node _ ws ws' h h' hws
    · exact (fresh_after _).node _ ws ws' h h' hws
  split
  · next hat => exact alike_attributedType hws h' hat
  · next hnone hat =>
    rw [if_neg hnone, if_neg hat] at hclean
    exact alike_composedType hws h' hclean

end

/-- A type that is read without a fault is read the same whatever its first word is joined to. -/
theorem alike_typeFrom {ws ws' : List Word} (hws : Rejoined ws ws')
    (hclean : CleanAll (typeFrom ws).sketches) : (typeFrom ws).Alike Eq (typeFrom ws') := by
  cases hws with
  | same => exact ⟨rfl, rfl⟩
  | first w j l r =>
    rw [typeFrom] at hclean
    rw [typeFrom.eq_1 (w :: r), typeFrom.eq_1 (_ :: r)]
    exact alike_typeWith (.first w j l r) _ hclean

theorem IsType.rejoined {ws ws' : List Word} {t : Tree} (h : IsType ws t) (hws : Rejoined ws ws') :
    IsType ws' t where
  isType := h.isType
  reads vs hvs := by
    have hreads := h.reads vs hvs
    have hmore : Rejoined (ws ++ vs) (ws' ++ vs) := by
      cases hws with
      | same => exact .same _
      | first w j l r => exact .first w j l (r ++ vs)
    exact (alike_typeFrom hmore hreads.clean).reads hreads

/-! ## all words -/

/-- A type that takes all words without a fault reads so before every closing mark. -/
theorem isType_of_clean {ws : List Word} (hclean : CleanAll (typeFrom ws).sketches)
    (hrest : (typeFrom ws).rest = []) :
    ∃ t, treesOfAll (typeFrom ws).sketches = [t] ∧ IsType ws t := by
  have hyields := yields_typeFrom ws hclean
  obtain ⟨k, hk, hparts⟩ := hyields.parts
  obtain ⟨t, ts, htrees, hpart, hnil⟩ := List.map_eq_cons_iff.1 hparts
  obtain rfl := List.map_eq_nil_iff.1 hnil
  refine ⟨t, htrees, ?_, fun vs hvs => ?_⟩
  · cases t with
    | token => cases hpart
    | node j cs =>
      obtain rfl : j = k := Part.node.inj hpart
      have htypes : ∀ k ∈ Kind.types, k.isType = true := by decide
      exact htypes j hk
  · have hextends := through_type (n := ws.length + 1) (m := (ws ++ vs).length + 1) ws
      (ws ++ vs) (Nat.lt_succ_self _) (Nat.lt_succ_self _) rfl
      ⟨hclean, hyields.gapless, hyields.regular⟩ (.inl hvs)
    refine ⟨?_, ?_, ?_⟩
    · rw [show (typeFrom (ws ++ vs)).sketches = _ from hextends.sketches]
      exact hclean
    · rw [show (typeFrom (ws ++ vs)).sketches = _ from hextends.sketches]
      exact htrees
    · rw [show (typeFrom (ws ++ vs)).rest = _ from hextends.rest]
      exact congrArg (· ++ vs) hrest

end Grammar

/-! ## the last word -/

namespace Parts

open scoped Computability

variable {P : Part → Prop} {L M : Parts}

/-- Every row of a language has a last part of which something holds. -/
def EndsWith (P : Part → Prop) (L : Parts) : Prop := ∀ ps ∈ L, ∃ x ∈ ps.getLast?, P x

/-- Every row of a language has a last part of which something holds, or no part. -/
def MayEndWith (P : Part → Prop) (L : Parts) : Prop := ∀ ps ∈ L, ∀ x ∈ ps.getLast?, P x

theorem endsWith_wordOf {ks : List Kind} (h : ∀ l : Lexeme, l.kind ∈ ks → P (.word l)) :
    EndsWith P (wordOf ks) := by
  rintro _ ⟨l, hl, rfl⟩
  exact ⟨.word l, rfl, h l hl⟩

theorem endsWith_nodeOf {ks : List Kind} (h : ∀ k ∈ ks, P (.node k)) : EndsWith P (nodeOf ks) := by
  rintro _ ⟨k, hk, rfl⟩
  exact ⟨.node k, rfl, h k hk⟩

theorem EndsWith.may (h : EndsWith P L) : MayEndWith P L := by
  intro ps hps x hx
  obtain ⟨y, hy, hP⟩ := h ps hps
  obtain rfl : y = x := Option.some.inj (hy.symm.trans hx)
  exact hP

theorem EndsWith.mul_left (h : EndsWith P M) (L : Parts) : EndsWith P (L * M) := by
  rintro _ ⟨ps, -, qs, hqs, rfl⟩
  obtain ⟨x, hx, hP⟩ := h qs hqs
  exact ⟨x, by simp [List.getLast?_append, Option.mem_def.1 hx], hP⟩

theorem EndsWith.mul_may (h : EndsWith P L) (hM : MayEndWith P M) : EndsWith P (L * M) := by
  rintro _ ⟨ps, hps, qs, hqs, rfl⟩
  obtain ⟨x, hx, hP⟩ := h ps hps
  cases hlast : qs.getLast? with
  | none => exact ⟨x, by simp [List.getLast?_append, hlast, Option.mem_def.1 hx], hP⟩
  | some y => exact ⟨y, by simp [List.getLast?_append, hlast], hM qs hqs y hlast⟩

theorem MayEndWith.optional (h : MayEndWith P L) : MayEndWith P (optional L) := by
  rintro ps (hps | rfl)
  · exact h ps hps
  · simp

theorem MayEndWith.kstar (h : MayEndWith P L) : MayEndWith P L∗ := by
  rintro _ ⟨pss, rfl, hpss⟩
  induction pss with
  | nil => simp
  | cons ps pss ih =>
    have ⟨hps, hothers⟩ := List.forall_mem_cons.1 hpss
    intro x hx
    rw [List.flatten_cons, List.getLast?_append, Option.mem_def, Option.or_eq_some_iff] at hx
    obtain hx | ⟨-, hx⟩ := hx
    · exact ih hothers x hx
    · exact h ps hps x hx

end Parts

namespace Tree

open Parts Grammar

/-- The kinds of nodes that types end with: types, and the parts of paths. -/
def endKinds : List Kind := Kind.types ++ [.typePathSegment, .genericArgumentClause]

/-- A part that is a word or a node of given kinds. -/
def IsOneOf (ks ns : List Kind) : Part → Prop
  | .word l => l.kind ∈ ks
  | .node k => k ∈ ns

section

variable {ks ns : List Kind}

theorem endsWith_word {k : Kind} (hk : k ∈ ks) : EndsWith (IsOneOf ks ns) (Parts.word k) :=
  endsWith_wordOf fun l hl => by rwa [IsOneOf, List.mem_singleton.1 hl]

theorem endsWith_node {k : Kind} (hk : k ∈ ns) : EndsWith (IsOneOf ks ns) (Parts.node k) :=
  endsWith_nodeOf fun l hl => by rwa [IsOneOf, List.mem_singleton.1 hl]

/-- A part of a path ends with a name or with arguments. -/
theorem endsWith_segment (hnames : [.identifier, .kwSelfType, .kwClass, .kwProtocol] ⊆ ks)
    (hclause : .genericArgumentClause ∈ ns) :
    EndsWith (IsOneOf ks ns) Kind.typePathSegment.parts :=
  EndsWith.mul_may (endsWith_wordOf fun _ hl => hnames hl) (endsWith_node hclause).may.optional

/-- A path ends with a part of it. -/
theorem endsWith_path (hsegment : .typePathSegment ∈ ns) :
    EndsWith (IsOneOf ks ns) Kind.typePath.parts :=
  (endsWith_node hsegment).mul_may ((endsWith_node hsegment).mul_left _).may.kstar

end

/-- What a type ends with is a word that types end with, or a node that ends like a type. -/
theorem endsWith_parts {k : Kind} (hk : k ∈ endKinds) :
    EndsWith (IsOneOf typeEnds endKinds) k.parts := by
  have htype : EndsWith (IsOneOf typeEnds endKinds) Parts.type :=
    endsWith_nodeOf fun _ hk => List.mem_append_left _ hk
  have hclose {L : Parts} {j : Kind} (hj : j ∈ typeEnds) :
      EndsWith (IsOneOf typeEnds endKinds) (L * Parts.word j) := (endsWith_word hj).mul_left L
  simp only [endKinds, Kind.types, List.cons_append, List.nil_append, List.mem_cons,
    List.not_mem_nil, or_false] at hk
  obtain rfl | rfl | rfl | rfl | rfl | rfl | rfl | rfl | rfl | rfl | rfl | rfl | rfl := hk
  · exact endsWith_path (by decide)
  · exact hclose (by decide)
  · exact hclose (by decide)
  · exact (hclose (by decide)).mul_left _
  · exact (((hclose (by decide)).mul_left _).mul_left _).mul_left _
  · exact (hclose (by decide)).mul_left _
  · exact ((htype.mul_left _).mul_left _).mul_left _
  · have hother := htype.mul_left (Parts.word .ampersand)
    exact (hother.mul_may hother.may.kstar).mul_left _
  · exact htype.mul_left _
  · exact htype.mul_left _
  · exact ((htype.mul_left _).mul_left _).mul_left _
  · exact endsWith_segment (by decide) (by decide)
  · exact (hclose (by decide)).mul_left _

/-- If every node of some kinds ends with a word of given kinds or with such a node again, its last
word is of these kinds. -/
theorem exists_lastWord_of {ks ns : List Kind}
    (hends : ∀ k ∈ ns, EndsWith (IsOneOf ks ns) k.parts) {k : Kind} {cs : List Tree}
    (h : (Tree.node k cs).Regular) (hk : k ∈ ns) :
    ∃ l ∈ (tokensOfAll cs).getLast?, l.kind ∈ ks := by
  obtain ⟨x, hx, hend⟩ := hends k hk _ h.1
  rw [List.getLast?_map, Option.mem_def, Option.map_eq_some_iff] at hx
  obtain ⟨c, hc, rfl⟩ := hx
  have hmem := List.mem_of_getLast? hc
  have hlt := List.sizeOf_lt_of_mem hmem
  have hregular := regularAll_iff.1 h.2 c hmem
  obtain ⟨l, hl, hl'⟩ : ∃ l ∈ c.tokens.getLast?, l.kind ∈ ks := by
    cases c with
    | token j x => exact ⟨⟨j, x⟩, rfl, hend⟩
    | node j ds => exact exists_lastWord_of hends hregular hend
  obtain ⟨front, rfl⟩ := List.getLast?_eq_some_iff.1 hc
  refine ⟨l, ?_, hl'⟩
  rw [tokensOfAll_append, List.getLast?_append]
  simp [tokensOfAll, Option.mem_def.1 hl]
  termination_by sizeOf cs
  decreasing_by simp at hlt; omega

/-- The last word of a type. -/
theorem exists_lastWord {k : Kind} {cs : List Tree} (h : (Tree.node k cs).Regular)
    (hk : k ∈ endKinds) : ∃ l ∈ (tokensOfAll cs).getLast?, l.kind ∈ typeEnds :=
  exists_lastWord_of (fun _ hj => endsWith_parts hj) h hk

end Tree

theorem Kind.mem_types {k : Kind} (hk : k.isType = true) : k ∈ types := by
  cases k <;> first | decide | cases hk

/-! ## texts -/

namespace Grammar

open Lexeme (lexChars)

/-- A text that ends with a word, and all of which is read as one type, ends with the last word of
that. -/
theorem endsIn_of_lastWord {ks : List Kind} {cs : List Char} {t : Tree}
    (hrest : (typeFrom (wordsOf false cs)).rest = [])
    (hlast : ∀ l ∈ (lexChars cs).getLast?, l.isTrivia = false)
    (htrees : treesOfAll (typeFrom (wordsOf false cs)).sketches = [t])
    (hend : ∃ l ∈ t.tokens.getLast?, l.kind ∈ ks) : EndsIn ks cs := by
  have hwords : t.tokens = (lexChars cs).filter (!·.isTrivia) := by
    have htokens := Sketch.tokens_treesOfAll (typeFrom (wordsOf false cs)).sketches
    have hcovers := (typeFrom (wordsOf false cs)).covers
    rw [hrest, List.append_nil] at hcovers
    rw [htrees, hcovers, wordsOf, Word.map_lexeme_ofLexemesAfter] at htokens
    simpa [Tree.tokensOfAll] using htokens
  obtain ⟨l, hl, hend⟩ := hend
  rw [hwords] at hl
  obtain hnil | ⟨front, m, hfront⟩ := List.eq_nil_or_concat (lexChars cs)
  · simp [hnil] at hl
  · rw [List.concat_eq_append] at hfront
    have hm : m.isTrivia = false := hlast m (by simp [hfront])
    have hlm : l = m := by simpa [hfront, List.filter_append, hm, eq_comm] using hl
    exact ⟨m, by simp [hfront], hlm ▸ hend⟩

/-- A text that ends with a word, and all of which is read as a type without a fault, ends as types
do. -/
theorem endsIn_of_clean {cs : List Char} {t : Tree}
    (hclean : CleanAll (typeFrom (wordsOf false cs)).sketches)
    (hrest : (typeFrom (wordsOf false cs)).rest = [])
    (hlast : ∀ l ∈ (lexChars cs).getLast?, l.isTrivia = false) (ht : t.isType = true)
    (htrees : treesOfAll (typeFrom (wordsOf false cs)).sketches = [t]) : EndsIn typeEnds cs := by
  have hregular := Sketch.regular_treesOfAll (yields_typeFrom _ hclean).regular
  rw [htrees] at hregular
  refine endsIn_of_lastWord hrest hlast htrees ?_
  cases t with
  | token => cases ht
  | node k us => exact Tree.exists_lastWord hregular.1 (List.mem_append_left _ (Kind.mem_types ht))

/-- Such a text spells that type wherever it stands. -/
theorem spells_of_clean {cs : List Char} (hclean : CleanAll (typeFrom (wordsOf false cs)).sketches)
    (hrest : (typeFrom (wordsOf false cs)).rest = [])
    (hlast : ∀ l ∈ (lexChars cs).getLast?, l.isTrivia = false) :
    ∃ t, t.isType = true ∧ treesOfAll (typeFrom (wordsOf false cs)).sketches = [t] ∧
      Spells cs (TypeShape.ofTree t) := by
  obtain ⟨t, htrees, htype⟩ := isType_of_clean hclean hrest
  refine ⟨t, htype.isType, htrees, ?_, fun joined => ⟨t, ?_, rfl⟩⟩
  · exact endsIn_of_clean hclean hrest hlast htype.isType htrees
  · cases joined
    · exact htype
    · exact htype.rejoined (rejoined_ofLexemesAfter _ _ _ _ _)

end Grammar

end SwiftOutline

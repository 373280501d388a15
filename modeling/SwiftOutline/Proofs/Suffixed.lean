import SwiftOutline.Proofs.Annotation

/-!
# SwiftOutline.Proofs.Suffixed

Question marks behind the type of a variable.

* `Kind.primaries` — paths, arrays, dictionaries and types in parentheses, which suffixes may
  follow;
* `typeFrom_append` — such a type is the same before suffixes and before operators, and takes the
  suffixes;
* `lexChars_questions` — of question marks, one is a suffix and several are one operator;
* `declares_questions` — so behind such a type one question mark makes a variable optional, and
  several change nothing but what stands behind the type.
-/

namespace SwiftOutline

/-- Nodes of types that a suffix may follow. -/
def Kind.primaries : List Kind := [.typePath, .typeArray, .typeDictionary, .typeTuple]

namespace Grammar

open Rule
open Sketch (CleanAll treesOfAll Flawless)

/-! ## words behind a type -/

section

variable {n : Nat} {inside : Rule n} {ws vs : List Word} {t : Tree}

/-- The nodes that suffixes make. -/
def suffixed : List Kind := [.typeOptional, .typeImplicitlyUnwrapped]

theorem mem_suffixed {k : Kind} (h : suffixKind? ws = some k) : k ∈ suffixed := by
  unfold suffixKind? at h
  split at h
  · cases h
  · split at h
    · obtain rfl := Option.some.inj h
      decide
    · split at h
      · obtain rfl := Option.some.inj h
        decide
      · cases h

/-- With a suffix behind, a type becomes the node of that. -/
theorem wrapSuffixes_cases (ss : List Sketch) (ws : List Word) :
    wrapSuffixes ss ws = (ss, ws) ∨
      ∃ k ∈ suffixed, ∃ ps, (wrapSuffixes ss ws).1 = [.node k ps] := by
  fun_induction wrapSuffixes ss ws with
  | case1 ss => exact .inl rfl
  | case2 ss w r k hk ih =>
    right
    obtain hnone | hsome := ih
    · exact ⟨k, mem_suffixed hk, ss ++ [.word w], congrArg Prod.fst hnone⟩
    · exact hsome
  | case3 ss w r _ => exact .inl rfl

/-- What reads as a type that suffixes may follow has no prefix, no suffix and is not composed. -/
theorem typeWith_of_primary {h : ws.length < n + 1}
    (htrees : treesOfAll (typeWith inside ws h).sketches = [t]) (hk : t.kind ∈ Kind.primaries) :
    atConstraint ws = false ∧ atTypeAttribute ws = false ∧
      (typeWith inside ws h).sketches = (primaryType inside ws h).sketches ∧
      (typeWith inside ws h).rest = (primaryType inside ws h).rest := by
  have hother {k : Kind} {ps : List Sketch} (hk' : k ∉ Kind.primaries) :
      treesOfAll [.node k ps] ≠ [t] := by
    intro heq
    obtain rfl := List.singleton_inj.1 heq
    exact hk' hk
  -- each other branch makes a node of a kind that no primary type has
  unfold typeWith Rule.ifAt at htrees ⊢
  split at htrees
  · split at htrees <;> exact absurd htrees (hother (by decide))
  split at htrees
  · exact absurd htrees (hother (by decide))
  · next hconstraint hattribute =>
    rw [if_neg hconstraint, if_neg hattribute]
    refine ⟨by simpa using hconstraint, by simpa using hattribute, ?_⟩
    unfold composedType at htrees ⊢
    dsimp only at htrees ⊢
    split at htrees
    · exact absurd htrees (hother (by decide))
    · next hampersand =>
      rw [if_neg hampersand]
      obtain hnone | ⟨k, hsuffixed, ps, hps⟩ := wrapSuffixes_cases
        (primaryType inside ws h).sketches (primaryType inside ws h).rest
      · exact ⟨congrArg Prod.fst hnone, congrArg Prod.snd hnone⟩
      · have hdisjoint : ∀ k ∈ suffixed, k ∉ Kind.primaries := by decide
        change treesOfAll (wrapSuffixes _ _).1 = [t] at htrees
        rw [hps] at htrees
        exact absurd htrees (hother (hdisjoint k hsuffixed))

/-- A type that takes all words, and that suffixes may follow, reads the same before what may stand
behind it, and takes the suffixes there. -/
theorem typeFrom_append (hvs : Before followers vs) (hreads : (typeFrom ws).Reads [t] [])
    (hk : t.kind ∈ Kind.primaries)
    (hampersand : at? .ampersand (wrapSuffixes (typeFrom ws).sketches vs).2 = false) :
    (typeFrom (ws ++ vs)).sketches = (wrapSuffixes (typeFrom ws).sketches vs).1 ∧
      (typeFrom (ws ++ vs)).rest = (wrapSuffixes (typeFrom ws).sketches vs).2 := by
  obtain ⟨hclean, htrees, hrest⟩ := hreads
  have hyields := yields_typeFrom ws hclean
  have hflawless : Flawless (typeFrom ws).sketches := ⟨hclean, hyields.gapless, hyields.regular⟩
  have hin : Through (Shut closers vs) vs (fun r _ => typeFrom r : Rule ws.length)
      (fun r _ => typeFrom r : Rule (ws ++ vs).length) := through_type
  rw [typeFrom.eq_1 ws] at htrees hrest hflawless hampersand ⊢
  rw [typeFrom.eq_1 (ws ++ vs)]
  obtain ⟨hconstraint, hattribute, hsketches, hprest⟩ := typeWith_of_primary htrees hk
  rw [hsketches] at hflawless hampersand ⊢
  rw [hprest] at hrest
  have hfunction (ps : List Sketch)
      (hps : (primaryType (fun r _ => typeFrom r) ws (Nat.lt_succ_self _)).sketches =
        [.node .typeFunction ps]) :
      Shut closers vs (primaryType (fun r _ => typeFrom r) ws (Nat.lt_succ_self _)).rest := by
    rw [hsketches, hps] at htrees
    obtain rfl := List.singleton_inj.1 htrees
    exact absurd (show .typeFunction ∈ Kind.primaries from hk) (by decide)
  have hprimary := throughAt_primaryType hin (Nat.lt_succ_self _) (Nat.lt_succ_self _) hflawless
    (.inl hvs) hfunction
  -- nothing is left behind the primary type, so the suffixes are those of `vs`
  have hafter := hprimary.rest
  rw [hrest, List.nil_append] at hafter
  have hconstraint' := (steady_atConstraint ws (.inl hvs)).trans hconstraint
  have hattribute' := (steady_atTypeAttribute ws (.inl hvs)).trans hattribute
  have hsuffixed : (suffixedType (fun r _ => typeFrom r) (ws ++ vs) (Nat.lt_succ_self _)).rest =
      (wrapSuffixes (primaryType (fun r _ => typeFrom r) ws
        (Nat.lt_succ_self _)).sketches vs).2 := by
    show (wrapSuffixes _ _).2 = _
    rw [hprimary.sketches, hafter]
  unfold typeWith Rule.ifAt
  rw [if_neg (by simp [hconstraint']), if_neg (by simp [hattribute'])]
  unfold composedType
  dsimp only
  rw [if_neg (by simp [hsuffixed, hampersand])]
  refine ⟨?_, hsuffixed⟩
  show (wrapSuffixes _ _).1 = _
  rw [hprimary.sketches, hafter]

end

/-! ## question marks -/

section

open Lexeme

/-- Question marks. -/
def questions (n : Nat) : List Char := List.replicate n '?'

/-- The suffix that makes a type optional. -/
def questionWord : Word := ⟨.question, "?", true, false⟩

/-- The operator that several question marks are. -/
def questionOperator (n : Nat) : Word :=
  ⟨.customOperator, String.ofList ('?' :: questions (n + 1)), true, false⟩

theorem scan_questions (n : Nat) : scan '?' (questions (n + 1)) = (.customOperator, n + 1) := by
  have hcount : countWhile isOperatorChar (questions (n + 1)) = n + 1 := by
    rw [countWhile, questions, List.takeWhile_replicate, if_pos (by decide), List.length_replicate]
  show scanOperator '?' (questions (n + 1)) = _
  unfold scanOperator
  rw [hcount]
  rfl

theorem lexChars_questions (n : Nat) :
    lexChars (questions (n + 2)) = [(questionOperator n).lexeme] := by
  have hscan : scan '?' (questions (n + 1) ++ []) =
      (.customOperator, (questions (n + 1)).length) := by
    rw [List.append_nil, scan_questions, questions, List.length_replicate]
  have hlex := lexChars_lexeme _ hscan
  rw [List.append_nil, lexChars_nil] at hlex
  exact hlex

theorem wordsOf_questions (n : Nat) : wordsOf true (questions (n + 2)) = [questionOperator n] := by
  rw [wordsOf, lexChars_questions]
  rfl

/-! ### what they are read as -/

theorem atDeclaration_questionOperator (n : Nat) : atDeclaration [questionOperator n] = false := by
  have hmodifier : atModifier [questionOperator n] = false := rfl
  have hskip : skipAttributesAndModifiers [questionOperator n] = [questionOperator n] := by
    rw [skipAttributesAndModifiers, if_neg (by simp [questionOperator]), hmodifier,
      if_neg Bool.false_ne_true]
  rw [atDeclaration, hskip]
  rfl

/-- An operator alone is a statement. -/
theorem reads_questionOperator (n : Nat) :
    (itemsFrom [] [questionOperator n]).Reads
      [.node .statement [(questionOperator n).tree]] [] := by
  have hstatement {m : Nat} : Reads (statement [] : Rule (m + 1)) [questionOperator n]
      [.node .statement [(questionOperator n).tree]] [] := by
    refine Reads.node (Reads.ifAt_not (fun _ => ?_) rfl) _
    exact ⟨⟨True.intro, True.intro⟩, rfl, rfl⟩
  have hitem {m : Nat} (inside : List Kind → Rule m) : Reads (item inside []) [questionOperator n]
      [.node .statement [(questionOperator n).tree]] [] :=
    (hstatement.ifAt_not (atDeclaration_questionOperator n)).ifAt_not rfl
  exact reads_itemsFrom (hitem _) rfl (reads_itemsFrom_nil [])

end

/-! ### what reads as a type with them behind it -/

section

variable {ws : List Word} {t : Tree} (hreads : (typeFrom ws).Reads [t] [])
  (hk : t.kind ∈ Kind.primaries)

include hreads hk

/-- One question mark is a suffix. -/
theorem reads_question :
    (typeFrom (ws ++ [questionWord])).Reads [.node .typeOptional [t, questionWord.tree]] [] := by
  have hvs : Before followers [questionWord] := before_cons (by decide) []
  obtain ⟨hsketches, hrest⟩ := typeFrom_append hvs hreads hk rfl
  refine ⟨?_, ?_, hrest⟩
  · rw [hsketches]
    exact ⟨Sketch.cleanAll_append.2 ⟨hreads.clean, True.intro, True.intro⟩, True.intro⟩
  · rw [hsketches]
    show [Tree.node .typeOptional (treesOfAll ((typeFrom ws).sketches ++ [.word questionWord]))] = _
    rw [Sketch.treesOfAll_append, hreads.trees]
    rfl

/-- Several are no part of the type. -/
theorem reads_questions (n : Nat) :
    (typeFrom (ws ++ [questionOperator n])).Reads [t] [questionOperator n] := by
  have hvs : Before followers [questionOperator n] := before_cons (w := questionOperator n)
    (show .customOperator ∈ followers by decide) []
  obtain ⟨hsketches, hrest⟩ := typeFrom_append hvs hreads hk rfl
  refine ⟨?_, ?_, hrest⟩
  · rw [hsketches]
    exact hreads.clean
  · rw [hsketches]
    exact hreads.trees

end

end Grammar

/-! ## variables -/

/-- The type of the variable is one that suffixes may follow. -/
structure AnnotatesPrimary (text : String) (s : TypeShape) : Prop extends Annotates text s where
  primary : ∃ a, annotation? ⟨(parse (variableOf text)).tree, 0⟩ = some a ∧
    ∃ t, a.tree.type? = some t ∧ t.kind ∈ Kind.primaries

namespace Tree

open Parts Grammar

/-- The kinds of nodes that types end with which suffixes may follow: these types, and the parts of
paths. -/
def primaryEnds : List Kind := Kind.primaries ++ [.typePathSegment, .genericArgumentClause]

theorem endsWith_primary {k : Kind} (hk : k ∈ primaryEnds) :
    EndsWith (IsOneOf firmEnds primaryEnds) k.parts := by
  have hclose {L : Parts} {j : Kind} (hj : j ∈ firmEnds) :
      EndsWith (IsOneOf firmEnds primaryEnds) (L * Parts.word j) := (endsWith_word hj).mul_left L
  simp only [primaryEnds, Kind.primaries, List.cons_append, List.nil_append, List.mem_cons,
    List.not_mem_nil, or_false] at hk
  obtain rfl | rfl | rfl | rfl | rfl | rfl := hk
  · exact endsWith_path (by decide)
  · exact (hclose (by decide)).mul_left _
  · exact (((hclose (by decide)).mul_left _).mul_left _).mul_left _
  · exact (hclose (by decide)).mul_left _
  · exact endsWith_segment (by decide) (by decide)
  · exact (hclose (by decide)).mul_left _

end Tree

namespace Grammar

open Lexeme (lexChars)

/-- All of the text is read as one such type, and ends with a word that nothing behind it joins. -/
theorem exists_tree_of_annotates {text : String} {s : TypeShape}
    (h : AnnotatesPrimary text s) :
    ∃ t, t.isType = true ∧ t.kind ∈ Kind.primaries ∧ TypeShape.ofTree t = s ∧
      (typeFrom (wordsOf false text.toList)).Reads [t] [] ∧ EndsIn firmEnds text.toList := by
  obtain ⟨a, ha, -, hs⟩ := h.shape
  obtain ⟨b, hb, u, hu, hk⟩ := h.primary
  obtain rfl := Option.some.inj (ha.symm.trans hb)
  obtain rfl := Option.some.inj ((annotation?_variableOf text).symm.trans ha)
  obtain ⟨hclean, hrest, hlast⟩ := clean_of_annotates h.toAnnotates
  obtain ⟨t, ht, htrees, -⟩ := spells_of_clean hclean hrest hlast
  have hbare : t = u.bare := by
    have htype := Tree.type?_bare
      (.node .annotatedType (.token .colon ":" :: Marked.treesOfAll (laidType text).1))
    rw [bare_laidType htrees, type?_annotated ht, hu] at htype
    exact Option.some.inj htype
  have hkind : t.kind ∈ Kind.primaries := by
    rw [hbare, Tree.kind_bare]
    exact hk
  refine ⟨t, ht, hkind, ?_, ⟨hclean, htrees, hrest⟩, ?_⟩
  · rw [← hs, ofWrapper_laidType ht htrees]
  · refine endsIn_of_lastWord hrest hlast htrees ?_
    have hregular := Sketch.regular_treesOfAll (yields_typeFrom _ hclean).regular
    rw [htrees] at hregular
    cases t with
    | token => cases ht
    | node k us =>
      exact Tree.exists_lastWord_of (fun _ hj => Tree.endsWith_primary hj) hregular.1
        (List.mem_append_left _ hkind)

section

variable {text : String} {t : Tree} (ht : t.isType = true) (hk : t.kind ∈ Kind.primaries)
  (hreads : (typeFrom (wordsOf false text.toList)).Reads [t] [])
  (hends : EndsIn firmEnds text.toList)

include ht hk hreads hends

/-- With one question mark behind its type, a variable is optional. -/
theorem declares_question : Declares (text ++ "?") (.optional (TypeShape.ofTree t)) := by
  have hapart : Apart text.toList '?' := hends.apart_of_firm (by decide)
  have hchars : (text ++ "?").toList = text.toList ++ ['?'] := String.toList_append
  have hquestion := reads_question hreads hk
  rw [show wordsOf false text.toList ++ [questionWord] = wordsOf false (text ++ "?").toList by
    rw [hchars, wordsOf_close hapart rfl rfl]; rfl] at hquestion
  have hshape : TypeShape.ofTree (.node .typeOptional [t, questionWord.tree]) =
      .optional (TypeShape.ofTree t) := by
    rw [TypeShape.ofTree, TypeShape.typesIn_type ht]
    rfl
  rw [← hshape]
  refine declares_of_reads rfl hquestion ?_
  rw [hchars]
  exact (endsIn_mark rfl (by decide)).append hapart

omit ht hk hreads hends in
theorem toList_questions (text : String) (n : Nat) :
    (text ++ String.ofList (questions n)).toList = text.toList ++ questions n := by
  rw [String.toList_append, String.toList_ofList]

omit ht in
theorem reads_annotation_questions (n : Nat) :
    (typeFrom (wordsOf false (text ++ String.ofList (questions (n + 2))).toList)).Reads [t]
      [questionOperator n] := by
  have hapart : Apart text.toList '?' := hends.apart_of_firm (by decide)
  have hwords : wordsOf false (text ++ String.ofList (questions (n + 2))).toList =
      wordsOf false text.toList ++ [questionOperator n] := by
    rw [toList_questions, ← wordsOf_questions]
    exact hapart.wordsOf_append false _
  rw [hwords]
  exact reads_questions hreads hk n

/-- With several behind its type, a variable has the type, and the others are a statement. -/
theorem typed?_questions (n : Nat) :
    (Analysis.ofSource .default
      (variableOf (text ++ String.ofList (questions (n + 2))))).declarations.map
        Declaration.typed? = [some ("v", TypeShape.ofTree t)] := by
  rw [typed?_of_reads (reads_annotation_questions hk hreads hends n)
    (before_cons (List.mem_singleton.2 rfl) [])
    (reads_questionOperator n), Declaration.collectFile, Declaration.collect_eq,
    ← ofWrapper_annotated (k := .colon) (x := ":") ht]
  rfl

end

/-- Lexemes are cut before the last one, if that is the only word behind the cut and the one before
it is a word too. -/
theorem eq_of_append_concat {as bs ls : List Lexeme} {l : Lexeme} (h : as ++ bs = ls ++ [l])
    (hword : bs.filter (!·.isTrivia) = [l]) (hlast : ∀ m ∈ ls.getLast?, m.isTrivia = false) :
    as = ls := by
  obtain rfl | ⟨front, m, rfl⟩ := List.eq_nil_or_concat bs
  · cases hword
  rw [List.concat_eq_append, ← List.append_assoc] at h
  obtain ⟨rfl, hm⟩ := List.append_inj' h rfl
  obtain rfl := List.singleton_inj.1 hm
  obtain rfl | ⟨others, x, rfl⟩ := List.eq_nil_or_concat front
  · exact (List.append_nil as).symm
  · -- then there are two words behind the cut
    have hx : x.isTrivia = false := hlast x (by simp)
    have hm : m.isTrivia = false := by
      have hmem : m ∈ (others.concat x |>.concat m).filter (!·.isTrivia) := by rw [hword]; simp
      simpa using (List.mem_filter.1 hmem).2
    have hlen := congrArg List.length hword
    simp [hx, hm] at hlen

section

variable {text : String} {t : Tree} (hk : t.kind ∈ Kind.primaries)
  (hreads : (typeFrom (wordsOf false text.toList)).Reads [t] [])
  (hends : EndsIn firmEnds text.toList)

include hk hreads hends

/-- The annotation ends before them. -/
theorem stop_questions (n : Nat) :
    (Located.range ⟨.node .annotatedType (.token .colon ":" :: Marked.treesOfAll
        (laidType (text ++ String.ofList (questions (n + 2)))).1), 5⟩).stop =
      (variableOf text).utf8ByteSize := by
  have hlexemes := placedOfAll_laidType (text ++ String.ofList (questions (n + 2)))
  have hapart : Apart (' ' :: text.toList) '?' := hends.space.apart_of_firm (by decide)
  have hcut : lexChars (' ' :: (text ++ String.ofList (questions (n + 2))).toList) =
      lexChars (' ' :: text.toList) ++ [(questionOperator n).lexeme] := by
    rw [toList_questions, ← lexChars_questions]
    exact hapart.lexChars_append _
  have hwords := map_lexeme_laidType (text ++ String.ofList (questions (n + 2)))
  rw [(reads_annotation_questions hk hreads hends n).rest, Placed.map_lexeme_words] at hwords
  have hlast : ∀ l ∈ (lexChars (' ' :: text.toList)).getLast?, l.isTrivia = false := by
    obtain ⟨m, hm, hmk⟩ := hends.space
    intro l hl
    obtain rfl : m = l := Option.some.inj (hm.symm.trans hl)
    have hfirm : ∀ k ∈ firmEnds, k.isTrivia = false := by decide
    exact hfirm _ hmk
  rw [stop_annotated, size_variableOf, eq_of_append_concat (hlexemes.trans hcut) hwords hlast]

end

end Grammar

/-- The annotation of a variable whose type suffixes may follow, with question marks behind it.
One question mark makes the type optional. Two or more are one operator, which is no suffix: the
annotation ends before them, and what they are is a statement, without a fault. -/
theorem declares_questions {text : String} {s : TypeShape} (h : AnnotatesPrimary text s)
    (n : Nat) :
    let source := variableOf (text ++ String.ofList (Grammar.questions n))
    (parse source).faults = [] ∧
      (Analysis.ofSource .default source).declarations.map Declaration.typed? =
        [some ("v", if n = 1 then .optional s else s)] ∧
      ∃ a, annotation? ⟨(parse source).tree, 0⟩ = some a ∧
        a.range.stop = if n ≤ 1 then source.utf8ByteSize else (variableOf text).utf8ByteSize := by
  obtain ⟨t, ht, hk, rfl, hreads, hends⟩ := Grammar.exists_tree_of_annotates h
  match n with
  | 0 =>
    have hdeclares := (Grammar.spells_of_annotates h.toAnnotates).declares
    obtain ⟨a, ha, hstop, -⟩ := hdeclares.shape
    rw [show text ++ String.ofList (Grammar.questions 0) = text from String.append_empty]
    exact ⟨hdeclares.clean, hdeclares.declarations, a, ha, hstop⟩
  | 1 =>
    have hdeclares := Grammar.declares_question ht hk hreads hends
    obtain ⟨a, ha, hstop, -⟩ := hdeclares.shape
    exact ⟨hdeclares.clean, hdeclares.declarations, a, ha, hstop⟩
  | n + 2 =>
    have hannotation := Grammar.reads_annotation_questions hk hreads hends n
    refine ⟨?_, ?_, _, Grammar.annotation?_variableOf _, ?_⟩
    · exact Grammar.faults_of_reads hannotation (Grammar.before_cons (List.mem_singleton.2 rfl) [])
        (Grammar.reads_questionOperator n)
    · exact Grammar.typed?_questions ht hk hreads hends n
    · exact Grammar.stop_questions hk hreads hends n

theorem annotatesPrimary_int : AnnotatesPrimary "Int" (.simple "Int") := by
  have hname := Grammar.isPlainName_of_scan 'I' "nt".toList rfl (by decide)
  have hint : Grammar.Spells "Int".toList (.simple "Int") := (hname.simple (by decide)).spells
  refine { hint.annotates with primary := ?_ }
  have hkind : ((annotation? ⟨(parse (variableOf "Int")).tree, 0⟩).any fun a =>
      a.tree.type?.any fun t => Kind.primaries.contains t.kind) = true := by decide +kernel
  obtain ⟨a, ha, hany⟩ := (Option.any_eq_true _ _).1 hkind
  obtain ⟨t, ht, hcontains⟩ := (Option.any_eq_true _ _).1 hany
  exact ⟨a, ha, t, ht, List.contains_iff_mem.1 hcontains⟩

/-- A variable of a type with two question marks has the type without them. -/
theorem declares_questions_int :
    AnnotatesPrimary "Int" (.simple "Int") ∧ (parse "var v: Int??").faults = [] ∧
      (Analysis.ofSource .default "var v: Int??").declarations.map Declaration.typed? =
        [some ("v", .simple "Int")] := by
  obtain ⟨hclean, htyped, -⟩ := declares_questions annotatesPrimary_int 2
  exact ⟨annotatesPrimary_int, hclean, htyped⟩

/-- So question marks do not make a type optional once each. -/
theorem not_declares_optional :
    ¬ ∀ (text : String) (s : TypeShape), AnnotatesPrimary text s → ∀ n : Nat,
      Declares (text ++ String.ofList (Grammar.questions n)) (TypeShape.optional^[n] s) := by
  intro h
  have hclaim : (Analysis.ofSource .default "var v: Int??").declarations.map Declaration.typed? =
      [some ("v", .optional (.optional (.simple "Int")))] :=
    (h "Int" (.simple "Int") annotatesPrimary_int 2).declarations
  have hoptional : ((Analysis.ofSource .default "var v: Int??").declarations.map
      Declaration.typed?).all (·.all (!·.2.isOptional)) = true := by decide +kernel
  rw [hclaim] at hoptional
  cases hoptional

end SwiftOutline

import SwiftOutline.Proofs.Annotation
import SwiftOutline.Proofs.AttributeName
import SwiftOutline.Proofs.Evened
import SwiftOutline.Proofs.Reread

/-!
# SwiftOutline.Proofs.TypeText

The normalized text of a type, read as the annotation of a variable.

* `Tree.Rereads` — a variable that is declared with the text has that type;
* `showsArguments_of_keeps` — with even spaces, what is read shows which attributes have arguments;
* `Site.rereads_iff` — so a type of a source file without faults is read back exactly if the text
  keeps its words, shows the arguments in it and does not start with a name that is no name there.
  A function behind an attribute is not read back: no space is left between the attribute and the
  parameters (`Site.parameters_joined`).
-/

namespace SwiftOutline

open Grammar

/-! ## what is read shows its arguments -/

section

open Sketch

/-- The arguments of an attribute are shown by even spaces. -/
theorem AttributeParts.argumentsShow {ps : List Sketch} {rest : List Word}
    (h : AttributeParts ps rest) (heven : (wordsOfAll ps ++ rest).IsChain Word.Evenly) :
    Tree.argumentsShow (treesOfAll ps) (rest.map Word.lexeme) = true := by
  obtain ⟨sign, name, args, rfl, -, hname, hargs⟩ := h
  show Tree.argumentsShow (sign.tree :: .node .name (treesOfAll name) :: treesOfAll args) _ = true
  obtain ⟨hnone, hbehind⟩ | ⟨w, dotted, hwords, -, -⟩ := hname
  · obtain ⟨hargs', rfl⟩ := List.append_eq_nil_iff.1 hbehind
    simp [Tree.argumentsShow, tokens_treesOfAll, hargs']
  · have heven' : (wordsOfAll name ++ (wordsOfAll args ++ rest)).IsChain Word.Evenly := by
      simpa using heven.tail
    rw [argumentsShow_eq heven' (by simp [hwords]) (tokens_treesOfAll name).symm
      (tokens_treesOfAll args).symm]
    split at hargs
    · next hparen =>
      obtain ⟨parts, rfl⟩ := hargs
      rw [hparen]
      simp [treesOfAll, trees]
    · next hparen =>
      obtain rfl := hargs
      rw [Bool.not_eq_true] at hparen
      rw [hparen]
      simp [treesOfAll]

mutual

/-- With even spaces, what is read from some words shows the arguments of its attributes. -/
theorem showsArguments_of_keeps {s : Sketch} {above : List Frame} {rest : List Word}
    (h : s.Keeps NestedLaw.attributeParts above rest)
    (heven : (s.words ++ rest).IsChain Word.Evenly) :
    Tree.showsArgumentsAll (rest.map Word.lexeme) s.trees = true := by
  cases s with
  | node k ps =>
    rw [trees, Tree.showsArgumentsAll_node]
    exact ⟨fun hk => (h.1 hk).argumentsShow heven, showsArgumentsAll_of_keeps h.2 heven⟩
  | word w => rfl
  | fault f => rfl
  | gap => rfl

theorem showsArgumentsAll_of_keeps {ss : List Sketch} {above : List Frame} {rest : List Word}
    (h : KeepsAll NestedLaw.attributeParts above ss rest)
    (heven : (wordsOfAll ss ++ rest).IsChain Word.Evenly) :
    Tree.showsArgumentsAll (rest.map Word.lexeme) (treesOfAll ss) = true := by
  cases ss with
  | nil => rfl
  | cons s ss =>
    rw [wordsOfAll_cons, List.append_assoc] at heven
    rw [treesOfAll, Tree.showsArgumentsAll_append, Bool.and_eq_true, tokens_treesOfAll,
      ← List.map_append]
    exact ⟨showsArguments_of_keeps h.1 heven, showsArgumentsAll_of_keeps h.2 heven.right_of_append⟩

end

end

/-! ## types of source files -/

namespace Tree

/-- Whether a tree starts with a word that says who owns a value or where it may go. -/
def startsOwned (t : Tree) : Bool :=
  t.allWords.head?.any fun l => l.kind == .identifier && ownershipNames.contains l.text

/-- The normalized text of a type annotates a variable with that type: the source that declares it
has no faults, the annotation takes all of the text, and the type there is the same one, trivia
aside, so that it is of the same shape and has the same normalized text. -/
structure Rereads (t : Tree) : Prop extends Annotates t.normalizedText (TypeShape.ofTree t) where
  same : ∃ a u, annotation? ⟨(parse (variableOf t.normalizedText)).tree, 0⟩ = some a ∧
    a.tree.type? = some u ∧ u.bare = t.bare ∧ u.normalizedText = t.normalizedText

variable {t : Tree} {us : List Word}

theorem atName_of_words (h : us.map Word.lexeme = t.allWords) :
    atName ownershipNames us = t.startsOwned := by
  rw [startsOwned, ← h]
  cases us <;> rfl

theorem isType_bare (t : Tree) : t.bare.isType = t.isType := by simp [isType]

/-- What is read as a type from all of its normalized text is read back. -/
theorem rereads_of_reads (ht : t.isType = true)
    (hreads : (typeFrom (wordsOf false t.normalizedText.toList)).Reads [t.bare] [])
    (hlast : ∀ l ∈ (Lexeme.lexChars t.normalizedText.toList).getLast?, l.isTrivia = false) :
    t.Rereads := by
  have htype : t.bare.isType = true := (isType_bare t).trans ht
  have hannotates := annotates_of_reads htype hreads
    (endsIn_of_clean hreads.clean hreads.rest hlast htype hreads.trees)
  rw [TypeShape.ofTree_bare] at hannotates
  obtain ⟨u, hu, hbare⟩ : ∃ u, (Tree.node .annotatedType (.token .colon ":" ::
      Marked.treesOfAll (laidType t.normalizedText).1)).type? = some u ∧ u.bare = t.bare := by
    have hsame := congrArg type? (bare_laidType hreads.trees)
    rw [type?_bare, type?_annotated htype] at hsame
    exact Option.map_eq_some_iff.1 hsame
  refine { hannotates with same := ⟨_, u, annotation?_variableOf _, hu, hbare, ?_⟩ }
  rw [← normalizedText_bare, hbare, normalizedText_bare]

/-- What is read back reads as a type, as it is but for trivia, from all of its normalized text. -/
theorem Rereads.reads (h : t.Rereads) :
    (typeFrom (wordsOf false t.normalizedText.toList)).Reads [t.bare] [] := by
  obtain ⟨hclean, hrest, -⟩ := clean_of_annotates h.toAnnotates
  obtain ⟨v, htrees, htype⟩ := isType_of_clean hclean hrest
  obtain ⟨a, u, ha, hu, hbare, -⟩ := h.same
  obtain rfl := Option.some.inj ((annotation?_variableOf _).symm.trans ha)
  have hsame := congrArg type? (bare_laidType htrees)
  rw [type?_bare, hu, type?_annotated htype.isType, Option.map_some, hbare] at hsame
  exact ⟨hclean, Option.some.inj hsame ▸ htrees, hrest⟩

/-- It keeps its words. -/
theorem Rereads.words (h : t.Rereads) (ht : t.isType = true) :
    (wordsOf false t.normalizedText.toList).map Word.lexeme = t.allWords := by
  have hcovers := (typeFrom (wordsOf false t.normalizedText.toList)).covers
  rw [h.reads.rest, List.append_nil] at hcovers
  rw [← hcovers, ← Sketch.tokens_treesOfAll, h.reads.trees, tokensOfAll, tokensOfAll,
    List.append_nil]
  cases t with
  | token => cases ht
  | node k cs => exact tokens_bare _ Bool.false_ne_true

/-- Words that start with one on ownership are read as a type behind that word. -/
theorem kind_of_owned {us : List Word} {v : Tree} (hat : atName ownershipNames us = true)
    (hreads : (typeFrom us).Reads [v] []) : v.kind = .typeAttributed := by
  have hconstraint : atConstraint us = false := by
    cases us with
    | nil => rfl
    | cons w r =>
      simp [atName, atConstraint, ownershipNames] at hat ⊢
      grind
  have hattribute : atTypeAttribute us = true := by simp [atTypeAttribute, atOwnership, hat]
  have htrees := hreads.trees
  rw [typeFrom] at htrees
  unfold typeWith Rule.ifAt at htrees
  rw [hconstraint, hattribute, if_neg Bool.false_ne_true, if_pos rfl] at htrees
  rw [← (List.cons.inj htrees).1]
  rfl

end Tree

namespace Site

open Lexeme

/-- A type of a source file without faults is read back from its normalized text exactly if the text
is cut up into the words of the type, a parenthesis behind the name of an attribute is joined to it
in the text just if it opens its arguments, and no name of the type stands where a word on ownership
would. -/
theorem rereads_iff {source : String} (hclean : (parse source).faults = []) {s : Site}
    (hs : s ∈ all (parse source).tree) (hk : s.node.tree.isType = true) :
    s.node.tree.Rereads ↔
      (lex s.node.tree.normalizedText).filter (!·.isTrivia) = s.node.tree.allWords ∧
        s.node.tree.bare.showsArguments [] = true ∧
        (s.node.tree.startsOwned = true → s.node.kind = .typeAttributed) := by
  have hplain : ∀ l ∈ s.node.tree.allWords, l.isTrivia = false := fun l hl => by
    simpa using List.of_mem_filter hl
  have hinked := (scanned_allWords hs).inked hplain
  have hlexemes : (wordsOf false s.node.tree.normalizedText.toList).map Word.lexeme =
      (lex s.node.tree.normalizedText).filter (!·.isTrivia) := Word.map_lexeme_ofLexemesAfter ..
  constructor
  · intro h
    have hwords := h.words hk
    have hkept := hlexemes.symm.trans hwords
    have heven := evenly_of_kept hinked hplain hkept
    refine ⟨hkept, ?_, fun howned => ?_⟩
    · have hkeeps := keeps_typeFrom local_attributeParts []
        (wordsOf false s.node.tree.normalizedText.toList)
      have hshown := showsArgumentsAll_of_keeps hkeeps (by
        rw [Parsed.covers]
        exact heven)
      rw [h.reads.trees, h.reads.rest] at hshown
      exact (Bool.and_eq_true_iff.1 hshown).1
    · rw [← Tree.atName_of_words hwords] at howned
      exact (Tree.kind_bare _).symm.trans (Tree.kind_of_owned howned h.reads)
  · rintro ⟨hkept, hshown, howner⟩
    have hwords := hlexemes.trans hkept
    refine Tree.rereads_of_reads hk (Site.reads_typeFrom hclean hs hk hwords
      (evenly_of_kept hinked hplain hkept) hshown ?_) ?_
    · rwa [Tree.atName_of_words hwords]
    · intro l hl
      rw [Tree.normalizedText, spaced, lexChars_spacedAfter hinked none hkept,
        getLast?_withSpaces] at hl
      exact hplain l (List.mem_of_getLast? hl)

/-- An attribute with arguments and one without, before a type in brackets. -/
theorem rereads_iff_attributes :
    let source := "var v: (inout A & B<C>, @a(b) @Sendable [Int?]) throws -> Void"
    (parse source).faults = [] ∧
      ∃ s ∈ all (parse source).tree, s.node.tree.isType = true ∧
        s.node.tree.normalizedText = "(inout A & B<C>, @a(b)@Sendable[Int?]) throws -> Void" ∧
          s.node.tree.Rereads := by
  intro source
  have hclean : (parse source).faults = [] := by decide +kernel
  have hany : ((all (parse source).tree).any fun s => s.node.tree.isType &&
      (s.node.tree.normalizedText == "(inout A & B<C>, @a(b)@Sendable[Int?]) throws -> Void" &&
      ((lex s.node.tree.normalizedText).filter (!·.isTrivia) == s.node.tree.allWords &&
      (s.node.tree.bare.showsArguments [] && !s.node.tree.startsOwned)))) = true := by
    decide +kernel
  obtain ⟨s, hs, hrest⟩ := List.any_eq_true.1 hany
  simp only [Bool.and_eq_true, beq_iff_eq, Bool.not_eq_true'] at hrest
  obtain ⟨hk, htext, hkept, hshown, howned⟩ := hrest
  exact ⟨hclean, s, hs, hk, htext,
    (rereads_iff hclean hs hk).2 ⟨hkept, hshown, fun h => absurd h (by simp [howned])⟩⟩

/-- An attribute before a function is joined to its parameters, which are read as arguments of the
attribute then. -/
theorem parameters_joined :
    let source := "var v: @escaping (Int) -> Void"
    (parse source).faults = [] ∧
      ∃ s ∈ all (parse source).tree, s.node.tree.isType = true ∧
        s.node.tree.normalizedText = "@escaping(Int) -> Void" ∧ ¬s.node.tree.Rereads := by
  intro source
  have hany : ((all (parse source).tree).any fun s => s.node.tree.isType &&
      (s.node.tree.normalizedText == "@escaping(Int) -> Void" &&
        !(parse (variableOf s.node.tree.normalizedText)).faults.isEmpty)) = true := by
    decide +kernel
  obtain ⟨s, hs, hrest⟩ := List.any_eq_true.1 hany
  simp only [Bool.and_eq_true, beq_iff_eq, Bool.not_eq_true'] at hrest
  obtain ⟨hk, htext, hfaults⟩ := hrest
  exact ⟨by decide +kernel, s, hs, hk, htext, fun h => by simp [h.clean] at hfaults⟩

end Site

end SwiftOutline

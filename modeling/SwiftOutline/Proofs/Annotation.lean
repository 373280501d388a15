import SwiftOutline.Analysis
import SwiftOutline.Proofs.Alone
import SwiftOutline.Proofs.Anchor
import SwiftOutline.Proofs.Insensitive
import SwiftOutline.Proofs.Tight

/-!
# SwiftOutline.Proofs.Annotation

A variable that is declared with a text for its type.

* `variableOf`, `Annotates` — the source, and that it is read without faults, with all of the text
  as a type of some shape;
* `Declares` — moreover the only declaration of the source is a variable of that shape;
* `sketches_variable`, `annotation?_variableOf` — what the source reads as, whatever the text is;
* `spells_of_annotates`, `Spells.declares` — a text is such an annotation only if it spells the
  shape, and then the source declares the variable.
-/

namespace SwiftOutline

open Lexeme (lexChars lexChars_lexeme)

/-- A source that declares a variable of a type. -/
def variableOf (text : String) : String := "var v: " ++ text

/-- The annotation of the first variable that a source file declares. -/
def annotation? (file : Located) : Option Located :=
  (file.child? (Tree.isNodeOf .variableDecl)).bind fun d =>
    (d.child? (Tree.isNodeOf .patternBindingList)).bind fun l =>
      (l.child? (Tree.isNodeOf .patternBinding)).bind (·.child? (Tree.isNodeOf .annotatedType))

namespace Declaration

/-- The name and the shape of a variable. -/
def typed? (d : Declaration) : Option (String × TypeShape) :=
  match d.facts.detail with
  | .variable b => some (d.facts.name, b.shape)
  | _ => none

theorem typed?_outline (d : Declaration) : d.outline.typed? = d.typed? := by
  obtain ⟨⟨_, _, _, _, _, _, _, _, _, _, _, detail⟩, ss⟩ := d
  cases detail <;> rfl

theorem map_typed? (ds : List Declaration) :
    ds.map typed? = (ds.map outline).map typed? := by
  rw [List.map_map]
  refine List.map_congr_left fun d _ => ?_
  exact (typed?_outline d).symm

end Declaration

/-- A variable that is declared with a text for its type is read without faults, its annotation
ends with the source, and the type there has a shape. -/
structure Annotates (text : String) (s : TypeShape) : Prop where
  clean : (parse (variableOf text)).faults = []
  shape : ∃ a, annotation? ⟨(parse (variableOf text)).tree, 0⟩ = some a ∧
    a.range.stop = (variableOf text).utf8ByteSize ∧ TypeShape.ofWrapper a.tree = s

/-- Moreover the source declares this variable and nothing else. -/
structure Declares (text : String) (s : TypeShape) : Prop extends Annotates text s where
  declarations : (Analysis.ofSource .default (variableOf text)).declarations.map
    Declaration.typed? = [some ("v", s)]

namespace Sketch

mutual

/-- A clean sketch has no faults. -/
theorem faultMarks_of_clean (n : Nat) {s : Sketch} (h : s.Clean) : s.faultMarks n = [] := by
  cases s with
  | node k ps => exact faultMarksOfAll_of_clean n h
  | word w => rfl
  | fault f => exact h.elim
  | gap => rfl

theorem faultMarksOfAll_of_clean (n : Nat) {ss : List Sketch} (h : CleanAll ss) :
    faultMarksOfAll n ss = [] := by
  cases ss with
  | nil => rfl
  | cons s ss =>
    rw [faultMarksOfAll, faultMarks_of_clean n h.1, faultMarksOfAll_of_clean _ h.2, List.append_nil]

end

end Sketch

namespace Grammar

open Rule
open Sketch (CleanAll)

/-- What is left behind a sketch that is laid over its words are the words that it leaves. -/
theorem Parsed.map_lexeme_layAll {ws : List Word} (p : Parsed ws) (size : Nat) {ps : List Placed}
    (h : (Placed.words ps).map (·.lexeme) = ws.map Word.lexeme) :
    (Placed.words (Sketch.layAll size p.sketches ps).2).map (·.lexeme) =
      p.rest.map Word.lexeme := by
  have hcovers := congrArg (List.map Word.lexeme) p.covers
  rw [List.map_append] at hcovers
  rw [Sketch.words_layAll, List.map_drop, h, ← hcovers]
  exact List.drop_left' (List.length_map _)

/-! ## words -/

/-- The keyword of the declaration. -/
def varWord : Word := ⟨.kwVar, "var", false, false⟩

/-- The name of the variable. -/
def nameWord : Word := ⟨.identifier, "v", false, false⟩

/-- The colon before the type. -/
def colonWord : Word := ⟨.colon, ":", true, false⟩

theorem lex_variableOf (text : String) :
    Lexeme.lex (variableOf text) =
      ⟨.kwVar, "var"⟩ :: ⟨.whitespace, " "⟩ :: ⟨.identifier, "v"⟩ :: ⟨.colon, ":"⟩ ::
        lexChars (' ' :: text.toList) := by
  have hchars : (variableOf text).toList =
      'v' :: ("ar".toList ++ ' ' :: 'v' :: ':' :: ' ' :: text.toList) := by
    rw [variableOf, String.toList_append]
    rfl
  have hvar : lexChars ('v' :: ("ar".toList ++ ' ' :: 'v' :: ':' :: ' ' :: text.toList)) =
      ⟨.kwVar, "var"⟩ :: lexChars (' ' :: 'v' :: ':' :: ' ' :: text.toList) :=
    lexChars_lexeme "ar".toList rfl
  have hspace : lexChars (' ' :: 'v' :: ':' :: ' ' :: text.toList) =
      ⟨.whitespace, " "⟩ :: lexChars ('v' :: ':' :: ' ' :: text.toList) := lexChars_lexeme [] rfl
  have hname : lexChars ('v' :: ':' :: ' ' :: text.toList) =
      ⟨.identifier, "v"⟩ :: lexChars (':' :: ' ' :: text.toList) := lexChars_lexeme [] rfl
  have hcolon : lexChars (':' :: ' ' :: text.toList) =
      ⟨.colon, ":"⟩ :: lexChars (' ' :: text.toList) := lexChars_lexeme [] rfl
  rw [Lexeme.lex, hchars, hvar, hspace, hname, hcolon]

theorem ofLexemes_variableOf (text : String) :
    Word.ofLexemes (Lexeme.lex (variableOf text)) =
      varWord :: nameWord :: colonWord :: wordsOf false text.toList := by
  rw [lex_variableOf, ← wordsOf_space true]
  rfl

/-! ## sketches -/

section

variable {w : Word} (hw : w.kind = .kwVar ∨ w.kind = .kwLet)

include hw

theorem atDeclaration_binding (ws : List Word) : atDeclaration (w :: ws) = true := by
  have hsign : w.kind ≠ .atSign := by
    rintro h
    simp [h] at hw
  have hmodifier : atModifier (w :: ws) = false := by
    obtain h | h := hw <;> simp [atModifier, h]
  have hskip : skipAttributesAndModifiers (w :: ws) = w :: ws := by
    rw [skipAttributesAndModifiers, if_neg hsign, hmodifier, if_neg Bool.false_ne_true]
  rw [atDeclaration, hskip]
  obtain h | h := hw <;> simp [atDeclarationWord, atAny, kind?, h, declarationWords]

theorem item_binding {n : Nat} (inside : List Kind → Rule n) (ws : List Word) (h) :
    item inside [] (w :: ws) h = declaration inside [] (w :: ws) h := by
  have hsemicolon : at? .semicolon (w :: ws) = false := by
    obtain h | h := hw <;> simp [at?, kind?, h]
  unfold item Rule.ifAt
  rw [hsemicolon, if_neg Bool.false_ne_true, atDeclaration_binding hw, if_pos rfl]

end

/-- The sketch of a variable with an annotation and what else stands there. -/
def variableSketch (type binding list : List Sketch) : Sketch :=
  .node .variableDecl [.word varWord, .node .patternBindingList
    (.node .patternBinding (.node .identifierPattern [.word nameWord] ::
      .node .annotatedType (.word colonWord :: type) :: binding) :: list)]

theorem sketches_variable (ws : List Word) :
    ∃ binding list items, (fileItems (varWord :: nameWord :: colonWord :: ws)).sketches =
      variableSketch (typeFrom ws).sketches binding list :: items := by
  have hother : atOther [] (varWord :: nameWord :: colonWord :: ws) = true := rfl
  have hitem {n : Nat} (inside : List Kind → Rule n) (h) : ∃ binding list,
      (item inside [] (varWord :: nameWord :: colonWord :: ws) h).sketches =
        [variableSketch (typeFrom ws).sketches binding list] := by
    rw [item_binding (.inl rfl)]
    exact ⟨_, _, rfl⟩
  rw [fileItems, itemsFrom, dif_pos hother]
  obtain ⟨binding, list, heq⟩ := hitem (fun stop r _ => itemsFrom stop r) (Nat.lt_succ_self _)
  exact ⟨binding, list, _, congrArg (· ++ _) heq⟩

/-- The tree of a variable with an annotation. -/
def variableTree (t : Tree) : Tree :=
  .node .variableDecl [varWord.tree, .node .patternBindingList [.node .patternBinding
    [.node .identifierPattern [nameWord.tree], .node .annotatedType [colonWord.tree, t]]]]

theorem reads_itemsFrom_nil (stop : List Kind) : (itemsFrom stop []).Reads [] [] := by
  have hnone : ¬atOther stop [] = true := by simp [atOther, atWord]
  rw [itemsFrom, dif_neg hnone]
  exact ⟨True.intro, rfl, rfl⟩

theorem reads_itemsFrom {stop : List Kind} {ws us vs : List Word} {ts ts' : List Tree}
    (hitem : Reads (item (fun stop r _ => itemsFrom stop r : List Kind → Rule ws.length) stop) ws ts
      us) (hother : atOther stop ws = true) (hitems : (itemsFrom stop us).Reads ts' vs) :
    (itemsFrom stop ws).Reads (ts ++ ts') vs := by
  rw [itemsFrom, dif_pos hother]
  have hfirst := hitem (Nat.lt_succ_self _)
  obtain rfl := hfirst.rest
  exact hfirst.append hitems

section

variable {ws vs : List Word} {t : Tree} {n : Nat} (h : (typeFrom ws).Reads [t] vs)

include h

theorem reads_annotatedType : Reads (annotatedType : Rule n) (colonWord :: ws)
    [.node .annotatedType [colonWord.tree, t]] vs :=
  ((reads_bump _ _).seq (reads_type h)).node _

variable (hvs : Before [.customOperator] vs)

include hvs

/-- If all behind a type is an operator, neither a value nor accessors follow, -/
theorem reads_patternBinding (inside : List Kind → Rule n) :
    Reads (patternBinding inside) (nameWord :: colonWord :: ws)
      [.node .patternBinding [.node .identifierPattern [nameWord.tree],
        .node .annotatedType [colonWord.tree, t]]] vs := by
  have hpattern : Reads (pattern : Rule (n + 1)) (nameWord :: colonWord :: ws)
      [.node .identifierPattern [nameWord.tree]] (colonWord :: ws) :=
    ((reads_bump _ _).node _).ifAt rfl
  exact (hpattern.seq (((reads_annotatedType h).optional rfl).seq
    ((reads_optional_not (at?_of_before hvs (by decide))).seq
      (reads_optional_not (at?_of_before hvs (by decide)))))).node _

/-- and no other binding. -/
theorem reads_item_variable (inside : List Kind → Rule n) :
    Reads (item inside []) (varWord :: nameWord :: colonWord :: ws) [variableTree t] vs := by
  have hnone : Reads (commaTail (fun _ => true) (patternBinding inside)) vs [] vs := by
    cases vs with
    | nil =>
      intro h
      unfold commaTail
      exact reads_done [] h
    | cons w r =>
      have hw : w.kind = .customOperator := List.mem_singleton.1 (hvs w rfl)
      exact reads_commaTail_not (by rw [hw]; decide)
  have hlist := ((reads_patternBinding h hvs inside).seq hnone).optional (c := fun _ => true) rfl
  have hlead : Reads (attributesAndModifiers : Rule (n + 1))
      (varWord :: nameWord :: colonWord :: ws) [] (varWord :: nameWord :: colonWord :: ws) :=
    (reads_optional_not rfl).seq (reads_optional_not rfl)
  intro h
  rw [item_binding (.inl rfl)]
  exact ((hlead h).append ((reads_bump varWord _).seq (hlist.node .patternBindingList) _)).node _

/-- The items behind it follow. -/
theorem reads_variable {ts : List Tree} (hitems : (itemsFrom [] vs).Reads ts []) :
    (fileItems (varWord :: nameWord :: colonWord :: ws)).Reads (variableTree t :: ts) [] :=
  reads_itemsFrom (reads_item_variable h hvs _) rfl hitems

end

/-! ## the annotation -/

section

open Sketch (layAll)

/-- The lexemes behind the colon. -/
def placedType (text : String) : List Placed := Placed.ofLexemes 6 (lexChars (' ' :: text.toList))

/-- What is laid over them, and what of them is left. -/
def laidType (text : String) : List Marked × List Placed :=
  layAll (Lexeme.sizeOfAll (Lexeme.lex (variableOf text)))
    (typeFrom (wordsOf false text.toList)).sketches (placedType text)

theorem placed_variableOf (text : String) :
    Placed.ofLexemes 0 (Lexeme.lex (variableOf text)) =
      ⟨⟨.kwVar, "var"⟩, ⟨0, 3⟩⟩ :: ⟨⟨.whitespace, " "⟩, ⟨3, 4⟩⟩ :: ⟨⟨.identifier, "v"⟩, ⟨4, 5⟩⟩ ::
        ⟨⟨.colon, ":"⟩, ⟨5, 6⟩⟩ :: placedType text := by
  rw [lex_variableOf]
  rfl

theorem annotation?_variableOf (text : String) :
    annotation? ⟨(parse (variableOf text)).tree, 0⟩ =
      some ⟨.node .annotatedType
        (.token .colon ":" :: Marked.treesOfAll (laidType text).1), 5⟩ := by
  obtain ⟨binding, list, items, hsketches⟩ := sketches_variable (wordsOf false text.toList)
  have hfile : fileSketch (variableOf text) =
      variableSketch (typeFrom (wordsOf false text.toList)).sketches binding list :: items := by
    rw [fileSketch, ofLexemes_variableOf]
    exact hsketches
  show annotation? ⟨.node .sourceFile (Marked.treesOfAll (markedParts (variableOf text))), 0⟩ = _
  rw [markedParts_eq, hfile, placed_variableOf]
  rfl

theorem placedOfAll_laidType (text : String) :
    (Marked.placedOfAll (laidType text).1).map (·.lexeme) ++ (laidType text).2.map (·.lexeme) =
      lexChars (' ' :: text.toList) := by
  rw [← List.map_append, laidType, Sketch.placed_layAll, placedType, Placed.map_lexeme_ofLexemes]

theorem sizeOfAll_laidType_eq_zero_iff (text : String) :
    Lexeme.sizeOfAll ((laidType text).2.map (·.lexeme)) = 0 ↔ (laidType text).2 = [] := by
  constructor
  · intro hzero
    by_contra hne
    obtain ⟨p, r, hcons⟩ := List.exists_cons_of_ne_nil hne
    have hmem : p.lexeme ∈ Lexeme.lex (variableOf text) := by
      rw [lex_variableOf, ← placedOfAll_laidType, hcons]
      simp
    have hpos := Lexeme.size_pos_of_mem_lex hmem
    rw [hcons, List.map_cons, Lexeme.sizeOfAll_cons] at hzero
    omega
  · intro hnil
    rw [hnil]
    rfl

theorem size_variableOf (text : String) :
    (variableOf text).utf8ByteSize = 6 + Lexeme.sizeOfAll (lexChars (' ' :: text.toList)) := by
  rw [← Lexeme.sizeOfAll_lex, lex_variableOf]
  show 3 + (1 + (1 + (1 + _))) = _
  omega

/-- The annotation ends with what is laid over the lexemes. -/
theorem stop_annotated (text : String) :
    (Located.range ⟨.node .annotatedType
        (.token .colon ":" :: Marked.treesOfAll (laidType text).1), 5⟩).stop =
      6 + Lexeme.sizeOfAll ((Marked.placedOfAll (laidType text).1).map (·.lexeme)) := by
  rw [← Marked.tokens_treesOfAll, ← Tree.sizeOfAll_eq]
  show 5 + (1 + _) = _
  omega

/-- It ends with the source if nothing is left behind the type. -/
theorem stop_annotated_iff (text : String) :
    (Located.range ⟨.node .annotatedType
        (.token .colon ":" :: Marked.treesOfAll (laidType text).1), 5⟩).stop =
      (variableOf text).utf8ByteSize ↔ (laidType text).2 = [] := by
  rw [← sizeOfAll_laidType_eq_zero_iff, stop_annotated, size_variableOf, ← placedOfAll_laidType,
    Lexeme.sizeOfAll_append]
  omega

theorem map_lexeme_placedType (text : String) :
    (Placed.words (placedType text)).map (·.lexeme) =
      (wordsOf false text.toList).map Word.lexeme := by
  rw [← wordsOf_space true, wordsOf, Word.map_lexeme_ofLexemesAfter, Placed.map_lexeme_words,
    placedType, Placed.map_lexeme_ofLexemes]

/-- The words that are left are those that the type leaves. -/
theorem map_lexeme_laidType (text : String) :
    (Placed.words (laidType text).2).map (·.lexeme) =
      (typeFrom (wordsOf false text.toList)).rest.map Word.lexeme :=
  Parsed.map_lexeme_layAll _ _ (map_lexeme_placedType text)

/-- If nothing is left behind the type, the type takes all words. -/
theorem rest_eq_nil_of_laidType {text : String} (h : (laidType text).2 = []) :
    (typeFrom (wordsOf false text.toList)).rest = [] := by
  have hwords := map_lexeme_laidType text
  rw [h] at hwords
  exact List.map_eq_nil_iff.1 hwords.symm

/-- If the type takes all words and the text ends with one, nothing is left behind the type. -/
theorem laidType_eq_nil {text : String} (hrest : (typeFrom (wordsOf false text.toList)).rest = [])
    (hlast : ∀ l ∈ (lexChars (' ' :: text.toList)).getLast?, l.isTrivia = false) :
    (laidType text).2 = [] := by
  have hwords := map_lexeme_laidType text
  rw [hrest, List.map_nil, List.map_eq_nil_iff] at hwords
  obtain hnil | ⟨front, p, hfront⟩ := List.eq_nil_or_concat (laidType text).2
  · exact hnil
  · -- the last lexeme would be left, but it is a word
    have hword : p.lexeme.isTrivia = false := by
      refine hlast _ ?_
      rw [← placedOfAll_laidType, hfront]
      simp
    rw [hfront, List.concat_eq_append, Placed.words_append] at hwords
    simp [Placed.words, hword] at hwords

/-- What is laid over the lexemes of an annotation without faults ends with a word. -/
theorem exists_getLast?_laidType {text : String} (hclean : (parse (variableOf text)).faults = []) :
    ∃ p ∈ (⟨⟨.colon, ":"⟩, ⟨5, 6⟩⟩ :: Marked.placedOfAll (laidType text).1).getLast?,
      p.lexeme.isTrivia = false := by
  obtain ⟨binding, list, items, hsketches⟩ := sketches_variable (wordsOf false text.toList)
  have htight := tightAll_fileSketch hclean
  rw [fileSketch, ofLexemes_variableOf, hsketches] at htight
  have hannotated : (Sketch.node .annotatedType (.word colonWord ::
      (typeFrom (wordsOf false text.toList)).sketches)).Tight := htight.1.2.2.1.2.1.2.2.1
  have hends := hannotated.1.resolve_right (by simp)
  have hle : (Sketch.wordsOfAll (typeFrom (wordsOf false text.toList)).sketches).length ≤
      (Placed.words (placedType text)).length := by
    have hcovers := congrArg List.length (typeFrom (wordsOf false text.toList)).covers
    have hwords := congrArg List.length (map_lexeme_placedType text)
    rw [List.length_append] at hcovers
    rw [List.length_map, List.length_map] at hwords
    omega
  have hlen : (Sketch.wordsOfAll (.word colonWord ::
      (typeFrom (wordsOf false text.toList)).sketches)).length ≤
        (Placed.words (⟨⟨.colon, ":"⟩, ⟨5, 6⟩⟩ :: placedType text)).length := Nat.succ_le_succ hle
  exact Sketch.exists_getLast?_layAll (Lexeme.sizeOfAll (Lexeme.lex (variableOf text))) hends hlen

/-- If nothing is left behind a type without faults, the text ends with a word. -/
theorem isTrivia_of_laidType {text : String} (hclean : (parse (variableOf text)).faults = [])
    (h : (laidType text).2 = []) : ∀ l ∈ (lexChars text.toList).getLast?, l.isTrivia = false := by
  obtain ⟨p, hp, hword⟩ := exists_getLast?_laidType hclean
  have hchars := placedOfAll_laidType text
  rw [h, List.map_nil, List.append_nil] at hchars
  intro l hl
  by_contra htrivia
  -- trivia at the end of the text is so too behind the space before it
  have hkind : l.kind ∈ [Kind.whitespace, .lineComment, .blockComment] := by
    unfold Lexeme.isTrivia Kind.isTrivia at htrivia
    split at htrivia <;> simp_all
  obtain ⟨m, hm, hmkind⟩ := EndsIn.space ⟨l, hl, hkind⟩
  have hlast := congrArg (Option.map (·.lexeme)) (Option.mem_def.1 hp)
  rw [← List.getLast?_map, List.map_cons, hchars, List.getLast?_cons, hm] at hlast
  obtain rfl : m = p.lexeme := Option.some.inj hlast
  have hkinds : ∀ k ∈ [Kind.whitespace, .lineComment, .blockComment], k.isTrivia = true := by
    decide
  exact Bool.false_ne_true (hword.symm.trans (hkinds _ hmkind))

theorem type?_annotated {k : Kind} {x : String} {t : Tree} (ht : t.isType = true) :
    (Tree.node .annotatedType [.token k x, t]).type? = some t := by
  rw [Tree.type?, Tree.children, List.find?_cons_of_neg Bool.false_ne_true,
    List.find?_cons_of_pos ht]

theorem ofWrapper_annotated {k : Kind} {x : String} {t : Tree} (ht : t.isType = true) :
    TypeShape.ofWrapper (.node .annotatedType [.token k x, t]) = TypeShape.ofTree t := by
  rw [TypeShape.ofWrapper, type?_annotated ht]
  rfl

/-- Without trivia, the annotation has the type that the sketch of the words has. -/
theorem bare_laidType {text : String} {t : Tree}
    (htrees : Sketch.treesOfAll (typeFrom (wordsOf false text.toList)).sketches = [t]) :
    (Tree.node .annotatedType (.token .colon ":" :: Marked.treesOfAll (laidType text).1)).bare =
      .node .annotatedType [.token .colon ":", t] := by
  have hwords : (Placed.words (placedType text)).map (·.lexeme) =
      (Sketch.wordsOfAll (typeFrom (wordsOf false text.toList)).sketches).map Word.lexeme ++
        (typeFrom (wordsOf false text.toList)).rest.map Word.lexeme := by
    rw [← List.map_append, (typeFrom _).covers, map_lexeme_placedType]
  show Tree.node .annotatedType (.token .colon ":" ::
    Tree.bareAll (Marked.treesOfAll (laidType text).1)) = _
  rw [laidType, Sketch.bareAll_layAll _ _ _ _ hwords, htrees]

/-- The annotation has the shape of that type. -/
theorem ofWrapper_laidType {text : String} {t : Tree} (ht : t.isType = true)
    (htrees : Sketch.treesOfAll (typeFrom (wordsOf false text.toList)).sketches = [t]) :
    TypeShape.ofWrapper (.node .annotatedType
      (.token .colon ":" :: Marked.treesOfAll (laidType text).1)) = TypeShape.ofTree t := by
  rw [← TypeShape.ofWrapper_bare, bare_laidType htrees, ofWrapper_annotated ht]

/-! ## texts -/

/-- A text that spells a type may stand for it. -/
theorem Spells.reads {text : String} {s : TypeShape} (h : Spells text.toList s) :
    ∃ t, t.isType = true ∧ TypeShape.ofTree t = s ∧
      (typeFrom (wordsOf false text.toList)).Reads [t] [] := by
  obtain ⟨t, ht, hs⟩ := h.denotes false
  have hreads := ht.reads [] (by rintro w ⟨⟩)
  rw [List.append_nil] at hreads
  exact ⟨t, ht.isType, hs, hreads⟩

section

variable {text : String} {t : Tree} {vs : List Word} {ts : List Tree}
  (hreads : (typeFrom (wordsOf false text.toList)).Reads [t] vs)
  (hvs : Before [.customOperator] vs) (hitems : (itemsFrom [] vs).Reads ts [])

include hreads hvs hitems

/-- A source that reads as a variable and items behind it has no faults. -/
theorem faults_of_reads : (parse (variableOf text)).faults = [] := by
  rw [faults_parse, fileSketch, ofLexemes_variableOf,
    Sketch.faultMarksOfAll_of_clean _ (reads_variable hreads hvs hitems).clean]
  rfl

/-- It declares what these trees do. -/
theorem typed?_of_reads :
    (Analysis.ofSource .default (variableOf text)).declarations.map Declaration.typed? =
      (Declaration.collectFile .default (.node .sourceFile (variableTree t :: ts))).map
        Declaration.typed? := by
  show (Declaration.collectFile _ _).map _ = _
  rw [Declaration.map_typed?, Declaration.map_outline_collectFile, ← Declaration.map_typed?,
    bare_parse, fileSketch, ofLexemes_variableOf, (reads_variable hreads hvs hitems).trees]

end

/-- A text that ends with a word, and all of which is read as a type, annotates a variable. -/
theorem annotates_of_reads {text : String} {t : Tree} (ht : t.isType = true)
    (hreads : (typeFrom (wordsOf false text.toList)).Reads [t] [])
    (hends : EndsIn typeEnds text.toList) : Annotates text (TypeShape.ofTree t) := by
  have hlast : ∀ l ∈ (lexChars (' ' :: text.toList)).getLast?, l.isTrivia = false := by
    obtain ⟨m, hm, hk⟩ := hends.space
    intro l hl
    obtain rfl : m = l := Option.some.inj (hm.symm.trans hl)
    have hwords : ∀ k ∈ typeEnds, k.isTrivia = false := by decide
    exact hwords _ hk
  constructor
  · exact faults_of_reads hreads (fun _ h => nomatch h) (reads_itemsFrom_nil [])
  · refine ⟨_, annotation?_variableOf text, ?_, ?_⟩
    · exact (stop_annotated_iff text).2 (laidType_eq_nil hreads.rest hlast)
    · rw [ofWrapper_laidType ht hreads.trees]

theorem Spells.annotates {text : String} {s : TypeShape} (h : Spells text.toList s) :
    Annotates text s := by
  obtain ⟨t, ht, rfl, hreads⟩ := h.reads
  exact annotates_of_reads ht hreads h.ends

/-- All of a text that annotates a variable is read as a type without faults, and ends with a
word. -/
theorem clean_of_annotates {text : String} {s : TypeShape} (h : Annotates text s) :
    CleanAll (typeFrom (wordsOf false text.toList)).sketches ∧
      (typeFrom (wordsOf false text.toList)).rest = [] ∧
      ∀ l ∈ (lexChars text.toList).getLast?, l.isTrivia = false := by
  obtain ⟨a, ha, hstop, -⟩ := h.shape
  obtain rfl := Option.some.inj ((annotation?_variableOf text).symm.trans ha)
  have hnil := (stop_annotated_iff text).1 hstop
  obtain ⟨binding, list, items, hsketches⟩ := sketches_variable (wordsOf false text.toList)
  have hfile := cleanAll_fileSketch h.clean
  rw [fileSketch, ofLexemes_variableOf, hsketches] at hfile
  exact ⟨hfile.1.2.1.1.2.1.2, rest_eq_nil_of_laidType hnil, isTrivia_of_laidType h.clean hnil⟩

/-- A text that annotates a variable spells its type. -/
theorem spells_of_annotates {text : String} {s : TypeShape} (h : Annotates text s) :
    Spells text.toList s := by
  obtain ⟨a, ha, -, hs⟩ := h.shape
  obtain rfl := Option.some.inj ((annotation?_variableOf text).symm.trans ha)
  obtain ⟨hclean, hrest, hlast⟩ := clean_of_annotates h
  obtain ⟨t, ht, htrees, hspells⟩ := spells_of_clean hclean hrest hlast
  rw [ofWrapper_laidType ht htrees] at hs
  exact hs ▸ hspells

theorem map_typed?_collectFile {t : Tree} (ht : t.isType = true) :
    (Declaration.collectFile .default (.node .sourceFile [variableTree t])).map
      Declaration.typed? = [some ("v", TypeShape.ofTree t)] := by
  rw [Declaration.collectFile, Declaration.collect_eq,
    ← ofWrapper_annotated (k := .colon) (x := ":") ht]
  rfl

/-- A variable that is declared with a text which is read as a type is of the shape of that. -/
theorem declares_of_reads {text : String} {t : Tree} (ht : t.isType = true)
    (hreads : (typeFrom (wordsOf false text.toList)).Reads [t] [])
    (hends : EndsIn typeEnds text.toList) : Declares text (TypeShape.ofTree t) := by
  refine { annotates_of_reads ht hreads hends with declarations := ?_ }
  rw [typed?_of_reads hreads (fun _ h => nomatch h) (reads_itemsFrom_nil []),
    map_typed?_collectFile ht]

/-- A variable that is declared with a text for its type has the shape that the text spells. -/
theorem Spells.declares {text : String} {s : TypeShape} (h : Spells text.toList s) :
    Declares text s := by
  obtain ⟨t, ht, rfl, hreads⟩ := h.reads
  exact declares_of_reads ht hreads h.ends

end

end Grammar

end SwiftOutline

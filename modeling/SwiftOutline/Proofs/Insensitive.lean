import SwiftOutline.Analysis
import SwiftOutline.Proofs.Moved

/-!
# SwiftOutline.Proofs.Insensitive

Trivia only joins words or parts them: of two sources with the same words, as far as kind, text,
what they are joined to and line breaks before them go, the same is read.

* `bare_parse` and `faults_parse` give the tree and the faults by the words alone;
* `map_moved_walkAll_collectFile` — the declarations met in a walk are those of the tree without
  trivia, each moved by what trivia stands before it;
* `trivia_insensitive` — two sources with the same words are read alike.
-/

namespace SwiftOutline

/-- The span of the `n`th word of a source, or the empty span at its end. -/
def wordSpan (source : String) (n : Nat) : Span :=
  Placed.headSpan (Lexeme.sizeOfAll (Lexeme.lex source))
    ((Placed.words (Placed.ofLexemes 0 (Lexeme.lex source))).drop n)

/-- Two sources of which the same is read. -/
structure ReadAlike (s₁ s₂ : String) : Prop where
  /-- The trees are equal without trivia. -/
  tree : (parse s₁).tree.bare = (parse s₂).tree.bare
  /-- The same faults are found in the same order, each at words that correspond. -/
  faults : ∃ marks : List (Fault × Nat),
    (parse s₁).faults = marks.map (fun m => (m.1, wordSpan s₁ m.2)) ∧
      (parse s₂).faults = marks.map (fun m => (m.1, wordSpan s₂ m.2))
  /-- The same declarations are found, but for places and texts of expressions. -/
  declarations (c : Config) :
    (Analysis.ofSource c s₁).declarations.map Declaration.outline =
      (Analysis.ofSource c s₂).declarations.map Declaration.outline
  /-- The same declarations are met in a walk in source order. -/
  walk (c : Config) :
    (Declaration.walkAll (Analysis.ofSource c s₁).declarations).map Declaration.outline =
      (Declaration.walkAll (Analysis.ofSource c s₂).declarations).map Declaration.outline
  /-- The same variables among them may be assigned. -/
  setters (c : Config) :
    (Declaration.walkAll (Analysis.ofSource c s₁).declarations).map Declaration.hasSetter? =
      (Declaration.walkAll (Analysis.ofSource c s₂).declarations).map Declaration.hasSetter?

namespace Declaration

/-- The declarations of a source file are those of the file without trivia, moved. -/
theorem map_moved_collectFile (c : Config) (source : String) :
    (collectFile c (parse source).tree.bare).map (moved (Lexeme.offsetIn (Lexeme.lex source))) =
      (collectFile c (parse source).tree).map (moved id) :=
  map_moved_collect c none ⟨rfl, anchoredAll_parse source⟩

/-- The declarations met in a walk through a source file are those met in a walk through the
file without trivia, moved. -/
theorem map_moved_walkAll_collectFile (c : Config) (source : String) :
    (walkAll (collectFile c (parse source).tree.bare)).map
        (moved (Lexeme.offsetIn (Lexeme.lex source))) =
      (walkAll (collectFile c (parse source).tree)).map (moved id) := by
  rw [map_moved_walkAll (Lexeme.strictMono_offsetIn _), map_moved_walkAll strictMono_id,
    map_moved_collectFile]

theorem map_outline_collectFile (c : Config) (source : String) :
    (collectFile c (parse source).tree).map outline =
      (collectFile c (parse source).tree.bare).map outline := by
  rw [← map_outline_map_moved id, ← map_moved_collectFile, map_outline_map_moved]

theorem map_outline_walkAll_collectFile (c : Config) (source : String) :
    (walkAll (collectFile c (parse source).tree)).map outline =
      (walkAll (collectFile c (parse source).tree.bare)).map outline := by
  rw [← map_outline_map_moved id, ← map_moved_walkAll_collectFile, map_outline_map_moved]

theorem map_hasSetter? (ds : List Declaration) :
    ds.map hasSetter? = (ds.map outline).map hasSetter? := by
  rw [List.map_map]
  refine List.map_congr_left fun d _ => ?_
  exact (hasSetter?_outline d).symm

end Declaration

/-- Two sources are read alike if they have the same words: words of the same kind and text, of
which each follows the word before it without or with trivia, and on the same line or not, in
both. -/
theorem trivia_insensitive {s₁ s₂ : String}
    (h : Word.ofLexemes (Lexeme.lex s₁) = Word.ofLexemes (Lexeme.lex s₂)) : ReadAlike s₁ s₂ := by
  have hsketch : fileSketch s₁ = fileSketch s₂ := by rw [fileSketch, fileSketch, h]
  have htree : (parse s₁).tree.bare = (parse s₂).tree.bare := by
    rw [bare_parse, bare_parse, hsketch]
  have hwalk (c : Config) :
      (Declaration.walkAll (Declaration.collectFile c (parse s₁).tree)).map
          Declaration.outline =
        (Declaration.walkAll (Declaration.collectFile c (parse s₂).tree)).map
          Declaration.outline := by
    rw [Declaration.map_outline_walkAll_collectFile, Declaration.map_outline_walkAll_collectFile,
      htree]
  constructor
  case tree => exact htree
  case faults =>
    refine ⟨Sketch.faultMarksOfAll 0 (fileSketch s₁), faults_parse s₁, ?_⟩
    rw [hsketch]
    exact faults_parse s₂
  case declarations =>
    intro c
    show (Declaration.collectFile c _).map _ = (Declaration.collectFile c _).map _
    rw [Declaration.map_outline_collectFile, Declaration.map_outline_collectFile, htree]
  case walk => exact hwalk
  case setters =>
    intro c
    rw [Declaration.map_hasSetter?, Declaration.map_hasSetter? (Declaration.walkAll _)]
    exact congrArg _ (hwalk c)

/-- Spaces and comments within a line do not matter, where words are parted anyway. -/
theorem readAlike_commented :
    Word.ofLexemes (Lexeme.lex "class A \x7b var x = 1 \x7d") =
        Word.ofLexemes (Lexeme.lex "  class/* c */A  \x7b var/**/x = 1\t\x7d // end") ∧
      ReadAlike "class A \x7b var x = 1 \x7d"
        "  class/* c */A  \x7b var/**/x = 1\t\x7d // end" := by
  have h : Word.ofLexemes (Lexeme.lex "class A \x7b var x = 1 \x7d") =
      Word.ofLexemes (Lexeme.lex "  class/* c */A  \x7b var/**/x = 1\t\x7d // end") := by
    decide +kernel
  exact ⟨h, trivia_insensitive h⟩

end SwiftOutline

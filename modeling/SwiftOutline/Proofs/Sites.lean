import SwiftOutline.Proofs.Shape

/-!
# SwiftOutline.Proofs.Sites

Where the nodes of a syntax tree start.

* `Tree.sites` — the nodes of a tree in document order, each with the number of words before it;
* `sitesOfAll_layAll` — laying a sketch keeps its sites, whatever the trivia;
* `origin_of_mem_sites` — a node of a source file starts at words that its kind may start at;
* `noDeclaration_mem_faults_iff` — a file reports that a declaration is missing exactly if its
  tree has an `error` node; `noCondition_mem_faults_iff` — it reports that a condition is missing
  exactly if one stands at its end.
-/

namespace SwiftOutline

namespace Tree

/-- The number of words among the tokens of a tree. -/
def wordCount (t : Tree) : Nat := (t.tokens.filter (!·.isTrivia)).length

mutual

/-- The nodes of a tree in document order, each with the number of words before it; `n` words
stand before the tree. -/
def sites (n : Nat) : Tree → List (Kind × Nat)
  | node k cs => (k, n) :: sitesOfAll n cs
  | token .. => []

/-- The nodes of a run of trees in document order, each with the number of words before it. -/
def sitesOfAll (n : Nat) : List Tree → List (Kind × Nat)
  | [] => []
  | t :: ts => sites n t ++ sitesOfAll (n + wordCount t) ts

end

/-- The number of words among the tokens of a run of trees. -/
def wordCountOfAll (ts : List Tree) : Nat := ((tokensOfAll ts).filter (!·.isTrivia)).length

theorem wordCountOfAll_cons (t : Tree) (ts : List Tree) :
    wordCountOfAll (t :: ts) = wordCount t + wordCountOfAll ts := by
  rw [wordCountOfAll, tokensOfAll, List.filter_append, List.length_append]
  rfl

theorem sitesOfAll_append (n : Nat) (ts us : List Tree) :
    sitesOfAll n (ts ++ us) = sitesOfAll n ts ++ sitesOfAll (n + wordCountOfAll ts) us := by
  induction ts generalizing n with
  | nil => rfl
  | cons t ts ih =>
    rw [List.cons_append, sitesOfAll, sitesOfAll, ih, wordCountOfAll_cons, List.append_assoc,
      Nat.add_assoc]

end Tree

namespace Sketch

mutual

/-- The nodes of a sketch in order, each with the number of words before it; `n` words stand
before the sketch. -/
def sites (n : Nat) : Sketch → List (Kind × Nat)
  | node k ps => (k, n) :: sitesOfAll n ps
  | _ => []

/-- The nodes of a run of sketches in order, each with the number of words before it. -/
def sitesOfAll (n : Nat) : List Sketch → List (Kind × Nat)
  | [] => []
  | s :: ss => sites n s ++ sitesOfAll (n + s.words.length) ss

end

/-! ## laying -/

open Marked

theorem wordCountOfAll_trees (ms : List Marked) :
    Tree.wordCountOfAll (Marked.treesOfAll ms) = (Placed.words (placedOfAll ms)).length := by
  rw [Tree.wordCountOfAll, tokens_treesOfAll, ← Placed.map_lexeme_words, List.length_map]

/-- A sketch laid over enough lexemes has as many words as before. -/
theorem wordCountOfAll_lay (size : Nat) (s : Sketch) (ps : List Placed)
    (h : s.words.length ≤ (Placed.words ps).length) :
    Tree.wordCountOfAll (Marked.treesOfAll (lay size s ps).1) = s.words.length := by
  have hall := congrArg (fun qs => (Placed.words qs).length) (placed_lay size s ps)
  simp only [Placed.words_append, words_lay, List.length_append, List.length_drop] at hall
  rw [wordCountOfAll_trees]
  omega

theorem sitesOfAll_map_token (n : Nat) (ps : List Placed) :
    Tree.sitesOfAll n (Marked.treesOfAll (ps.map token)) = [] := by
  induction ps generalizing n with
  | nil => rfl
  | cons p r ih => exact ih _

/-- Leading trivia holds no node and no word. -/
theorem sitesOfAll_leading (n : Nat) (ps : List Placed) :
    Tree.sitesOfAll n (Marked.treesOfAll (leading ps).1) = [] ∧
      Tree.wordCountOfAll (Marked.treesOfAll (leading ps).1) = 0 := by
  refine ⟨sitesOfAll_map_token n _, ?_⟩
  rw [wordCountOfAll_trees, leading, placedOfAll_map_token, words_takeWhile]
  rfl

mutual

/-- Laying a sketch over enough lexemes keeps its sites. -/
theorem sitesOfAll_lay (size : Nat) (s : Sketch) (ps : List Placed) (n : Nat)
    (h : s.words.length ≤ (Placed.words ps).length) :
    Tree.sitesOfAll n (Marked.treesOfAll (lay size s ps).1) = s.sites n := by
  obtain ⟨hlead, hcount⟩ := sitesOfAll_leading n ps
  cases s with
  | word w =>
    rw [lay_word]
    cases (leading ps).2 with
    | nil => exact hlead
    | cons p r =>
      rw [Marked.treesOfAll_append, Tree.sitesOfAll_append, hlead]
      rfl
  | node k parts =>
    have hparts := sitesOfAll_layAll size parts (leading ps).2 n (by rwa [words_leading])
    rw [lay_node, Marked.treesOfAll_append, Tree.sitesOfAll_append, hlead, hcount]
    show (k, n) :: Tree.sitesOfAll n _ ++ [] = _
    rw [hparts, List.append_nil]
    rfl
  | fault f => rfl
  | gap => exact hlead

/-- Laying a run of sketches over enough lexemes keeps its sites. -/
theorem sitesOfAll_layAll (size : Nat) (ss : List Sketch) (ps : List Placed) (n : Nat)
    (h : (wordsOfAll ss).length ≤ (Placed.words ps).length) :
    Tree.sitesOfAll n (Marked.treesOfAll (layAll size ss ps).1) = sitesOfAll n ss := by
  cases ss with
  | nil => rfl
  | cons s ss =>
    rw [wordsOfAll_cons, List.length_append] at h
    have hs := sitesOfAll_lay size s ps n (by omega)
    have hss := sitesOfAll_layAll size ss (lay size s ps).2 (n + s.words.length) (by
      rw [words_lay, List.length_drop]
      omega)
    rw [layAll_cons, Marked.treesOfAll_append, Tree.sitesOfAll_append, hs,
      wordCountOfAll_lay size s ps (by omega), hss]
    rfl

end

/-! ## origins -/

mutual

/-- A node of a sited sketch starts at words that its kind may start at. -/
theorem origin_of_mem_sites {words rest : List Word} {s : Sketch} (hs : s.Sited rest) (n : Nat)
    (h : words.drop n = s.words ++ rest) :
    ∀ site ∈ s.sites n, site.1.Origin (words.drop site.2) := by
  cases s with
  | node k ps =>
    intro site hsite
    obtain rfl | hsite := List.mem_cons.1 hsite
    · show k.Origin (words.drop n)
      rw [h]
      exact hs.1
    · exact origin_of_mem_sitesOfAll hs.2.2 n h site hsite
  | word w => intro site hsite; cases hsite
  | fault f => intro site hsite; cases hsite
  | gap => intro site hsite; cases hsite

/-- A node of a run of sited sketches starts at words that its kind may start at. -/
theorem origin_of_mem_sitesOfAll {words rest : List Word} {ss : List Sketch}
    (hs : SitedAll ss rest) (n : Nat) (h : words.drop n = wordsOfAll ss ++ rest) :
    ∀ site ∈ sitesOfAll n ss, site.1.Origin (words.drop site.2) := by
  cases ss with
  | nil => intro site hsite; cases hsite
  | cons s ss =>
    rw [wordsOfAll_cons, List.append_assoc] at h
    have hrest : words.drop (n + s.words.length) = wordsOfAll ss ++ rest := by
      rw [← List.drop_drop, h, List.drop_left]
    intro site hsite
    obtain hsite | hsite := List.mem_append.1 hsite
    · exact origin_of_mem_sites hs.1 n h site hsite
    · exact origin_of_mem_sitesOfAll hs.2 _ hrest site hsite

end

/-! ## missing declarations -/

mutual

/-- A sited sketch reports that a declaration is missing exactly if it is that report or has an
`error` node. -/
theorem noDeclaration_mem_iff {s : Sketch} {rest : List Word} (hs : s.Sited rest) (n : Nat) :
    .noDeclaration ∈ (s.faultMarks n).map Prod.fst ↔
      s = .fault .noDeclaration ∨ .error ∈ (s.sites n).map Prod.fst := by
  cases s with
  | node k ps =>
    have hparts := noDeclaration_mem_iff_of_all hs.2.2 n
    show .noDeclaration ∈ (faultMarksOfAll n ps).map Prod.fst ↔
      _ ∨ .error ∈ k :: (sitesOfAll n ps).map Prod.fst
    rw [hparts, hs.2.1.1, List.mem_cons, eq_comm (a := k)]
    simp
  | word w => simp [faultMarks, sites]
  | fault f => simp [faultMarks, sites, eq_comm]
  | gap => simp [faultMarks, sites]

/-- A run of sited sketches reports that a declaration is missing exactly if it holds that
report or has an `error` node. -/
theorem noDeclaration_mem_iff_of_all {ss : List Sketch} {rest : List Word}
    (hs : SitedAll ss rest) (n : Nat) :
    .noDeclaration ∈ (faultMarksOfAll n ss).map Prod.fst ↔
      .fault .noDeclaration ∈ ss ∨ .error ∈ (sitesOfAll n ss).map Prod.fst := by
  cases ss with
  | nil => simp [faultMarksOfAll, sitesOfAll]
  | cons s ss =>
    have hhead := noDeclaration_mem_iff hs.1 n
    have htail := noDeclaration_mem_iff_of_all hs.2 (n + s.words.length)
    simp only [faultMarksOfAll, sitesOfAll, List.map_append, List.mem_append, List.mem_cons,
      hhead, htail, eq_comm (a := s)]
    grind

end

/-! ## missing conditions -/

mutual

/-- A sited sketch reports that a condition is missing exactly if it is that report or has a
condition where no words are left. -/
theorem noCondition_mem_iff {s : Sketch} {rest : List Word} (hs : s.Sited rest) (n : Nat) :
    .noCondition ∈ (s.faultMarks n).map Prod.fst ↔ s = .fault .noCondition ∨
      (.ifConfigCondition, n + (s.words ++ rest).length) ∈ s.sites n := by
  cases s with
  | node k ps =>
    have hparts := noCondition_mem_iff_of_all hs.2.2 n
    have hend : wordsOfAll ps ++ rest = [] ↔ n + (wordsOfAll ps ++ rest).length = n := by
      rw [Nat.add_eq_left, List.length_eq_zero_iff]
    show .noCondition ∈ (faultMarksOfAll n ps).map Prod.fst ↔
      _ ∨ (_, n + (wordsOfAll ps ++ rest).length) ∈ (k, n) :: sitesOfAll n ps
    rw [hparts, hs.2.1.2, hend, List.mem_cons, Prod.mk.injEq, eq_comm (a := k)]
    simp
  | word w => simp [faultMarks, sites]
  | fault f => simp [faultMarks, sites, eq_comm]
  | gap => simp [faultMarks, sites]

/-- A run of sited sketches reports that a condition is missing exactly if it holds that report or
has a condition where no words are left. -/
theorem noCondition_mem_iff_of_all {ss : List Sketch} {rest : List Word} (hs : SitedAll ss rest)
    (n : Nat) :
    .noCondition ∈ (faultMarksOfAll n ss).map Prod.fst ↔ .fault .noCondition ∈ ss ∨
      (.ifConfigCondition, n + (wordsOfAll ss ++ rest).length) ∈ sitesOfAll n ss := by
  cases ss with
  | nil => simp [faultMarksOfAll, sitesOfAll]
  | cons s ss =>
    have hhead := noCondition_mem_iff hs.1 n
    have htail := noCondition_mem_iff_of_all hs.2 (n + s.words.length)
    have hend : n + (s.words ++ (wordsOfAll ss ++ rest)).length =
        n + s.words.length + (wordsOfAll ss ++ rest).length := by
      rw [List.length_append, Nat.add_assoc]
    rw [hend] at hhead
    rw [wordsOfAll_cons, List.append_assoc, hend]
    simp only [faultMarksOfAll, sitesOfAll, List.map_append, List.mem_append, List.mem_cons,
      hhead, htail, eq_comm (a := s)]
    grind

end

end Sketch

/-! ## source files -/

/-- The nodes of a source file below its root are those of its sketch. -/
theorem sites_parse (source : String) :
    (parse source).tree.sites 0 =
      (.sourceFile, 0) :: Sketch.sitesOfAll 0 (fileSketch source) := by
  have hlen := congrArg List.length (map_lexeme_words_ofLexemes source)
  rw [List.length_map, List.length_map] at hlen
  show _ :: Tree.sitesOfAll 0 (Marked.treesOfAll (markedParts source)) = _
  rw [markedParts_eq, Marked.treesOfAll_append, Tree.sitesOfAll_append,
    Sketch.sitesOfAll_map_token, List.append_nil, Sketch.sitesOfAll_layAll]
  rw [hlen, wordsOfAll_fileSketch]

/-- Every node of a source file starts at words that its kind may start at. -/
theorem origin_of_mem_sites_parse (source : String) :
    ∀ site ∈ (parse source).tree.sites 0,
      site.1.Origin ((Word.ofLexemes (Lexeme.lex source)).drop site.2) := by
  have hfits := Grammar.fits_fileItems (Word.ofLexemes (Lexeme.lex source))
  intro site hsite
  rw [sites_parse] at hsite
  obtain rfl | hsite := List.mem_cons.1 hsite
  · intro hannounced
    cases hannounced
  · exact Sketch.origin_of_mem_sitesOfAll hfits.sited 0
      (Grammar.fileItems (Word.ofLexemes (Lexeme.lex source))).covers.symm site hsite

/-- The faults of a source file are those of its sketch. -/
theorem map_fst_faults_parse (source : String) :
    (parse source).faults.map Prod.fst =
      (Sketch.faultMarksOfAll 0 (fileSketch source)).map Prod.fst := by
  rw [faults_parse, List.map_map]
  rfl

/-- A source file reports that a declaration is missing exactly if its tree has an `error`
node. -/
theorem noDeclaration_mem_faults_iff (source : String) :
    .noDeclaration ∈ (parse source).faults.map Prod.fst ↔
      .error ∈ ((parse source).tree.sites 0).map Prod.fst := by
  have hfits := Grammar.fits_fileItems (Word.ofLexemes (Lexeme.lex source))
  have hiff := Sketch.noDeclaration_mem_iff_of_all hfits.sited 0
  rw [or_iff_right fun hf => Bool.noConfusion (hfits.quiet _ hf)] at hiff
  rw [map_fst_faults_parse, sites_parse, List.map_cons, List.mem_cons, or_iff_right (by simp)]
  exact hiff

/-- A source file reports that a condition is missing exactly if one stands at its end. -/
theorem noCondition_mem_faults_iff (source : String) :
    .noCondition ∈ (parse source).faults.map Prod.fst ↔
      (.ifConfigCondition, (Word.ofLexemes (Lexeme.lex source)).length) ∈
        (parse source).tree.sites 0 := by
  have hfits := Grammar.fits_fileItems (Word.ofLexemes (Lexeme.lex source))
  have hiff := Sketch.noCondition_mem_iff_of_all hfits.sited 0
  rw [or_iff_right fun hf => Bool.noConfusion (hfits.quiet _ hf), Grammar.Parsed.covers,
    Nat.zero_add] at hiff
  rw [map_fst_faults_parse, sites_parse, List.mem_cons, or_iff_right (by simp)]
  exact hiff

end SwiftOutline

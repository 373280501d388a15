import Mathlib.Data.List.TakeWhile
import SwiftOutline.Parse

/-!
# SwiftOutline.Proofs.Layout

What laying a sketch over the lexemes of a source does, in terms of three views of the
result:

* `Marked.placed` — the tokens with their places: together with the lexemes that are left
  they are the lexemes that were there (`placed_layAll`);
* `Tree.bare` — the tree without trivia: it is the sketch without its marks
  (`bareAll_layAll`), whatever the trivia;
* `Sketch.faultMarks` — the faults with the number of words before each: a fault is placed
  at the word of that number (`faults_layAll`).

Only the words that are left decide where the next node, word or fault goes, so each lemma
carries `Placed.words` of the lexemes through the sketch (`words_layAll`). For a source file
this says what its tree is without trivia (`bare_parse`) and where its faults are
(`faults_parse`).
-/

namespace SwiftOutline

/-! ## views -/

namespace Word

/-- A word as a lexeme. -/
def lexeme (w : Word) : Lexeme := ⟨w.kind, w.text⟩

/-- The words of lexemes are the lexemes that are no trivia. -/
theorem map_lexeme_ofLexemesAfter (joined onNewLine : Bool) (ls : List Lexeme) :
    (ofLexemesAfter joined onNewLine ls).map lexeme = ls.filter (!·.isTrivia) := by
  induction ls generalizing joined onNewLine with
  | nil => rfl
  | cons l ls ih =>
    by_cases h : l.isTrivia = true
    · simp [ofLexemesAfter, h, ih]
    · simp [ofLexemesAfter, h, ih, lexeme]

/-- A word is one of the lexemes, and no trivia. -/
theorem mem_of_mem_ofLexemes {w : Word} {ls : List Lexeme} (h : w ∈ ofLexemes ls) :
    w.lexeme ∈ ls ∧ w.lexeme.isTrivia = false := by
  have hmem := List.mem_map_of_mem (f := lexeme) h
  rw [ofLexemes, map_lexeme_ofLexemesAfter, List.mem_filter] at hmem
  exact ⟨hmem.1, by simpa using hmem.2⟩

end Word

namespace Placed

@[simp] theorem map_lexeme_ofLexemes (start : Nat) (ls : List Lexeme) :
    (ofLexemes start ls).map (·.lexeme) = ls := by
  induction ls generalizing start with
  | nil => rfl
  | cons l ls ih => rw [ofLexemes, List.map_cons, ih]

/-- The lexemes that are no trivia, with their places. -/
def words (ps : List Placed) : List Placed := ps.filter (!·.lexeme.isTrivia)

@[simp] theorem words_append (ps qs : List Placed) : words (ps ++ qs) = words ps ++ words qs :=
  List.filter_append ..

theorem map_lexeme_words (ps : List Placed) :
    (words ps).map (·.lexeme) = (ps.map (·.lexeme)).filter (!·.isTrivia) := by
  rw [words, List.filter_map]
  rfl

/-- The span of the first of some lexemes, or the empty span at the end of a source of a
given size. -/
def headSpan (size : Nat) : List Placed → Span
  | [] => ⟨size, size⟩
  | p :: _ => p.span

theorem nextSpan_eq_headSpan (size : Nat) (ps : List Placed) :
    nextSpan size ps = headSpan size (words ps) := by
  rw [nextSpan, words, ← List.head?_filter]
  cases ps.filter (!·.lexeme.isTrivia) with
  | nil => rfl
  | cons p r => rfl

end Placed

namespace Marked

mutual

/-- The tokens of a marked tree with their places, in document order. -/
def placed : Marked → List Placed
  | token p => [p]
  | node _ ps => placedOfAll ps
  | fault .. => []

/-- The tokens of a run of marked trees with their places, in document order. -/
def placedOfAll : List Marked → List Placed
  | [] => []
  | m :: ms => placed m ++ placedOfAll ms

end

theorem placedOfAll_append (ms ns : List Marked) :
    placedOfAll (ms ++ ns) = placedOfAll ms ++ placedOfAll ns := by
  induction ms with
  | nil => rfl
  | cons m ms ih => simp only [List.cons_append, placedOfAll, ih, List.append_assoc]

@[simp] theorem placedOfAll_map_token (ps : List Placed) : placedOfAll (ps.map token) = ps := by
  induction ps with
  | nil => rfl
  | cons p ps ih => simp only [List.map_cons, placedOfAll, placed, ih, List.singleton_append]

theorem treesOfAll_append (ms ns : List Marked) :
    treesOfAll (ms ++ ns) = treesOfAll ms ++ treesOfAll ns := by
  induction ms with
  | nil => rfl
  | cons m ms ih => simp only [List.cons_append, treesOfAll, ih, List.append_assoc]

theorem faultsOfAll_append (ms ns : List Marked) :
    faultsOfAll (ms ++ ns) = faultsOfAll ms ++ faultsOfAll ns := by
  induction ms with
  | nil => rfl
  | cons m ms ih => simp only [List.cons_append, faultsOfAll, ih, List.append_assoc]

@[simp] theorem faultsOfAll_map_token (ps : List Placed) : faultsOfAll (ps.map token) = [] := by
  induction ps with
  | nil => rfl
  | cons p ps ih => simp only [List.map_cons, faultsOfAll, faults, ih, List.nil_append]

mutual

/-- The tokens of the trees below a marked tree are its own. -/
theorem tokens_trees (m : Marked) :
    Tree.tokensOfAll m.trees = m.placed.map (·.lexeme) := by
  cases m with
  | token p => rfl
  | node k ms =>
    simp only [trees, placed, Tree.tokensOfAll, Tree.tokens, List.append_nil]
    exact tokens_treesOfAll ms
  | fault f s => rfl

/-- The tokens of the trees below a run of marked trees are its own. -/
theorem tokens_treesOfAll (ms : List Marked) :
    Tree.tokensOfAll (treesOfAll ms) = (placedOfAll ms).map (·.lexeme) := by
  cases ms with
  | nil => rfl
  | cons m ms =>
    rw [treesOfAll, placedOfAll, Tree.tokensOfAll_append, tokens_trees m,
      tokens_treesOfAll ms, List.map_append]

end

end Marked

namespace Tree

/-- Whether a tree is a token of white space or a comment. -/
def isTrivia (t : Tree) : Bool := !t.isNode && t.kind.isTrivia

mutual

/-- A tree without the trivia below it. -/
def bare : Tree → Tree
  | node k cs => node k (bareAll cs)
  | token k s => token k s

/-- A run of trees without trivia. -/
def bareAll : List Tree → List Tree
  | [] => []
  | t :: ts => if t.isTrivia then bareAll ts else bare t :: bareAll ts

end

theorem bareAll_eq (ts : List Tree) : bareAll ts = (ts.filter (!·.isTrivia)).map bare := by
  induction ts with
  | nil => rfl
  | cons t ts ih =>
    by_cases h : t.isTrivia = true
    · simp [bareAll, h, ih]
    · simp [bareAll, h, ih]

@[simp] theorem bareAll_append (ts us : List Tree) :
    bareAll (ts ++ us) = bareAll ts ++ bareAll us := by
  simp only [bareAll_eq, List.filter_append, List.map_append]

end Tree

namespace Sketch

mutual

/-- The trees that a sketch stands for: its nodes and words without the marks. -/
def trees : Sketch → List Tree
  | word w => [.token w.kind w.text]
  | node k ps => [.node k (treesOfAll ps)]
  | fault _ => []
  | gap => []

/-- The trees that a run of sketches stands for. -/
def treesOfAll : List Sketch → List Tree
  | [] => []
  | s :: ss => trees s ++ treesOfAll ss

end

mutual

/-- The faults of a sketch in order, each with the number of words before it; `n` words stand
before the sketch. -/
def faultMarks (n : Nat) : Sketch → List (Fault × Nat)
  | word _ => []
  | node _ ps => faultMarksOfAll n ps
  | fault f => [(f, n)]
  | gap => []

/-- The faults of a run of sketches in order, each with the number of words before it. -/
def faultMarksOfAll (n : Nat) : List Sketch → List (Fault × Nat)
  | [] => []
  | s :: ss => faultMarks n s ++ faultMarksOfAll (n + s.words.length) ss

end

theorem treesOfAll_append (ss ts : List Sketch) :
    treesOfAll (ss ++ ts) = treesOfAll ss ++ treesOfAll ts := by
  induction ss with
  | nil => rfl
  | cons s ss ih => simp [treesOfAll, ih]

end Sketch

/-! ## leading trivia -/

namespace Marked

theorem placedOfAll_leading (ps : List Placed) :
    placedOfAll (leading ps).1 ++ (leading ps).2 = ps := by
  rw [leading, placedOfAll_map_token, List.takeWhile_append_dropWhile]

@[simp] theorem faultsOfAll_leading (ps : List Placed) : faultsOfAll (leading ps).1 = [] :=
  faultsOfAll_map_token _

/-- Leading trivia is no word. -/
theorem words_leading (ps : List Placed) : Placed.words (leading ps).2 = Placed.words ps := by
  induction ps with
  | nil => rfl
  | cons p ps ih =>
    simp only [leading] at ih ⊢
    by_cases h : p.lexeme.isTrivia = true
    · rw [List.dropWhile_cons, if_pos h, ih]
      simp [Placed.words, h]
    · rw [List.dropWhile_cons, if_neg h]

/-- Tokens without a word among them vanish with the trivia. -/
theorem bareAll_map_token {ps : List Placed} (h : Placed.words ps = []) :
    Tree.bareAll (treesOfAll (ps.map token)) = [] := by
  induction ps with
  | nil => rfl
  | cons p r ih =>
    obtain ⟨hp, hr⟩ : p.lexeme.isTrivia = true ∧ Placed.words r = [] := by
      simpa [Placed.words] using h
    have htrivia : (Tree.token p.lexeme.kind p.lexeme.text).isTrivia = true := hp
    simp only [List.map_cons, treesOfAll, trees, List.singleton_append, Tree.bareAll]
    rw [if_pos htrivia]
    exact ih hr

theorem words_takeWhile (ps : List Placed) :
    Placed.words (ps.takeWhile (·.lexeme.isTrivia)) = [] := by
  rw [Placed.words, List.filter_eq_nil_iff]
  intro p hp
  simpa using List.mem_takeWhile_imp hp

/-- Leading trivia is dropped with the rest of the trivia. -/
theorem bareAll_leading (ps : List Placed) :
    Tree.bareAll (treesOfAll (leading ps).1) = [] := bareAll_map_token (words_takeWhile ps)

/-- What is left after leading trivia starts with a word, if there is one. -/
theorem leading_cases (ps : List Placed) :
    ((leading ps).2 = [] ∧ Placed.words ps = []) ∨
      ∃ p r, (leading ps).2 = p :: r ∧ p.lexeme.isTrivia = false ∧
        Placed.words ps = p :: Placed.words r := by
  cases h : (leading ps).2 with
  | nil =>
    refine .inl ⟨rfl, ?_⟩
    rw [← words_leading, h]
    rfl
  | cons p r =>
    have hp : p.lexeme.isTrivia = false := by
      have := List.head?_dropWhile_not (fun p : Placed => p.lexeme.isTrivia) ps
      rw [show ps.dropWhile (·.lexeme.isTrivia) = p :: r from h] at this
      simpa using this
    refine .inr ⟨p, r, rfl, hp, ?_⟩
    rw [← words_leading, h]
    simp [Placed.words, hp]

end Marked

/-! ## laying -/

namespace Sketch

open Marked

/-- The equation of laying a word, by what stands after the leading trivia. -/
theorem lay_word (size : Nat) (w : Word) (ps : List Placed) :
    lay size (word w) ps =
      match (leading ps).2 with
      | [] => ((leading ps).1, [])
      | p :: r => ((leading ps).1 ++ [.token p], r) := by
  rw [lay]
  cases h : leading ps with
  | mk before rest => cases rest <;> rfl

theorem lay_node (size : Nat) (k : Kind) (parts : List Sketch) (ps : List Placed) :
    lay size (node k parts) ps =
      ((leading ps).1 ++ [.node k (layAll size parts (leading ps).2).1],
        (layAll size parts (leading ps).2).2) := by
  rw [lay]

theorem layAll_cons (size : Nat) (s : Sketch) (ss : List Sketch) (ps : List Placed) :
    layAll size (s :: ss) ps =
      ((lay size s ps).1 ++ (layAll size ss (lay size s ps).2).1,
        (layAll size ss (lay size s ps).2).2) := by
  rw [layAll]

mutual

/-- No lexeme is lost, repeated or moved by laying a sketch. -/
theorem placed_lay (size : Nat) (s : Sketch) (ps : List Placed) :
    placedOfAll (lay size s ps).1 ++ (lay size s ps).2 = ps := by
  have hlead := placedOfAll_leading ps
  cases s with
  | word w =>
    rw [lay_word]
    cases h : (leading ps).2 with
    | nil => simpa [h] using hlead
    | cons p r => simpa [h, placedOfAll_append, placedOfAll, placed] using hlead
  | node k parts =>
    have hparts := placed_layAll size parts (leading ps).2
    rw [lay_node]
    simp only [placedOfAll_append, placedOfAll, placed, List.append_nil, List.append_assoc]
    rw [hparts, hlead]
  | fault f => rfl
  | gap => exact hlead

/-- No lexeme is lost, repeated or moved by laying a run of sketches. -/
theorem placed_layAll (size : Nat) (ss : List Sketch) (ps : List Placed) :
    placedOfAll (layAll size ss ps).1 ++ (layAll size ss ps).2 = ps := by
  cases ss with
  | nil => rfl
  | cons s ss =>
    have hs := placed_lay size s ps
    have hss := placed_layAll size ss (lay size s ps).2
    rw [layAll_cons, placedOfAll_append, List.append_assoc, hss, hs]

end

mutual

/-- A sketch is laid over as many words as it has. -/
theorem words_lay (size : Nat) (s : Sketch) (ps : List Placed) :
    Placed.words (lay size s ps).2 = (Placed.words ps).drop s.words.length := by
  cases s with
  | word w =>
    rw [lay_word]
    obtain ⟨hnil, hw⟩ | ⟨p, r, hcons, -, hw⟩ := leading_cases ps
    · rw [hnil, hw]
      rfl
    · rw [hcons, hw]
      rfl
  | node k parts =>
    rw [lay_node, words_layAll size parts, words_leading, words_node]
  | fault f => rfl
  | gap => exact words_leading ps

/-- A run of sketches is laid over as many words as it has. -/
theorem words_layAll (size : Nat) (ss : List Sketch) (ps : List Placed) :
    Placed.words (layAll size ss ps).2 = (Placed.words ps).drop (wordsOfAll ss).length := by
  cases ss with
  | nil => rfl
  | cons s ss =>
    rw [layAll_cons, words_layAll size ss, words_lay size s, List.drop_drop, wordsOfAll_cons,
      List.length_append]

end

mutual

/-- A sketch laid over its own words is the sketch, once the trivia is gone. -/
theorem bareAll_lay (size : Nat) (s : Sketch) (ps : List Placed) (rest : List Lexeme)
    (h : (Placed.words ps).map (·.lexeme) = s.words.map Word.lexeme ++ rest) :
    Tree.bareAll (Marked.treesOfAll (lay size s ps).1) = s.trees := by
  cases s with
  | word w =>
    rw [lay_word]
    obtain ⟨-, hw⟩ | ⟨p, r, hcons, hp, hw⟩ := leading_cases ps
    · simp [hw] at h
    · have hl : p.lexeme = w.lexeme := by
        rw [hw] at h
        exact (List.cons.inj h).1
      rw [hcons, Marked.treesOfAll_append, Tree.bareAll_append, bareAll_leading]
      have hk : (Tree.token p.lexeme.kind p.lexeme.text).isTrivia = false := hp
      simp only [Marked.treesOfAll, Marked.trees, List.append_nil, Tree.bareAll, hk]
      rw [if_neg Bool.false_ne_true, hl]
      rfl
  | node k parts =>
    have hparts := bareAll_layAll size parts (leading ps).2 rest (by rwa [words_leading])
    rw [lay_node, Marked.treesOfAll_append, Tree.bareAll_append, bareAll_leading]
    simp only [Marked.treesOfAll, Marked.trees, List.append_nil, Tree.bareAll]
    rw [if_neg (by simp [Tree.isTrivia, Tree.isNode]), Tree.bare, hparts]
    rfl
  | fault f => rfl
  | gap => exact bareAll_leading ps

/-- A run of sketches laid over its own words is the run, once the trivia is gone. -/
theorem bareAll_layAll (size : Nat) (ss : List Sketch) (ps : List Placed) (rest : List Lexeme)
    (h : (Placed.words ps).map (·.lexeme) = (wordsOfAll ss).map Word.lexeme ++ rest) :
    Tree.bareAll (Marked.treesOfAll (layAll size ss ps).1) = treesOfAll ss := by
  cases ss with
  | nil => rfl
  | cons s ss =>
    rw [wordsOfAll_cons, List.map_append, List.append_assoc] at h
    have hs := bareAll_lay size s ps _ h
    have hrest : (Placed.words (lay size s ps).2).map (·.lexeme) =
        (wordsOfAll ss).map Word.lexeme ++ rest := by
      rw [words_lay, List.map_drop, h, ← List.length_map (f := Word.lexeme), List.drop_left]
    have hss := bareAll_layAll size ss (lay size s ps).2 rest hrest
    rw [layAll_cons, Marked.treesOfAll_append, Tree.bareAll_append, hs, hss]
    rfl

end

mutual

/-- The faults of a sketch laid over the words from the `n`th on stand at the words that
their marks count. -/
theorem faults_lay (size : Nat) (s : Sketch) (ps ws : List Placed) (n : Nat)
    (h : Placed.words ps = ws.drop n) :
    faultsOfAll (lay size s ps).1 =
      (s.faultMarks n).map fun m => (m.1, Placed.headSpan size (ws.drop m.2)) := by
  cases s with
  | word w =>
    rw [lay_word]
    cases (leading ps).2 with
    | nil => exact faultsOfAll_leading ps
    | cons p r =>
      rw [faultsOfAll_append, faultsOfAll_leading]
      rfl
  | node k parts =>
    rw [lay_node, faultsOfAll_append, faultsOfAll_leading]
    simp only [faultsOfAll, Marked.faults, List.append_nil, List.nil_append, faultMarks]
    exact faults_layAll size parts _ ws n (by rw [words_leading, h])
  | fault f =>
    simp only [lay, faultsOfAll, Marked.faults, List.append_nil, faultMarks, List.map_cons,
      List.map_nil]
    rw [Placed.nextSpan_eq_headSpan, h]
  | gap => exact faultsOfAll_leading ps

/-- The faults of a run of sketches laid over the words from the `n`th on stand at the words
that their marks count. -/
theorem faults_layAll (size : Nat) (ss : List Sketch) (ps ws : List Placed) (n : Nat)
    (h : Placed.words ps = ws.drop n) :
    faultsOfAll (layAll size ss ps).1 =
      (faultMarksOfAll n ss).map fun m => (m.1, Placed.headSpan size (ws.drop m.2)) := by
  cases ss with
  | nil => rfl
  | cons s ss =>
    have hs := faults_lay size s ps ws n h
    have hrest : Placed.words (lay size s ps).2 = ws.drop (n + s.words.length) := by
      rw [words_lay, h, List.drop_drop]
    have hss := faults_layAll size ss _ ws _ hrest
    rw [layAll_cons, faultsOfAll_append, hs, hss, faultMarksOfAll, List.map_append]

end

end Sketch

/-! ## source files -/

namespace Grammar

/-- Items go on up to a word that ends their scope. -/
theorem atOther_rest_itemsFrom (stop : List Kind) (ws : List Word) :
    atOther stop (itemsFrom stop ws).rest = false := by
  induction hlen : ws.length using Nat.strongRecOn generalizing ws with
  | ind m ih =>
    subst hlen
    rw [itemsFrom]
    split
    · next hc => exact ih _ (advances_item _ stop ws (Nat.lt_succ_self _) hc) _ rfl
    · next hc => simpa using hc

/-- The items of a source file take all its words. -/
theorem wordsOfAll_fileItems (ws : List Word) :
    Sketch.wordsOfAll (fileItems ws).sketches = ws := by
  have hcovers := (fileItems ws).covers
  have hrest := atOther_rest_itemsFrom [] ws
  rw [← fileItems] at hrest
  cases hr : (fileItems ws).rest with
  | nil => rwa [hr, List.append_nil] at hcovers
  | cons w r =>
    rw [hr] at hrest
    simp [atOther, atWord, atAny, kind?] at hrest

end Grammar

/-- The lexemes of a source that are no trivia are its words. -/
theorem map_lexeme_words_ofLexemes (source : String) :
    (Placed.words (Placed.ofLexemes 0 (Lexeme.lex source))).map (·.lexeme) =
      (Word.ofLexemes (Lexeme.lex source)).map Word.lexeme := by
  rw [Placed.map_lexeme_words, Placed.map_lexeme_ofLexemes, Word.ofLexemes,
    Word.map_lexeme_ofLexemesAfter]

/-- The sketch of a source file. -/
def fileSketch (source : String) : List Sketch :=
  (Grammar.fileItems (Word.ofLexemes (Lexeme.lex source))).sketches

theorem markedParts_eq (source : String) :
    markedParts source =
      (Sketch.layAll (Lexeme.sizeOfAll (Lexeme.lex source)) (fileSketch source)
          (Placed.ofLexemes 0 (Lexeme.lex source))).1 ++
        (Sketch.layAll (Lexeme.sizeOfAll (Lexeme.lex source)) (fileSketch source)
          (Placed.ofLexemes 0 (Lexeme.lex source))).2.map .token := rfl

theorem wordsOfAll_fileSketch (source : String) :
    Sketch.wordsOfAll (fileSketch source) = Word.ofLexemes (Lexeme.lex source) :=
  Grammar.wordsOfAll_fileItems _

/-- Only trivia is left behind the items of a source file. -/
theorem words_tail_fileSketch (source : String) :
    Placed.words (Sketch.layAll (Lexeme.sizeOfAll (Lexeme.lex source)) (fileSketch source)
      (Placed.ofLexemes 0 (Lexeme.lex source))).2 = [] := by
  have hlen := congrArg List.length (map_lexeme_words_ofLexemes source)
  rw [List.length_map, List.length_map] at hlen
  rw [Sketch.words_layAll, wordsOfAll_fileSketch, ← hlen, List.drop_length]

/-- The tree of a source file without trivia is its sketch without marks. -/
theorem bare_parse (source : String) :
    (parse source).tree.bare = .node .sourceFile (Sketch.treesOfAll (fileSketch source)) := by
  have htail := words_tail_fileSketch source
  have hwords : (Placed.words (Placed.ofLexemes 0 (Lexeme.lex source))).map (·.lexeme) =
      (Sketch.wordsOfAll (fileSketch source)).map Word.lexeme ++ [] := by
    rw [map_lexeme_words_ofLexemes, wordsOfAll_fileSketch, List.append_nil]
  show Tree.node .sourceFile (Tree.bareAll (Marked.treesOfAll (markedParts source))) = _
  rw [markedParts_eq, Marked.treesOfAll_append, Tree.bareAll_append,
    Sketch.bareAll_layAll _ _ _ _ hwords, Marked.bareAll_map_token htail, List.append_nil]

/-- The faults of a source file stand at the words that their marks count. -/
theorem faults_parse (source : String) :
    (parse source).faults =
      (Sketch.faultMarksOfAll 0 (fileSketch source)).map fun m =>
        (m.1, Placed.headSpan (Lexeme.sizeOfAll (Lexeme.lex source))
          ((Placed.words (Placed.ofLexemes 0 (Lexeme.lex source))).drop m.2)) := by
  show Marked.faultsOfAll (markedParts source) = _
  rw [markedParts_eq, Marked.faultsOfAll_append, Marked.faultsOfAll_map_token, List.append_nil]
  exact Sketch.faults_layAll _ _ _ _ 0 rfl

end SwiftOutline

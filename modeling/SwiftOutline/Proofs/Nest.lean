import SwiftOutline.Proofs.Framed
import SwiftOutline.Proofs.Shifted
import SwiftOutline.Proofs.Sites
import SwiftOutline.Proofs.Solid

/-!
# SwiftOutline.Proofs.Nest

The nodes of a syntax tree with the nodes around them.

* `Extent`, `Nest` — a node of a tree with the number of words before it and the kind of the node
  around it, or all the nodes around it; `Tree.nests` — all of them;
* `Sketch.LaidAs` — some sketches, laid over the lexemes of a source, are the parts of a node;
* `nests_layAll` — laying a sketch that keeps a law, every node is laid from parts that the law
  holds of, in the frames that the nodes around it are;
* `NestedLaw.Local.of_mem_fileNests` — so it is with the nodes of every source file;
* `Nest.StandsIn` — a node is a child of another one; every node but those at the top is
  (`Tree.standsIn_of_mem_nestsOfAll`), and every node among the parts of one is a child of it
  (`Tree.exists_standsIn`);
* `Site.exists_nest` — every node but the root is among these.
-/

namespace SwiftOutline

open Grammar Sketch Marked

/-- A node of a tree, with the kind of the node around it and the number of words before it. -/
structure Extent where
  around : Kind
  before : Nat
  tree : Tree

namespace Extent

/-- The words of a file that a node holds. -/
def taken (e : Extent) (words : List Word) : List Word :=
  (words.drop e.before).take e.tree.wordCount

/-- The words of a file behind a node. -/
def behind (e : Extent) (words : List Word) : List Word :=
  words.drop (e.before + e.tree.wordCount)

theorem taken_behind {e : Extent} {words taken behind : List Word}
    (h : words.drop e.before = taken ++ behind) (hsize : e.tree.wordCount = taken.length) :
    e.taken words = taken ∧ e.behind words = behind := by
  constructor
  · rw [Extent.taken, h]
    exact List.take_left' hsize.symm
  · rw [Extent.behind, ← List.drop_drop, h]
    exact List.drop_left' hsize.symm

/-- The words from a node on are those that it holds and those behind it. -/
theorem drop_before (words : List Word) (e : Extent) :
    words.drop e.before = e.taken words ++ e.behind words := by
  rw [taken, behind, ← List.drop_drop, List.take_append_drop]

/-- A node around others as a frame in a file with some words. -/
def frame (words : List Word) (e : Extent) : Frame := ⟨e.tree.kind, e.behind words⟩

end Extent

/-- A node of a tree with the nodes around it, innermost first. -/
structure Nest extends Extent where
  above : List Extent

namespace Tree

/-- The kind of the innermost of some nodes around, or of a file if there is none. -/
def kindAround (above : List Extent) : Kind := (above.head?.map (·.tree.kind)).getD .sourceFile

mutual

/-- The nodes of a tree in document order, each with the nodes around it; the tree stands in some
nodes, and `n` words stand before it. -/
def nests (above : List Extent) (n : Nat) : Tree → List Nest
  | node k cs =>
    let e : Extent := ⟨kindAround above, n, node k cs⟩
    ⟨e, above⟩ :: nestsOfAll (e :: above) n cs
  | token .. => []

/-- The nodes of a run of trees in document order, each with the nodes around it. -/
def nestsOfAll (above : List Extent) (n : Nat) : List Tree → List Nest
  | [] => []
  | t :: ts => nests above n t ++ nestsOfAll above (n + wordCount t) ts

end

theorem nestsOfAll_append (above : List Extent) (n : Nat) (ts us : List Tree) :
    nestsOfAll above n (ts ++ us) =
      nestsOfAll above n ts ++ nestsOfAll above (n + wordCountOfAll ts) us := by
  induction ts generalizing n with
  | nil => rfl
  | cons t ts ih =>
    rw [List.cons_append, nestsOfAll, nestsOfAll, ih, wordCountOfAll_cons, List.append_assoc,
      Nat.add_assoc]

end Tree

namespace Nest

/-- A node is a child of another one, with the words before it that the children before it hold. -/
def StandsIn (e c : Nest) : Prop :=
  e.above = c.toExtent :: c.above ∧ ∃ pre post, c.tree.children = pre ++ e.tree :: post ∧
    e.before = c.before + Tree.wordCountOfAll pre

end Nest

namespace Tree

mutual

/-- The nodes of a tree stand in it or in others of its nodes. -/
theorem standsIn_of_mem_nests {above : List Extent} {n : Nat} {t : Tree} {e : Nest}
    (he : e ∈ nests above n t) :
    (e.above = above ∧ e.before = n ∧ e.tree = t) ∨ ∃ c ∈ nests above n t, e.StandsIn c := by
  cases t with
  | node k cs =>
    rw [nests, List.mem_cons] at he
    obtain rfl | he := he
    · exact .inl ⟨rfl, rfl, rfl⟩
    · obtain ⟨habove, pre, post, hcs, hbefore⟩ | ⟨c, hc, hstands⟩ :=
        standsIn_of_mem_nestsOfAll he
      · exact .inr ⟨_, List.mem_cons_self, habove, pre, post, hcs, hbefore⟩
      · exact .inr ⟨c, List.mem_cons_of_mem _ hc, hstands⟩
  | token k x => cases he

/-- The nodes of a run of trees are some of the trees or stand in others of these nodes. -/
theorem standsIn_of_mem_nestsOfAll {above : List Extent} {n : Nat} {ts : List Tree} {e : Nest}
    (he : e ∈ nestsOfAll above n ts) :
    (e.above = above ∧ ∃ pre post, ts = pre ++ e.tree :: post ∧
      e.before = n + wordCountOfAll pre) ∨ ∃ c ∈ nestsOfAll above n ts, e.StandsIn c := by
  cases ts with
  | nil => cases he
  | cons t ts =>
    rw [nestsOfAll, List.mem_append] at he
    obtain he | he := he
    · obtain ⟨habove, hbefore, rfl⟩ | ⟨c, hc, hstands⟩ := standsIn_of_mem_nests he
      · exact .inl ⟨habove, [], ts, rfl, hbefore⟩
      · exact .inr ⟨c, List.mem_append_left _ hc, hstands⟩
    · obtain ⟨habove, pre, post, rfl, hbefore⟩ | ⟨c, hc, hstands⟩ := standsIn_of_mem_nestsOfAll he
      · refine .inl ⟨habove, t :: pre, post, rfl, ?_⟩
        rw [hbefore, wordCountOfAll_cons, Nat.add_assoc]
      · exact .inr ⟨c, List.mem_append_right _ hc, hstands⟩

end

/-- A node among some trees is one of the nodes of the run. -/
theorem exists_nest_of_append (above : List Extent) (n : Nat) (pre post : List Tree) (k : Kind)
    (cs : List Tree) :
    ∃ e ∈ nestsOfAll above n (pre ++ .node k cs :: post), e.above = above ∧ e.tree = .node k cs ∧
      e.before = n + wordCountOfAll pre := by
  rw [nestsOfAll_append, nestsOfAll, nests]
  exact ⟨_, List.mem_append_right _ List.mem_cons_self, rfl, rfl, rfl⟩

mutual

/-- The nodes below a node of a tree are nodes of the tree. -/
theorem nestsOfAll_children_subset {above : List Extent} {n : Nat} {t : Tree} {c : Nest}
    (hc : c ∈ nests above n t) :
    nestsOfAll (c.toExtent :: c.above) c.before c.tree.children ⊆ nests above n t := by
  cases t with
  | node k cs =>
    rw [nests, List.mem_cons] at hc
    obtain rfl | hc := hc
    · exact List.subset_cons_self _ _
    · exact List.Subset.trans (nestsOfAll_children_subset_of_all hc) (List.subset_cons_self _ _)
  | token k x => cases hc

theorem nestsOfAll_children_subset_of_all {above : List Extent} {n : Nat} {ts : List Tree}
    {c : Nest} (hc : c ∈ nestsOfAll above n ts) :
    nestsOfAll (c.toExtent :: c.above) c.before c.tree.children ⊆ nestsOfAll above n ts := by
  cases ts with
  | nil => cases hc
  | cons t ts =>
    rw [nestsOfAll, List.mem_append] at hc
    obtain hc | hc := hc
    · exact List.Subset.trans (nestsOfAll_children_subset hc) (List.subset_append_left _ _)
    · exact List.Subset.trans (nestsOfAll_children_subset_of_all hc) (List.subset_append_right _ _)

end

/-- A child of a node among some trees is a node of these, which stands in that node. -/
theorem exists_standsIn {above : List Extent} {n : Nat} {ts : List Tree} {c : Nest}
    (hc : c ∈ nestsOfAll above n ts) {k : Kind} {cs : List Tree}
    (hmem : .node k cs ∈ c.tree.children) :
    ∃ e ∈ nestsOfAll above n ts, e.StandsIn c ∧ e.tree = .node k cs := by
  obtain ⟨pre, post, hcs⟩ := List.append_of_mem hmem
  obtain ⟨e, he, habove, htree, hbefore⟩ :=
    exists_nest_of_append (c.toExtent :: c.above) c.before pre post k cs
  rw [← hcs] at he
  exact ⟨e, nestsOfAll_children_subset_of_all hc he,
    ⟨habove, pre, post, htree ▸ hcs, hbefore⟩, htree⟩

mutual

/-- Every node of a shaped tree is shaped. -/
theorem shaped_of_mem_nests {above : List Extent} {n : Nat} {t : Tree} (ht : t.Shaped) :
    ∀ e ∈ nests above n t, e.tree.Shaped := by
  cases t with
  | node k cs =>
    intro e he
    obtain rfl | he := List.mem_cons.1 he
    · exact ht
    · exact shaped_of_mem_nestsOfAll ht.2 e he
  | token k x => intro e he; cases he

theorem shaped_of_mem_nestsOfAll {above : List Extent} {n : Nat} {ts : List Tree}
    (hts : ShapedAll ts) : ∀ e ∈ nestsOfAll above n ts, e.tree.Shaped := by
  cases ts with
  | nil => intro e he; cases he
  | cons t ts =>
    intro e he
    obtain he | he := List.mem_append.1 he
    · exact shaped_of_mem_nests hts.1 e he
    · exact shaped_of_mem_nestsOfAll hts.2 e he

end

mutual

/-- The sites of a tree are those of its nodes. -/
theorem map_nests (above : List Extent) (n : Nat) (t : Tree) :
    (nests above n t).map (fun e => (e.tree.kind, e.before)) = t.sites n := by
  cases t with
  | node k cs =>
    rw [nests, List.map_cons, map_nestsOfAll, sites]
    rfl
  | token k x => rfl

theorem map_nestsOfAll (above : List Extent) (n : Nat) (ts : List Tree) :
    (nestsOfAll above n ts).map (fun e => (e.tree.kind, e.before)) = sitesOfAll n ts := by
  cases ts with
  | nil => rfl
  | cons t ts => rw [nestsOfAll, List.map_append, map_nests, map_nestsOfAll, sitesOfAll]

end

end Tree

namespace Sketch

/-- A node of a kind that was laid from some parts over lexemes which start with their words. -/
def LaidAs (k : Kind) (parts : List Sketch) (t : Tree) : Prop :=
  ∃ size ps rest, t = .node k (Marked.treesOfAll (layAll size parts ps).1) ∧
    (Placed.words ps).map (·.lexeme) = (wordsOfAll parts).map Word.lexeme ++ rest

namespace LaidAs

variable {k : Kind} {parts : List Sketch} {t : Tree}

theorem kind (h : LaidAs k parts t) : t.kind = k := by
  obtain ⟨size, ps, rest, rfl, -⟩ := h
  rfl

/-- Without trivia a node has the parts that it was laid from. -/
theorem bare (h : LaidAs k parts t) : t.bare = .node k (Sketch.treesOfAll parts) := by
  obtain ⟨size, ps, rest, rfl, hwords⟩ := h
  rw [Tree.bare, bareAll_layAll size parts ps rest hwords]

/-- The words of a node are those of its parts. -/
theorem allWords (h : LaidAs k parts t) : t.allWords = (wordsOfAll parts).map Word.lexeme := by
  obtain ⟨size, ps, rest, rfl, hwords⟩ := h
  have hplaced := congrArg (fun qs => (Placed.words qs).map (·.lexeme))
    (placed_layAll size parts ps)
  simp only [Placed.words_append, List.map_append, words_layAll] at hplaced
  rw [List.map_drop, hwords, ← List.length_map (f := Word.lexeme), List.drop_left] at hplaced
  rw [Tree.allWords, Tree.tokens, Marked.tokens_treesOfAll, ← Placed.map_lexeme_words]
  exact List.append_cancel_right hplaced

/-- A node that was laid from parts with a word at their end has that word at its end. -/
theorem getLast? {w : Word} (h : LaidAs k (parts ++ [.word w]) t) :
    t.children.getLast? = some (.token w.kind w.text) := by
  obtain ⟨size, ps, rest, rfl, hwords⟩ := h
  have hleft : (Placed.words (layAll size parts ps).2).map (·.lexeme) = w.lexeme :: rest := by
    rw [words_layAll, List.map_drop, hwords, wordsOfAll_append, List.map_append, List.append_assoc,
      ← List.length_map (f := Word.lexeme), List.drop_left]
    rfl
  obtain ⟨-, hnil⟩ | ⟨p, r, hcons, -, hp⟩ := leading_cases (layAll size parts ps).2
  · simp [hnil] at hleft
  · rw [hp] at hleft
    have hlexeme : p.lexeme = w.lexeme := (List.cons.inj hleft).1
    simp [Tree.children, layAll_append, lay_word, hcons, Marked.treesOfAll_append,
      Marked.treesOfAll, Marked.trees, layAll, hlexeme, Word.lexeme]

end LaidAs

end Sketch

/-- A node was laid from parts that a law holds of, in the frames that the nodes around it are. -/
def Nest.Keeping (L : NestedLaw) (words : List Word) (e : Nest) : Prop :=
  ∃ parts, LaidAs e.tree.kind parts e.tree ∧ wordsOfAll parts = e.taken words ∧
    L (e.above.map (Extent.frame words)) e.tree.kind parts (e.behind words)

/-- The words that are counted for such a node are its own. -/
theorem Nest.Keeping.map_lexeme_taken {L : NestedLaw} {words : List Word} {e : Nest}
    (h : e.Keeping L words) :
    (e.taken words).map Word.lexeme = e.tree.tokens.filter (!·.isTrivia) := by
  obtain ⟨parts, hlaid, htaken, -⟩ := h
  rw [← htaken, ← hlaid.allWords]
  rfl

/-! ## laying -/

namespace Sketch

theorem nestsOfAll_map_token (above : List Extent) (n : Nat) (ps : List Placed) :
    Tree.nestsOfAll above n (Marked.treesOfAll (ps.map token)) = [] := by
  induction ps generalizing n with
  | nil => rfl
  | cons p r ih => exact ih _

/-- A run of sketches laid over enough lexemes has as many words as before. -/
theorem wordCountOfAll_layAll (size : Nat) (ss : List Sketch) (ps : List Placed)
    (h : (wordsOfAll ss).length ≤ (Placed.words ps).length) :
    Tree.wordCountOfAll (Marked.treesOfAll (layAll size ss ps).1) = (wordsOfAll ss).length := by
  have hall := congrArg (fun qs => (Placed.words qs).length) (placed_layAll size ss ps)
  simp only [Placed.words_append, words_layAll, List.length_append, List.length_drop] at hall
  rw [wordCountOfAll_trees]
  omega

variable {L : NestedLaw} {words : List Word}

mutual

/-- Laying a sketch that keeps a law lays every node from parts that the law holds of. -/
theorem nests_lay (size : Nat) {s : Sketch} {above : List Extent} {rest : List Word}
    {more : List Lexeme} (hs : s.Keeps L (above.map (Extent.frame words)) rest) (ps : List Placed)
    (n : Nat) (hps : (Placed.words ps).map (·.lexeme) = s.words.map Word.lexeme ++ more)
    (hwords : words.drop n = s.words ++ rest) :
    ∀ e ∈ Tree.nestsOfAll above n (Marked.treesOfAll (lay size s ps).1), e.Keeping L words := by
  have hlead : Tree.nestsOfAll above n (Marked.treesOfAll (leading ps).1) = [] :=
    nestsOfAll_map_token _ _ _
  obtain ⟨-, hcount⟩ := sitesOfAll_leading n ps
  cases s with
  | word w =>
    rw [lay_word]
    cases (leading ps).2 with
    | nil => simp [hlead]
    | cons p r => simp [Marked.treesOfAll_append, Tree.nestsOfAll_append, hlead, Marked.treesOfAll,
        Marked.trees, Tree.nestsOfAll, Tree.nests]
  | node k parts =>
    have hinner : (Placed.words (leading ps).2).map (·.lexeme) =
        (wordsOfAll parts).map Word.lexeme ++ more := by rwa [words_leading]
    have hlen := congrArg List.length hinner
    simp only [List.length_map, List.length_append] at hlen
    have hsize := wordCountOfAll_layAll size parts (leading ps).2 (by omega)
    rw [lay_node, Marked.treesOfAll_append, Tree.nestsOfAll_append, hlead, hcount, List.nil_append]
    intro e he
    simp only [Marked.treesOfAll, Marked.trees, List.append_nil, Tree.nestsOfAll, Tree.nests,
      Nat.add_zero, List.mem_cons] at he
    let here : Extent := ⟨Tree.kindAround above, n,
      .node k (Marked.treesOfAll (layAll size parts (leading ps).2).1)⟩
    obtain ⟨htaken, hbehind⟩ := Extent.taken_behind (e := here) hwords hsize
    obtain rfl | he := he
    · refine ⟨parts, ⟨size, _, more, rfl, hinner⟩, htaken.symm, ?_⟩
      show L _ _ _ (here.behind words)
      rw [hbehind]
      exact hs.1
    · have hframe : here.frame words = ⟨k, rest⟩ := congrArg (Frame.mk k) hbehind
      have hparts : KeepsAll L ((here :: above).map (Extent.frame words)) parts rest := by
        rw [List.map_cons, hframe]
        exact hs.2
      exact nests_layAll size hparts _ n hinner hwords e he
  | fault f => intro e he; cases he
  | gap => simp [lay, hlead]

theorem nests_layAll (size : Nat) {ss : List Sketch} {above : List Extent} {rest : List Word}
    {more : List Lexeme} (hs : KeepsAll L (above.map (Extent.frame words)) ss rest)
    (ps : List Placed) (n : Nat)
    (hps : (Placed.words ps).map (·.lexeme) = (wordsOfAll ss).map Word.lexeme ++ more)
    (hwords : words.drop n = wordsOfAll ss ++ rest) :
    ∀ e ∈ Tree.nestsOfAll above n (Marked.treesOfAll (layAll size ss ps).1),
      e.Keeping L words := by
  cases ss with
  | nil => intro e he; cases he
  | cons s ss =>
    rw [wordsOfAll_cons, List.map_append, List.append_assoc] at hps
    rw [wordsOfAll_cons, List.append_assoc] at hwords
    have hlen := congrArg List.length hps
    simp only [List.length_map, List.length_append] at hlen
    rw [layAll_cons, Marked.treesOfAll_append, Tree.nestsOfAll_append,
      wordCountOfAll_lay size s ps (by omega)]
    intro e he
    obtain he | he := List.mem_append.1 he
    · exact nests_lay size hs.1 ps n hps hwords e he
    · have hothers : (Placed.words (lay size s ps).2).map (·.lexeme) =
          (wordsOfAll ss).map Word.lexeme ++ more := by
        rw [words_lay, List.map_drop, hps, ← List.length_map (f := Word.lexeme), List.drop_left]
      refine nests_layAll size hs.2 _ _ hothers ?_ e he
      rw [← List.drop_drop, hwords, List.drop_left]

end

end Sketch

/-! ## source files -/

/-- The nodes of a source file below its root, each with the nodes below the root around it. -/
def fileNests (source : String) : List Nest :=
  Tree.nestsOfAll [] 0 (parse source).tree.children

/-- If a law is kept in the sketch of a source file, every node of the file was laid from parts that
the law holds of. -/
theorem Sketch.KeepsAll.of_mem_fileNests {L : NestedLaw} {source : String}
    (hL : Sketch.KeepsAll L [] (fileSketch source) []) {e : Nest} (he : e ∈ fileNests source) :
    e.Keeping L (Word.ofLexemes (Lexeme.lex source)) := by
  have hwords : (Placed.words (Placed.ofLexemes 0 (Lexeme.lex source))).map (·.lexeme) =
      (Sketch.wordsOfAll (fileSketch source)).map Word.lexeme ++ [] := by
    rw [map_lexeme_words_ofLexemes, wordsOfAll_fileSketch, List.append_nil]
  have hkeeps : Sketch.KeepsAll L
      (([] : List Extent).map (Extent.frame (Word.ofLexemes (Lexeme.lex source))))
      (fileSketch source) [] := hL
  have hdrop : (Word.ofLexemes (Lexeme.lex source)).drop 0 =
      Sketch.wordsOfAll (fileSketch source) ++ [] := by
    rw [wordsOfAll_fileSketch, List.append_nil, List.drop_zero]
  have hparts : fileNests source = Tree.nestsOfAll [] 0 (Marked.treesOfAll
      (Sketch.layAll (Lexeme.sizeOfAll (Lexeme.lex source)) (fileSketch source)
        (Placed.ofLexemes 0 (Lexeme.lex source))).1) := by
    show Tree.nestsOfAll _ _ (Marked.treesOfAll (markedParts source)) = _
    rw [markedParts_eq, Marked.treesOfAll_append, Tree.nestsOfAll_append,
      Sketch.nestsOfAll_map_token, List.append_nil]
  rw [hparts] at he
  exact Sketch.nests_layAll _ hkeeps _ 0 hwords hdrop e he

/-- Every node of a source file was laid from parts that the laws of the grammar hold of. -/
theorem NestedLaw.Local.of_mem_fileNests {L : NestedLaw} (hL : L.Local) {source : String}
    {e : Nest} (he : e ∈ fileNests source) : e.Keeping L (Word.ofLexemes (Lexeme.lex source)) :=
  (hL.keepsAll_fileSketch source).of_mem_fileNests he

/-! ### files without faults -/

/-- A law holds of a node, whose parts have no fault. -/
def NestedLaw.clean (L : NestedLaw) : NestedLaw := fun above k ps rest =>
  L above k ps rest ∧ CleanAll ps

namespace Sketch

variable {L : NestedLaw}

mutual

theorem Keeps.clean {s : Sketch} {above : List Frame} {rest : List Word}
    (h : s.Keeps L above rest) (hclean : s.Clean) :
    s.Keeps L.clean above rest := by
  cases s with
  | node k ps => exact ⟨⟨h.1, hclean⟩, KeepsAll.clean h.2 hclean⟩
  | word w => exact True.intro
  | fault f => exact True.intro
  | gap => exact True.intro

theorem KeepsAll.clean {ss : List Sketch} {above : List Frame} {rest : List Word}
    (h : KeepsAll L above ss rest) (hclean : CleanAll ss) :
    KeepsAll L.clean above ss rest := by
  cases ss with
  | nil => exact True.intro
  | cons s ss => exact ⟨h.1.clean hclean.1, KeepsAll.clean h.2 hclean.2⟩

end

end Sketch

/-- In a source file without faults, these parts have none. -/
theorem NestedLaw.Local.clean_of_mem_fileNests {L : NestedLaw} (hL : L.Local) {source : String}
    (hclean : (parse source).faults = []) {e : Nest} (he : e ∈ fileNests source) :
    e.Keeping L.clean (Word.ofLexemes (Lexeme.lex source)) :=
  ((hL.keepsAll_fileSketch source).clean (cleanAll_fileSketch hclean)).of_mem_fileNests he

/-! ### sites -/

mutual

/-- The nodes of a tree are the same, whatever is known of the nodes around them. -/
theorem exists_nest_of_mem_nodesIn {t : Tree} {around : List Located} {start : Nat} {s : Site}
    (h : s ∈ Site.nodesIn around start t) (above : List Extent) (n : Nat) :
    ∃ e ∈ Tree.nests above n t, e.tree = s.node.tree := by
  cases t with
  | token k x => cases h
  | node k cs =>
    rw [Site.nodesIn, List.mem_cons] at h
    rw [Tree.nests]
    obtain rfl | h := h
    · exact ⟨_, List.mem_cons_self, rfl⟩
    · obtain ⟨e, he, heq⟩ := exists_nest_of_mem_nodesInAll h _ n
      exact ⟨e, List.mem_cons_of_mem _ he, heq⟩

theorem exists_nest_of_mem_nodesInAll {ts : List Tree} {around : List Located} {start : Nat}
    {s : Site} (h : s ∈ Site.nodesInAll around start ts) (above : List Extent) (n : Nat) :
    ∃ e ∈ Tree.nestsOfAll above n ts, e.tree = s.node.tree := by
  cases ts with
  | nil => cases h
  | cons t ts =>
    rw [Site.nodesInAll, List.mem_append] at h
    rw [Tree.nestsOfAll]
    obtain h | h := h
    · obtain ⟨e, he, heq⟩ := exists_nest_of_mem_nodesIn h above n
      exact ⟨e, List.mem_append_left _ he, heq⟩
    · obtain ⟨e, he, heq⟩ := exists_nest_of_mem_nodesInAll h above (n + t.wordCount)
      exact ⟨e, List.mem_append_right _ he, heq⟩

end

theorem Site.exists_nest {source : String} {s : Site} (hs : s ∈ all (parse source).tree)
    (hk : s.node.kind ≠ .sourceFile) : ∃ e ∈ fileNests source, e.tree = s.node.tree := by
  have hall : all (parse source).tree = ⟨⟨(parse source).tree, 0⟩, []⟩ ::
      nodesInAll [⟨(parse source).tree, 0⟩] 0 (parse source).tree.children := rfl
  rw [hall, List.mem_cons] at hs
  obtain rfl | hs := hs
  · exact absurd rfl hk
  · exact exists_nest_of_mem_nodesInAll hs [] 0

end SwiftOutline

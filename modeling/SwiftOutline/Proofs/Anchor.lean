import Mathlib.Order.Monotone.Defs
import SwiftOutline.Located
import SwiftOutline.Proofs.Bare
import SwiftOutline.Proofs.Building

/-!
# SwiftOutline.Proofs.Anchor

Where trivia moves the nodes of a tree.

* `Lexeme.offsetIn` — from an offset in the text of words alone to the offset in the text of the
  lexemes; it grows strictly (`strictMono_offsetIn`);
* `Tree.Anchored` — every node starts where a function moves the place that it has in the tree
  without trivia;
* `anchoredAll_lay` — nodes start at words, so laying a sketch moves them by `offsetIn`;
* `Located.Under` — a tree and the tree without trivia, each in its place. What is looked up below
  the one is what is looked up below the other (`Under.childrenWhere`, `Under.child?`).
-/

namespace SwiftOutline

/-! ## offsets -/

namespace Lexeme

/-- The offset, in the text that lexemes spell, of what stands at an offset in the text that
their words spell. The trivia before a word counts, the trivia after it does not. -/
def offsetIn : List Lexeme → Nat → Nat
  | [], x => x
  | l :: ls, x =>
    if l.isTrivia then l.size + offsetIn ls x
    else if x < l.size then x
    else l.size + offsetIn ls (x - l.size)

theorem strictMono_offsetIn (ls : List Lexeme) : StrictMono (offsetIn ls) := by
  induction ls with
  | nil => exact strictMono_id
  | cons l ls ih =>
    intro x y hxy
    rw [offsetIn, offsetIn]
    by_cases htrivia : l.isTrivia = true
    · rw [if_pos htrivia, if_pos htrivia]
      exact Nat.add_lt_add_left (ih hxy) _
    · rw [if_neg htrivia, if_neg htrivia]
      by_cases hy : y < l.size
      · rw [if_pos hy, if_pos (Nat.lt_trans hxy hy)]
        exact hxy
      · rw [if_neg hy]
        split
        · omega
        · have := ih (show x - l.size < y - l.size by omega)
          omega

theorem sizeOfAll_append (ts ls : List Lexeme) :
    sizeOfAll (ts ++ ls) = sizeOfAll ts + sizeOfAll ls := by
  induction ts with
  | nil => rw [List.nil_append, sizeOfAll_nil, Nat.zero_add]
  | cons t ts ih => rw [List.cons_append, sizeOfAll_cons, sizeOfAll_cons, ih, Nat.add_assoc]

/-- The bytes of the words among lexemes. -/
def wordSize (ls : List Lexeme) : Nat := sizeOfAll (ls.filter (!·.isTrivia))

theorem wordSize_append (ts ls : List Lexeme) :
    wordSize (ts ++ ls) = wordSize ts + wordSize ls := by
  rw [wordSize, List.filter_append, sizeOfAll_append]
  rfl

/-- Lexemes before an offset move it by all their bytes. -/
theorem offsetIn_append (ts ls : List Lexeme) (x : Nat) :
    offsetIn (ts ++ ls) (wordSize ts + x) = sizeOfAll ts + offsetIn ls x := by
  induction ts generalizing x with
  | nil => simp [wordSize]
  | cons t ts ih =>
    rw [List.cons_append, offsetIn, sizeOfAll_cons]
    by_cases h : t.isTrivia = true
    · have hsize : wordSize (t :: ts) = wordSize ts := by simp [wordSize, h]
      rw [if_pos h, hsize, ih, Nat.add_assoc]
    · have hsize : wordSize (t :: ts) = t.size + wordSize ts := by simp [wordSize, h]
      have hsub : wordSize (t :: ts) + x - t.size = wordSize ts + x := by omega
      rw [if_neg h, if_neg (by omega), hsub, ih, Nat.add_assoc]

/-- What stands at a word is not moved. -/
theorem offsetIn_zero {ls : List Lexeme}
    (h : ∀ l ∈ ls.head?, l.isTrivia = false ∧ 0 < l.size) : offsetIn ls 0 = 0 := by
  cases ls with
  | nil => rfl
  | cons l ls =>
    obtain ⟨htrivia, hsize⟩ := h l rfl
    rw [offsetIn, htrivia, if_neg Bool.false_ne_true, if_pos hsize]

/-- No lexeme of a source is empty. -/
theorem size_pos_of_mem_lex {source : String} {l : Lexeme} (h : l ∈ lex source) : 0 < l.size := by
  rw [lex] at h
  generalize source.toList = cs at h
  fun_induction lexChars cs with
  | case1 => cases h
  | case2 c tail kind n hscan ih =>
    obtain rfl | h := List.mem_cons.1 h
    · have hc := c.utf8Size_pos
      rw [size_eq_utf8Len, String.toList_ofList, String.utf8Len_cons]
      omega
    · exact ih h

end Lexeme

/-! ## anchored trees -/

namespace Tree

mutual

theorem size_eq (t : Tree) : t.size = Lexeme.sizeOfAll t.tokens := by
  cases t with
  | node k cs => exact sizeOfAll_eq cs
  | token k s => rfl

theorem sizeOfAll_eq (ts : List Tree) : sizeOfAll ts = Lexeme.sizeOfAll (tokensOfAll ts) := by
  cases ts with
  | nil => rfl
  | cons t ts =>
    rw [sizeOfAll, tokensOfAll, size_eq t, sizeOfAll_eq ts, Lexeme.sizeOfAll_append]

end

/-- The bytes of the words of a tree. -/
def wordSize (t : Tree) : Nat := Lexeme.wordSize t.tokens

theorem size_bare {t : Tree} (h : ¬t.isTrivia = true) : t.bare.size = t.wordSize := by
  rw [size_eq, tokens_bare t h]
  rfl

theorem wordSize_of_isTrivia {t : Tree} (h : t.isTrivia = true) : t.wordSize = 0 := by
  cases t with
  | node k cs => cases h
  | token k s =>
    have hk : k.isTrivia = true := h
    simp [wordSize, Lexeme.wordSize, tokens, Lexeme.isTrivia, hk]

variable (g : Nat → Nat)

mutual

/-- Every node of a tree starts where `g` moves the place that it has in the tree without
trivia. -/
def Anchored (start bare : Nat) : Tree → Prop
  | node _ cs => start = g bare ∧ AnchoredAll start bare cs
  | token .. => True

/-- Every node of trees laid one after the other starts where `g` moves the place that it has
without trivia. -/
def AnchoredAll (start bare : Nat) : List Tree → Prop
  | [] => True
  | t :: ts => Anchored start bare t ∧ AnchoredAll (start + t.size) (bare + t.wordSize) ts

end

variable {g}

theorem anchoredAll_append {start bare : Nat} {ts us : List Tree}
    (ht : AnchoredAll g start bare ts)
    (hu : AnchoredAll g (start + sizeOfAll ts) (bare + Lexeme.wordSize (tokensOfAll ts)) us) :
    AnchoredAll g start bare (ts ++ us) := by
  induction ts generalizing start bare with
  | nil => exact hu
  | cons t ts ih =>
    refine ⟨ht.1, ih ht.2 ?_⟩
    rw [sizeOfAll, tokensOfAll, Lexeme.wordSize_append] at hu
    rw [Nat.add_assoc, Nat.add_assoc]
    exact hu

end Tree

/-! ## laying -/

namespace Sketch

open Marked

variable {g : Nat → Nat}

/-- `g` moves offsets of words from a place on as the lexemes from there on say. -/
def Tells (g : Nat → Nat) (start bare : Nat) (ls : List Lexeme) : Prop :=
  ∀ x, g (bare + x) = start + Lexeme.offsetIn ls x

theorem Tells.append {start bare : Nat} {ts ls : List Lexeme}
    (h : Tells g start bare (ts ++ ls)) :
    Tells g (start + Lexeme.sizeOfAll ts) (bare + Lexeme.wordSize ts) ls := by
  intro x
  rw [Nat.add_assoc, h, Lexeme.offsetIn_append, Nat.add_assoc]

/-- What is left behind trees is told as what is left behind their tokens. -/
theorem Tells.after {start bare : Nat} {ps rest : List Placed} {ms : List Marked}
    (h : Tells g start bare (ps.map (·.lexeme))) (hms : placedOfAll ms ++ rest = ps) :
    Tells g (start + Tree.sizeOfAll (Marked.treesOfAll ms))
      (bare + Lexeme.wordSize (Tree.tokensOfAll (Marked.treesOfAll ms)))
      (rest.map (·.lexeme)) := by
  rw [← hms, List.map_append] at h
  rw [Tree.sizeOfAll_eq, tokens_treesOfAll]
  exact h.append

theorem anchoredAll_map_token (start bare : Nat) (ps : List Placed) :
    Tree.AnchoredAll g start bare (Marked.treesOfAll (ps.map token)) := by
  induction ps generalizing start bare with
  | nil => exact True.intro
  | cons p r ih => exact ⟨True.intro, ih _ _⟩

mutual

/-- The nodes of a sketch that is laid start at words. -/
theorem anchoredAll_lay (size : Nat) (s : Sketch) (ps : List Placed) (start bare : Nat)
    (hsize : ∀ p ∈ ps, 0 < p.lexeme.size) (h : Tells g start bare (ps.map (·.lexeme))) :
    Tree.AnchoredAll g start bare (Marked.treesOfAll (lay size s ps).1) := by
  have hlead : Tree.AnchoredAll g start bare (Marked.treesOfAll (leading ps).1) :=
    anchoredAll_map_token ..
  cases s with
  | word w =>
    rw [lay_word]
    cases (leading ps).2 with
    | nil => exact hlead
    | cons p r =>
      rw [Marked.treesOfAll_append]
      exact Tree.anchoredAll_append hlead ⟨True.intro, True.intro⟩
  | node k parts =>
    have hrest : Tells g _ _ ((leading ps).2.map (·.lexeme)) := h.after (placedOfAll_leading ps)
    have hmem : ∀ p ∈ (leading ps).2, 0 < p.lexeme.size := fun p hp =>
      hsize p (List.dropWhile_sublist _ |>.mem hp)
    have hparts := anchoredAll_layAll size parts (leading ps).2 _ _ hmem hrest
    -- the node starts at the first lexeme that is left, which is a word
    have hzero := hrest 0
    rw [Lexeme.offsetIn_zero] at hzero
    · rw [lay_node, Marked.treesOfAll_append]
      exact Tree.anchoredAll_append hlead ⟨⟨hzero.symm, hparts⟩, True.intro⟩
    · intro l hl
      obtain ⟨hnil, -⟩ | ⟨p, r, hcons, htrivia, -⟩ := leading_cases ps
      · rw [hnil] at hl
        cases hl
      · rw [hcons] at hl hmem
        obtain rfl : p.lexeme = l := by simpa using hl
        exact ⟨htrivia, hmem p List.mem_cons_self⟩
  | fault f => exact True.intro
  | gap => exact hlead

/-- The nodes of a run of sketches that is laid start at words. -/
theorem anchoredAll_layAll (size : Nat) (ss : List Sketch) (ps : List Placed)
    (start bare : Nat) (hsize : ∀ p ∈ ps, 0 < p.lexeme.size)
    (h : Tells g start bare (ps.map (·.lexeme))) :
    Tree.AnchoredAll g start bare (Marked.treesOfAll (layAll size ss ps).1) := by
  cases ss with
  | nil => exact True.intro
  | cons s ss =>
    have hplaced := placed_lay size s ps
    have hs := anchoredAll_lay size s ps start bare hsize h
    have hmem : ∀ p ∈ (lay size s ps).2, 0 < p.lexeme.size := by
      intro p hp
      refine hsize p ?_
      rw [← hplaced]
      exact List.mem_append_right _ hp
    have hss := anchoredAll_layAll size ss (lay size s ps).2 _ _ hmem (h.after hplaced)
    rw [layAll_cons, Marked.treesOfAll_append]
    exact Tree.anchoredAll_append hs hss

end

end Sketch

/-- The nodes of a source file below its root start where its trivia moves them. -/
theorem anchoredAll_parse (source : String) :
    Tree.AnchoredAll (Lexeme.offsetIn (Lexeme.lex source)) 0 0 (parse source).tree.children := by
  have htells : Sketch.Tells (Lexeme.offsetIn (Lexeme.lex source)) 0 0
      ((Placed.ofLexemes 0 (Lexeme.lex source)).map (·.lexeme)) := by
    intro x
    rw [Placed.map_lexeme_ofLexemes, Nat.zero_add, Nat.zero_add]
  have hsize : ∀ p ∈ Placed.ofLexemes 0 (Lexeme.lex source), 0 < p.lexeme.size := by
    intro p hp
    have hmem : p.lexeme ∈ (Placed.ofLexemes 0 (Lexeme.lex source)).map (·.lexeme) :=
      List.mem_map_of_mem hp
    rw [Placed.map_lexeme_ofLexemes] at hmem
    exact Lexeme.size_pos_of_mem_lex hmem
  show Tree.AnchoredAll _ 0 0 (Marked.treesOfAll (markedParts source))
  rw [markedParts_eq, Marked.treesOfAll_append]
  exact Tree.anchoredAll_append (Sketch.anchoredAll_layAll _ _ _ 0 0 hsize htells)
    (Sketch.anchoredAll_map_token ..)

/-! ## looking things up -/

namespace Located

/-- A tree and the tree without trivia, each in its place, with the nodes below the one where
`g` moves those below the other. -/
structure Above (g : Nat → Nat) (l b : Located) : Prop where
  tree : b.tree = l.tree.bare
  below : Tree.AnchoredAll g l.start b.start l.tree.children

/-- The same for a tree that, if it is a node, itself starts where `g` moves it. -/
structure Under (g : Nat → Nat) (l b : Located) : Prop extends Above g l b where
  start : l.tree.isNode = true → l.start = g b.start

variable {g : Nat → Nat} {l b : Located}

theorem under_of_anchored {t : Tree} {start bare : Nat} (h : t.Anchored g start bare) :
    Under g ⟨t, start⟩ ⟨t.bare, bare⟩ := by
  cases t with
  | node k cs => exact ⟨⟨rfl, h.2⟩, fun _ => h.1⟩
  | token k s => exact ⟨⟨rfl, True.intro⟩, fun h => by cases h⟩

/-- Trees laid one after the other, without those that are trivia, and the trees without trivia
laid one after the other. -/
theorem forall₂_row {ts : List Tree} {start bare : Nat} (h : Tree.AnchoredAll g start bare ts) :
    List.Forall₂ (Under g) ((row start ts).filter (!·.tree.isTrivia))
      (row bare (Tree.bareAll ts)) := by
  induction ts generalizing start bare with
  | nil => exact .nil
  | cons t ts ih =>
    have hts := ih h.2
    rw [row]
    by_cases htrivia : t.isTrivia = true
    · rw [Tree.wordSize_of_isTrivia htrivia] at hts
      rw [List.filter_cons_of_neg (by simpa using htrivia),
        Tree.bareAll_cons_of_isTrivia ts htrivia]
      exact hts
    · rw [← Tree.size_bare htrivia] at hts
      rw [List.filter_cons_of_pos (by simpa using htrivia), Tree.bareAll_cons_of_not ts htrivia,
        row]
      exact .cons (under_of_anchored h.1) hts

/-- What stands below a tree, without trivia, and what stands below the tree without trivia. -/
theorem Above.forall₂_children (h : Above g l b) :
    List.Forall₂ (Under g) (l.children.filter (!·.tree.isTrivia)) b.children := by
  rw [Located.children, Located.children, h.tree, Tree.children_bare]
  exact forall₂_row h.below

/-- What is looked up below a tree and below the tree without trivia. -/
theorem Above.childrenWhere (h : Above g l b) {p : Tree → Bool} (hp : Tree.SeesNoTrivia p) :
    List.Forall₂ (Under g) (l.childrenWhere p) (b.childrenWhere p) := by
  have hfilter : l.childrenWhere p =
      (l.children.filter (!·.tree.isTrivia)).filter (p ·.tree) := by
    rw [List.filter_filter, Located.childrenWhere]
    refine List.filter_congr fun c _ => ?_
    by_cases htrivia : c.tree.isTrivia = true
    · simp [hp.trivia _ htrivia]
    · simp [htrivia]
  rw [hfilter, Located.childrenWhere]
  have hchildren := h.forall₂_children
  generalize l.children.filter (!·.tree.isTrivia) = cs at hchildren
  generalize b.children = ds at hchildren
  induction hchildren with
  | nil => exact .nil
  | cons hcd _ ih =>
    rw [List.filter_cons, List.filter_cons, hcd.tree, hp.bare]
    split
    · exact .cons hcd ih
    · exact ih

theorem Above.child? (h : Above g l b) {p : Tree → Bool} (hp : Tree.SeesNoTrivia p) :
    Option.Rel (Under g) (l.child? p) (b.child? p) := by
  have hall := h.childrenWhere hp
  have hhead (m : Located) : m.child? p = (m.childrenWhere p).head? := List.head?_filter.symm
  rw [hhead, hhead]
  generalize l.childrenWhere p = cs at hall
  generalize b.childrenWhere p = ds at hall
  cases hall with
  | nil => exact .none
  | cons hcd _ => exact .some hcd

end Located

end SwiftOutline

import SwiftOutline.Proofs.Regular
import SwiftOutline.Proofs.Slices

/-!
# SwiftOutline.Proofs.Tight

Nodes are tight: no trivia stands at their ends.

* `Tree.nodes` — the nodes of a tree as a list;
* `Sketch.startsInWord_lay` — laying a sketch puts trivia before a node, not at its start;
* `Sketch.Tight` — every node ends in a word, or is an argument of an attribute and empty;
* `Sketch.tight_of_regular` — regular sketches without faults are tight, since the one node that
  may be empty is closed in by a parenthesis;
* `parse_tight` — so nodes start with a word, and end with one if there is no fault; a value that
  is written without blanks at its ends is the slice of the source that its node covers.
-/

namespace SwiftOutline

/-! ## nodes -/

namespace Tree

mutual

/-- The nodes of a tree in preorder. -/
def nodes : Tree → List Tree
  | node k cs => node k cs :: nodesOfAll cs
  | token .. => []

/-- The nodes of a run of trees in preorder. -/
def nodesOfAll : List Tree → List Tree
  | [] => []
  | t :: ts => nodes t ++ nodesOfAll ts

end

theorem nodesOfAll_append (ts us : List Tree) :
    nodesOfAll (ts ++ us) = nodesOfAll ts ++ nodesOfAll us := by
  induction ts with
  | nil => rfl
  | cons t ts ih => rw [List.cons_append, nodesOfAll, nodesOfAll, ih, List.append_assoc]

theorem nodes_subset_of_mem {t : Tree} {ts : List Tree} (h : t ∈ ts) :
    t.nodes ⊆ nodesOfAll ts := by
  induction ts with
  | nil => cases h
  | cons u us ih =>
    rw [nodesOfAll]
    obtain rfl | h := List.mem_cons.1 h
    · exact List.subset_append_left _ _
    · exact List.subset_append_of_subset_right _ (ih h)

/-- A tree starts with a word, if it holds a token. -/
def StartsInWord (t : Tree) : Prop := ∀ l ∈ t.tokens.head?, l.isTrivia = false

/-- A tree ends with a word, if it holds a token. -/
def EndsInWord (t : Tree) : Prop := ∀ l ∈ t.tokens.getLast?, l.isTrivia = false

/-- A tree ends with a word; an argument of an attribute may hold no token at all. -/
def Tight (t : Tree) : Prop :=
  (∃ l ∈ t.tokens.getLast?, l.isTrivia = false) ∨ t.kind = .attributeArgument ∧ t.tokens = []

theorem Tight.endsInWord {t : Tree} (h : t.Tight) : t.EndsInWord := by
  intro l hl
  obtain ⟨l', hl', hword⟩ | ⟨-, hnil⟩ := h
  · rwa [Option.mem_unique hl hl']
  · simp [hnil] at hl

theorem Tight.kind {t : Tree} (h : t.Tight) (hnil : t.tokens = []) :
    t.kind = .attributeArgument := by
  obtain ⟨l, hl, -⟩ | ⟨hk, -⟩ := h
  · simp [hnil] at hl
  · exact hk

end Tree

/-- What holds of the nodes below the root holds at every site but that of the root. -/
theorem Site.of_mem_nodes {P : Tree → Prop} {t : Tree} (hP : ∀ u ∈ Tree.nodesOfAll t.children, P u)
    {s : Site} (h : s ∈ all t) (habove : s.above ≠ []) : P s.node.tree := by
  cases t with
  | token k x => cases h
  | node k cs =>
    obtain rfl | h := List.mem_cons.1 h
    · exact absurd rfl habove
    obtain ⟨hnode, hall⟩ := of_mem_nodesInAll (P := fun u => ∀ v ∈ u.nodes, P v)
      (fun _ _ hu c hc v hv => hu v (List.mem_cons_of_mem _ (Tree.nodes_subset_of_mem hc hv)))
      (fun c hc v hv => hP v (Tree.nodes_subset_of_mem hc hv)) h
    obtain ⟨⟨u, start⟩, above⟩ := s
    cases u with
    | token => cases hnode
    | node => exact hall _ List.mem_cons_self

namespace Sketch

open Marked

/-! ## starts -/

theorem nodesOfAll_map_token (ps : List Placed) :
    Tree.nodesOfAll (Marked.treesOfAll (ps.map token)) = [] := by
  induction ps with
  | nil => rfl
  | cons p r ih => exact ih

theorem tokens_node (k : Kind) (ms : List Marked) :
    (Tree.node k (Marked.treesOfAll ms)).tokens = (placedOfAll ms).map (·.lexeme) :=
  Marked.tokens_treesOfAll ms

/-- Leading trivia is no part of what is laid behind it. -/
theorem startsInWord_node (size : Nat) (k : Kind) (ss : List Sketch) (ps : List Placed) :
    (Tree.node k (Marked.treesOfAll (layAll size ss (leading ps).2).1)).StartsInWord := by
  intro l hl
  have hplaced := placed_layAll size ss (leading ps).2
  rw [tokens_node, List.head?_map, Option.mem_map] at hl
  obtain ⟨p, hp, rfl⟩ := hl
  have hhead : (leading ps).2.head? = some p := by
    rw [← hplaced, List.head?_append, hp]
    rfl
  obtain ⟨hnil, -⟩ | ⟨q, r, hcons, hq, -⟩ := leading_cases ps
  · rw [hnil] at hhead
    cases hhead
  · rw [hcons] at hhead
    cases hhead
    exact hq

mutual

/-- Laying a sketch puts trivia before its nodes, never at their start. -/
theorem startsInWord_lay (size : Nat) (s : Sketch) (ps : List Placed) :
    ∀ t ∈ Tree.nodesOfAll (Marked.treesOfAll (lay size s ps).1), t.StartsInWord := by
  have hlead : Tree.nodesOfAll (Marked.treesOfAll (leading ps).1) = [] := nodesOfAll_map_token _
  cases s with
  | word w =>
    rw [lay_word]
    cases (leading ps).2 with
    | nil => simp [hlead]
    | cons p r => simp [Marked.treesOfAll_append, Tree.nodesOfAll_append, hlead, Marked.treesOfAll,
        Marked.trees, Tree.nodesOfAll, Tree.nodes]
  | node k parts =>
    have hparts := startsInWord_layAll size parts (leading ps).2
    rw [lay_node, Marked.treesOfAll_append, Tree.nodesOfAll_append, hlead, List.nil_append]
    intro t ht
    simp only [Marked.treesOfAll, Marked.trees, List.append_nil, Tree.nodesOfAll, Tree.nodes,
      List.mem_cons] at ht
    obtain rfl | ht := ht
    · exact startsInWord_node size k parts ps
    · exact hparts t ht
  | fault f => intro t ht; cases ht
  | gap => simp [lay, hlead]

theorem startsInWord_layAll (size : Nat) (ss : List Sketch) (ps : List Placed) :
    ∀ t ∈ Tree.nodesOfAll (Marked.treesOfAll (layAll size ss ps).1), t.StartsInWord := by
  cases ss with
  | nil => intro t ht; cases ht
  | cons s ss =>
    rw [layAll_cons, Marked.treesOfAll_append, Tree.nodesOfAll_append]
    intro t ht
    obtain ht | ht := List.mem_append.1 ht
    · exact startsInWord_lay size s ps t ht
    · exact startsInWord_layAll size ss _ t ht

end

/-! ## ends -/

/-- What ends in a word ends in one where it is laid. -/
theorem exists_getLast?_layAll (size : Nat) {ss : List Sketch} (h : EndsInWord ss)
    {ps : List Placed} (hlen : (wordsOfAll ss).length ≤ (Placed.words ps).length) :
    ∃ p ∈ (placedOfAll (layAll size ss ps).1).getLast?, p.lexeme.isTrivia = false := by
  induction h generalizing ps with
  | word ss w =>
    have hleft := words_layAll_ne_nil size hlen (by simp)
    obtain ⟨-, hnil⟩ | ⟨p, r, hcons, hp, -⟩ := leading_cases (layAll size ss ps).2
    · exact absurd hnil hleft
    · refine ⟨p, ?_, hp⟩
      simp [layAll_append, lay_word, hcons, placedOfAll_append, placedOfAll, placed, layAll]
  | @node ss k parts hparts ih =>
    have hinner : (wordsOfAll parts).length ≤
        (Placed.words (leading (layAll size ss ps).2).2).length := by
      rw [words_leading, words_layAll, List.length_drop]
      simp at hlen
      omega
    obtain ⟨p, hp, hword⟩ := ih hinner
    refine ⟨p, ?_, hword⟩
    rw [Option.mem_def] at hp
    simp [layAll_append, lay_node, placedOfAll_append, placedOfAll, placed, layAll, hp]

mutual

/-- Every node of a sketch ends in a word; an argument of an attribute may be empty. -/
def Tight : Sketch → Prop
  | .node k ps => (EndsInWord ps ∨ k = .attributeArgument ∧ ps = []) ∧ TightAll ps
  | _ => True

/-- Every node of a run of sketches ends in a word; an argument of an attribute may be empty. -/
def TightAll : List Sketch → Prop
  | [] => True
  | s :: ss => Tight s ∧ TightAll ss

end

theorem TightAll.mem {ss : List Sketch} (h : TightAll ss) {s : Sketch} (hs : s ∈ ss) : s.Tight := by
  induction ss with
  | nil => cases hs
  | cons u us ih =>
    obtain rfl | hs := List.mem_cons.1 hs
    · exact h.1
    · exact ih h.2 hs

/-- Arguments of attributes stand between parentheses, so they are never last in a node. -/
theorem not_last_attributeArgument {k : Kind} {ss ps : List Sketch}
    (hparts : parts (ss ++ [.node .attributeArgument ps]) ∈ k.parts)
    (hshaped : k.content.Admits (kinds (ss ++ [.node .attributeArgument ps]))) : False := by
  have hk : k = .attributeArguments := by
    have hmem := hshaped.mem (k := .attributeArgument) (by simp [kinds_append, kinds])
    revert hmem
    cases k <;> decide
  subst hk
  obtain ⟨_, -, _, ⟨_, -, _, ⟨l, -, rfl⟩, rfl⟩, hrow⟩ := hparts
  have hlast := congrArg List.getLast? hrow
  rw [parts_append] at hlast
  simp [parts, treesOfAll, trees, Tree.part] at hlast

mutual

/-- A regular sketch without faults is tight. -/
theorem tight_of_regular {s : Sketch} (hclean : s.Clean) (hregular : s.Regular) (hsolid : s.Solid)
    (hshaped : s.Shaped) : s.Tight := by
  cases s with
  | node k ps =>
    have hparts := tightAll_of_regular hclean hregular.2.2 hsolid.2 hshaped.2
    refine ⟨?_, hparts⟩
    obtain rfl | ⟨ss, s, rfl⟩ := ps.eq_nil_or_concat
    · exact .inr ⟨by_contra fun hk => hsolid.1 hk rfl, rfl⟩
    · rw [List.concat_eq_append] at hclean hregular hshaped hparts ⊢
      cases s with
      | word w => exact .inl (.word ss w)
      | fault f => exact ((cleanAll_append.1 hclean).2.1).elim
      | gap => exact absurd (by simp) hregular.1
      | node j qs =>
        have hlast := (hparts.mem (s := .node j qs) (by simp)).1
        obtain hword | ⟨rfl, -⟩ := hlast
        · exact .inl (.node ss j hword)
        · exact (not_last_attributeArgument hregular.2.1 hshaped.1).elim
  | word w => exact True.intro
  | fault f => exact True.intro
  | gap => exact True.intro

theorem tightAll_of_regular {ss : List Sketch} (hclean : CleanAll ss) (hregular : RegularAll ss)
    (hsolid : SolidAll ss) (hshaped : ShapedAll ss) : TightAll ss := by
  cases ss with
  | nil => exact True.intro
  | cons s ss =>
    exact ⟨tight_of_regular hclean.1 hregular.1 hsolid.1 hshaped.1,
      tightAll_of_regular hclean.2 hregular.2 hsolid.2 hshaped.2⟩

end

mutual

/-- The nodes of a tight sketch that is laid over enough lexemes are tight. -/
theorem tight_lay (size : Nat) {s : Sketch} (hs : s.Tight) (ps : List Placed)
    (hlen : s.words.length ≤ (Placed.words ps).length) :
    ∀ t ∈ Tree.nodesOfAll (Marked.treesOfAll (lay size s ps).1), t.Tight := by
  have hlead : Tree.nodesOfAll (Marked.treesOfAll (leading ps).1) = [] := nodesOfAll_map_token _
  cases s with
  | word w =>
    rw [lay_word]
    cases (leading ps).2 with
    | nil => simp [hlead]
    | cons p r => simp [Marked.treesOfAll_append, Tree.nodesOfAll_append, hlead, Marked.treesOfAll,
        Marked.trees, Tree.nodesOfAll, Tree.nodes]
  | node k parts =>
    have hinner : (wordsOfAll parts).length ≤ (Placed.words (leading ps).2).length := by
      rwa [words_leading]
    have hparts := tight_layAll size hs.2 (leading ps).2 hinner
    rw [lay_node, Marked.treesOfAll_append, Tree.nodesOfAll_append, hlead, List.nil_append]
    intro t ht
    simp only [Marked.treesOfAll, Marked.trees, List.append_nil, Tree.nodesOfAll, Tree.nodes,
      List.mem_cons] at ht
    obtain rfl | ht := ht
    · rw [Tree.Tight, tokens_node]
      -- a node ends with a word, unless it is of the kind that may be empty
      obtain hword | ⟨rfl, rfl⟩ := hs.1
      · obtain ⟨p, hp, htrivia⟩ := exists_getLast?_layAll size hword hinner
        exact .inl ⟨p.lexeme, by simp [Option.mem_def.1 hp], htrivia⟩
      · exact .inr ⟨rfl, rfl⟩
    · exact hparts t ht
  | fault f => intro t ht; cases ht
  | gap => simp [lay, hlead]

theorem tight_layAll (size : Nat) {ss : List Sketch} (hs : TightAll ss) (ps : List Placed)
    (hlen : (wordsOfAll ss).length ≤ (Placed.words ps).length) :
    ∀ t ∈ Tree.nodesOfAll (Marked.treesOfAll (layAll size ss ps).1), t.Tight := by
  cases ss with
  | nil => intro t ht; cases ht
  | cons s ss =>
    rw [wordsOfAll_cons, List.length_append] at hlen
    rw [layAll_cons, Marked.treesOfAll_append, Tree.nodesOfAll_append]
    intro t ht
    obtain ht | ht := List.mem_append.1 ht
    · exact tight_lay size hs.1 ps (by omega) t ht
    · refine tight_layAll size hs.2 _ ?_ t ht
      rw [words_lay, List.length_drop]
      omega

end

end Sketch

/-! ## source files -/

/-- The nodes below the root of a source file are those of its sketch. -/
theorem nodesOfAll_parse (source : String) :
    Tree.nodesOfAll (parse source).tree.children =
      Tree.nodesOfAll (Marked.treesOfAll (Sketch.layAll (Lexeme.sizeOfAll (Lexeme.lex source))
        (fileSketch source) (Placed.ofLexemes 0 (Lexeme.lex source))).1) := by
  show Tree.nodesOfAll (Marked.treesOfAll (markedParts source)) = _
  rw [markedParts_eq, Marked.treesOfAll_append, Tree.nodesOfAll_append,
    Sketch.nodesOfAll_map_token, List.append_nil]

/-- The words of a sketch of a source file are those among its lexemes. -/
theorem length_wordsOfAll_fileSketch (source : String) :
    (Sketch.wordsOfAll (fileSketch source)).length ≤
      (Placed.words (Placed.ofLexemes 0 (Lexeme.lex source))).length := by
  have hlen := congrArg List.length (map_lexeme_words_ofLexemes source)
  rw [List.length_map, List.length_map] at hlen
  rw [hlen, wordsOfAll_fileSketch]

/-- The sketch of a source file without faults is tight. -/
theorem tightAll_fileSketch {source : String} (hclean : (parse source).faults = []) :
    Sketch.TightAll (fileSketch source) :=
  have hsketch := cleanAll_fileSketch hclean
  Sketch.tightAll_of_regular hsketch (yields_fileSketch hclean).regular
    (Grammar.solid_itemsFrom [] _ hsketch) (Grammar.fits_fileItems _).shaped

namespace Site

variable {source : String} {s : Site}

/-- A node below the root starts with a word, if it holds a token. -/
theorem startsInWord_of_mem_all (h : s ∈ all (parse source).tree) (habove : s.above ≠ []) :
    s.node.tree.StartsInWord := by
  refine of_mem_nodes ?_ h habove
  rw [nodesOfAll_parse]
  exact Sketch.startsInWord_layAll _ _ _

/-- In a source file without faults a node below the root ends with a word. -/
theorem tight_of_mem_all (hclean : (parse source).faults = []) (h : s ∈ all (parse source).tree)
    (habove : s.above ≠ []) : s.node.tree.Tight := by
  refine of_mem_nodes ?_ h habove
  rw [nodesOfAll_parse]
  exact Sketch.tight_layAll _ (tightAll_fileSketch hclean) _ (length_wordsOfAll_fileSketch source)

end Site

/-! ## values -/

namespace Located

theorem childOf?_tree {l c : Located} {k : Kind} (h : l.child? (Tree.isNodeOf k) = some c) :
    l.tree.childOf? k = some c.tree := by
  rw [Tree.childOf?, ← map_tree_children, List.find?_map]
  exact congrArg (Option.map Located.tree) h

/-- A child of a kind that a content has once is the first one of it. -/
theorem child?_eq_of_mem {l c : Located} {k : Kind} (hs : l.tree.Shaped) (hc : c ∈ l.children)
    (hk : c.tree.isNodeOf k = true) (hmany : k ∉ l.kind.content.many)
    (honce : l.kind.content.once.count k ≤ 1) : l.child? (Tree.isNodeOf k) = some c := by
  have hcount : (Tree.kinds l.tree.children).count k ≤ 1 := by
    obtain ⟨hn, rfl⟩ := Tree.isNodeOf_iff.1 hk
    have hmem := Tree.mem_kinds (tree_mem_children hc) hn
    obtain ⟨⟨j, cs⟩ | _, start⟩ := l
    · exact ((hs.1 _ hmem).resolve_left hmany).trans honce
    · cases hc
  have hall := flatMap_child? hcount (fun d => if d.tree.isNodeOf k then [d] else [])
    fun d _ hd => by simp [hd]
  have hin : c ∈ l.children.flatMap fun d => if d.tree.isNodeOf k then [d] else [] :=
    List.mem_flatMap.2 ⟨c, hc, by simp [hk]⟩
  rw [hall] at hin
  cases hfind : l.child? (Tree.isNodeOf k) with
  | none => simp [hfind] at hin
  | some d =>
    have hd := List.find?_some hfind
    simp only [hfind, Option.map_some, hd, Option.getD_some, if_true, List.mem_singleton] at hin
    rw [hin]

/-- The expression of the value that a binding, an enum case or a parameter is given. -/
def value? (l : Located) : Option Located :=
  (l.child? (Tree.isNodeOf .initializer)).bind (child? (Tree.isNodeOf .expression))

/-- What is declared by a node has a value: the initial one if the node is a binding, the raw one
of an enum case, the default of a parameter. -/
structure HasValue (l : Located) (v : Option String) : Prop where
  binding : ∀ o node list, ∃ range shape accessors,
    (Facts.ofBinding o node list l).detail = .variable ⟨range, shape, v, accessors⟩
  element : ∀ o node, ∃ range values, (Facts.ofElement o node l).detail = .enumCase range values v
  parameter : (Parameter.ofNode l.tree).default = v

theorem hasValue (l : Located) : l.HasValue l.tree.initializer? :=
  ⟨fun _ _ _ => ⟨_, _, _, rfl⟩, fun _ _ => ⟨_, _, rfl⟩, rfl⟩

end Located

namespace Kind

/-- Nodes whose declaration may be given a value. -/
def valued : List Kind :=
  [.patternBinding, .functionParameter, .enumCaseElement, .enumCaseParameter]

/-- Expressions stand in values only, and those in what may be given one; nowhere twice. -/
theorem content_of_value (j : Kind) :
    (.expression ∉ j.content.many ∧ j.content.once.count .expression ≤ 1 ∧
      .initializer ∉ j.content.many ∧ j.content.once.count .initializer ≤ 1) ∧
      (.expression ∈ j.content.once ++ j.content.many → j = .initializer) ∧
      (.initializer ∈ j.content.once ++ j.content.many → j ∈ valued) := by
  cases j <;> decide

end Kind

namespace Site

/-- The node right around another one is a site too. -/
theorem mem_nodesIn_of_above {above : List Located} {l : Located} {s : Site}
    (h : s ∈ nodesIn above l.start l.tree) :
    s = ⟨l, above⟩ ∨ ∃ p rest, s.above = p :: rest ∧ s.node ∈ p.children ∧
      ⟨p, rest⟩ ∈ nodesIn above l.start l.tree := by
  induction hsize : sizeOf l.tree using Nat.strongRecOn generalizing above l with
  | ind m ih =>
    subst hsize
    cases hnode : l.tree.isNode with
    | false =>
      obtain ⟨⟨_, _⟩ | ⟨_, _⟩, _⟩ := l
      · cases hnode
      · cases h
    | true =>
      rw [nodesIn_node above hnode] at h ⊢
      obtain rfl | h := List.mem_cons.1 h
      · exact .inl rfl
      · obtain ⟨c, hc, hs⟩ := List.mem_flatMap.1 h
        refine .inr ?_
        obtain rfl | ⟨p, rest, habove, hmem, hp⟩ := ih _ (Located.sizeOf_tree_lt_of_mem hc) hs rfl
        · exact ⟨l, above, rfl, hc, List.mem_cons_self⟩
        · exact ⟨p, rest, habove, hmem,
            List.mem_cons_of_mem _ (List.mem_flatMap.2 ⟨c, hc, hp⟩)⟩

variable {source : String}

/-- Every node but the root stands in another one, whose content lists its kind. -/
theorem exists_around {s : Site} (h : s ∈ all (parse source).tree)
    (hk : s.node.kind ≠ .sourceFile) :
    ∃ p rest, s.above = p :: rest ∧ s.node ∈ p.children ∧ ⟨p, rest⟩ ∈ all (parse source).tree ∧
      p.tree.Shaped ∧ s.node.tree.isNodeOf s.node.kind = true ∧
      s.node.kind ∈ p.kind.content.once ++ p.kind.content.many := by
  have hnode := (of_mem_nodesIn (P := fun _ => True) (fun _ _ _ _ _ => True.intro) True.intro h).1
  obtain rfl | ⟨p, rest, habove, hmem, hp⟩ :=
    mem_nodesIn_of_above (l := ⟨(parse source).tree, 0⟩) h
  · exact absurd rfl hk
  · have hshaped : p.tree.Shaped := shaped_of_mem_nodesIn (shaped_parse source) hp
    exact ⟨p, rest, habove, hmem, hp, hshaped, Tree.isNodeOf_iff.2 ⟨hnode, rfl⟩,
      Located.kind_mem_content hshaped hmem hnode⟩

/-- An expression is the value of what stands around its clause. -/
theorem exists_value? {s : Site} (h : s ∈ all (parse source).tree)
    (hk : s.node.kind = .expression) :
    ∃ clause owner above, s.above = clause :: owner :: above ∧
      ⟨owner, above⟩ ∈ all (parse source).tree ∧ owner.kind ∈ Kind.valued ∧
      owner.value? = some s.node := by
  obtain ⟨clause, rest, habove, hmem, hclause, hshaped, hnode, hcontent⟩ :=
    exists_around h (by simp [hk])
  rw [hk] at hnode hcontent
  have hinitializer : clause.kind = .initializer := (Kind.content_of_value _).2.1 hcontent
  obtain ⟨owner, above, habove', hmem', howner, hshaped', hnode', hcontent'⟩ :=
    exists_around hclause (by simp [hinitializer])
  rw [hinitializer] at hnode' hcontent'
  obtain ⟨hmany, honce, -, -⟩ := (Kind.content_of_value clause.kind).1
  obtain ⟨-, -, hmany', honce'⟩ := (Kind.content_of_value owner.kind).1
  refine ⟨clause, owner, above, ?_, howner, (Kind.content_of_value _).2.2 hcontent', ?_⟩
  · rw [habove]
    exact congrArg _ habove'
  · rw [Located.value?, Located.child?_eq_of_mem hshaped' hmem' hnode' hmany' honce',
      Option.bind_some]
    exact Located.child?_eq_of_mem hshaped hmem hnode hmany honce

/-- A value without blanks at its ends is kept as it is written. -/
theorem initializer?_eq_slice? {s : Site} {e : Located} (h : s ∈ all (parse source).tree)
    (he : s.node.value? = some e) (hblank : e.tree.Unblank) :
    s.node.tree.initializer? = e.range.slice? source.toList := by
  obtain ⟨clause, hclause, hexpression⟩ := Option.bind_eq_some_iff.1 he
  have hmem : clause ∈ s.node.children ∧ e ∈ clause.children :=
    ⟨List.mem_of_find?_eq_some hclause, List.mem_of_find?_eq_some hexpression⟩
  have hstands := ((standsIn_of_mem_all h).of_mem_children hmem.1).of_mem_children hmem.2
  have hsize : ∀ l ∈ e.tree.tokens, 0 < l.size := fun l hl =>
    size_pos_of_mem_tokens h (Located.tokens_subset_of_mem hmem.1
      (Located.tokens_subset_of_mem hmem.2 hl))
  rw [hstands.slice?, Tree.initializer?, Located.childOf?_tree hclause, Option.bind_some,
    Located.childOf?_tree hexpression, Option.map_some, Tree.trimmedText_eq_text hsize hblank]

end Site

/-- Nodes are tight. A node other than the root starts with a word, if it holds a token. In a
source file without faults it ends with a word too, and holds one unless it is an argument of an
attribute. So an expression without blanks at its ends is the value of a binding, an enum case or
a parameter, which has what the source has at the place of the expression. -/
theorem parse_tight (source : String) :
    (∀ s ∈ Site.all (parse source).tree, s.above ≠ [] → s.node.tree.StartsInWord) ∧
      ((parse source).faults = [] →
        (∀ s ∈ Site.all (parse source).tree, s.above ≠ [] →
          s.node.tree.EndsInWord ∧
            (s.node.tree.tokens = [] → s.node.kind = .attributeArgument)) ∧
        ∀ s ∈ Site.all (parse source).tree, s.node.kind = .expression → s.node.tree.Unblank →
          s.node.range.slice? source.toList = some s.node.tree.text ∧
            ∃ clause owner above, s.above = clause :: owner :: above ∧
              owner.kind ∈ Kind.valued ∧
              owner.HasValue (s.node.range.slice? source.toList)) := by
  refine ⟨fun s h habove => Site.startsInWord_of_mem_all h habove, fun hclean => ⟨?_, ?_⟩⟩
  · intro s h habove
    have htight := Site.tight_of_mem_all hclean h habove
    exact ⟨htight.endsInWord, htight.kind⟩
  · intro s h hk hblank
    obtain ⟨clause, owner, above, habove, howner, hvalued, hvalue⟩ := Site.exists_value? h hk
    refine ⟨(Site.standsIn_of_mem_all h).slice?, clause, owner, above, habove, hvalued, ?_⟩
    rw [← Site.initializer?_eq_slice? howner hvalue hblank]
    exact owner.hasValue

/-- A default with blanks and a comment around it is kept as it is written. -/
theorem parse_tight_default :
    (parse "func f(a: Int = g( 1 ) /* b */)").faults = [] ∧
      ∃ s ∈ Site.all (parse "func f(a: Int = g( 1 ) /* b */)").tree,
        s.node.range.slice? "func f(a: Int = g( 1 ) /* b */)".toList = some "g( 1 )" ∧
          s.node.tree.EndsInWord ∧
          ∃ clause owner above, s.above = clause :: owner :: above ∧
            owner.kind ∈ Kind.valued ∧ owner.HasValue (some "g( 1 )") := by
  have hclean : (parse "func f(a: Int = g( 1 ) /* b */)").faults = [] := by decide +kernel
  obtain ⟨s, hs, hk, habove, hblank, htext⟩ :
      ∃ s ∈ Site.all (parse "func f(a: Int = g( 1 ) /* b */)").tree,
        s.node.kind = .expression ∧ s.above ≠ [] ∧ s.node.tree.Unblank ∧
          s.node.tree.text = "g( 1 )" := by
    have hany : (Site.all (parse "func f(a: Int = g( 1 ) /* b */)").tree).any (fun s =>
        s.node.kind == .expression && !s.above.isEmpty && decide s.node.tree.Unblank &&
          s.node.tree.text == "g( 1 )") = true := by decide +kernel
    obtain ⟨s, hs, hall⟩ := List.any_eq_true.1 hany
    simp only [Bool.and_eq_true, beq_iff_eq, Bool.not_eq_true', List.isEmpty_eq_false_iff,
      decide_eq_true_eq] at hall
    exact ⟨s, hs, hall.1.1.1, hall.1.1.2, hall.1.2, hall.2⟩
  obtain ⟨hends, hvalues⟩ :=
    (parse_tight "func f(a: Int = g( 1 ) /* b */)").2 hclean
  obtain ⟨hslice, hvalue⟩ := hvalues s hs hk hblank
  rw [htext] at hslice
  rw [hslice] at hvalue
  exact ⟨hclean, s, hs, hslice, (hends s hs habove).1, hvalue⟩

end SwiftOutline

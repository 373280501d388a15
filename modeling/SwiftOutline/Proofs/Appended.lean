import SwiftOutline.Proofs.Boundary
import SwiftOutline.Proofs.Joint
import SwiftOutline.Proofs.Locality
import SwiftOutline.Proofs.Lossless
import SwiftOutline.Proofs.Shifted
import SwiftOutline.Proofs.Solid

/-!
# SwiftOutline.Proofs.Appended

A source behind a file that ends with the brace of a declared type.

* `sketches_itemsFrom_append` — words behind such a file make items of their own: every item of
  the file is read through more words behind it (`localAt_item`), and the last one, which leaves
  no word, takes its own brace last (`extends_typeDeclaration`);
* `EndsInType` — such a file; the lexer starts afresh behind it (`EndsInType.lex_append`), and
  nothing of it is left when its items are laid out (`EndsInType.tail_eq_nil`);
* `markedParts_append` — so the marked tree of the source behind is its own, farther on;
* `parse_append` — the trees and the faults of both.
-/

namespace SwiftOutline

namespace Sketch

theorem kind_of_mem_treesOfAll {ss : List Sketch} {k : Kind}
    (h : ∀ s ∈ ss, ∃ ps, s = .node k ps) {t : Tree} (ht : t ∈ treesOfAll ss) : t.kind = k := by
  induction ss with
  | nil => cases ht
  | cons s ss ih =>
    obtain ⟨ps, rfl⟩ := h s List.mem_cons_self
    obtain rfl | ht := List.mem_cons.1 ht
    · rfl
    · exact ih (fun s hs => h s (List.mem_cons_of_mem _ hs)) ht

end Sketch

/-! ## items behind items -/

namespace Grammar

open Rule
open Sketch (CleanAll cleanAll_append EndsInWord treesOfAll treesOfAll_append
  kind_of_mem_treesOfAll)

variable {vs : List Word}

/-- In a file no word ends the items. -/
theorem atOther_of_ne_nil {ws : List Word} (h : ws ≠ []) : atOther [] ws = true := by
  cases ws with
  | nil => exact absurd rfl h
  | cons w r => simp [atOther, atWord, atAny, kind?]

/-- The items of some words are no trees only if there are no words. -/
theorem treesOfAll_itemsFrom_ne_nil {ws : List Word} (h : ws ≠ []) :
    treesOfAll (itemsFrom [] ws).sketches ≠ [] := by
  intro hnil
  have hwords := Sketch.tokens_treesOfAll (itemsFrom [] ws).sketches
  rw [hnil, ← fileItems, wordsOfAll_fileItems] at hwords
  exact h (List.map_eq_nil_iff.1 hwords.symm)

theorem sketches_itemsFrom_nil : (itemsFrom [] []).sketches = [] := by
  rw [itemsFrom]
  rfl

theorem ne_nil_of_not_loose {ws : List Word} (h : ¬Loose 0 ws) : ws ≠ [] := by
  rintro rfl
  exact h True.intro

/-- From loose words on, no type is declared. -/
theorem not_loose_of_typeDeclaration {ws : List Word} (hend : Ended ws)
    (hclean : CleanAll (itemsFrom [] ws).sketches) {k : Kind} {cs : List Tree}
    (hlast : (treesOfAll (itemsFrom [] ws).sketches).getLast? = some (.node k cs))
    (hk : k ∈ typeDeclarations) : ¬Loose 0 ws := by
  intro hloose
  have hall := (rest_itemsFrom_of_loose (by simp) hend hloose hclean).2
  have hstatement : k = .statement := kind_of_mem_treesOfAll hall (List.mem_of_getLast? hlast)
  subst hstatement
  exact absurd hk (by decide)

/-- An item that declares a type is the same with more words behind. -/
theorem extends_item_of_typeDeclaration {n m : Nat} {inside : List Kind → Rule n}
    {inside' : List Kind → Rule m}
    (hin : ∀ stop, EndsFirm stop → Local vs (inside stop) (inside' stop)) {ws : List Word}
    {h : ws.length < n + 1} (h' : (ws ++ vs).length < m + 1) (hend : Ended ws)
    (hloose : ¬Loose 0 ws) (hclean : CleanAll (item inside [] ws h).sketches) {k : Kind}
    {cs : List Tree}
    (hlast : (treesOfAll (item inside [] ws h).sketches).getLast? = some (.node k cs))
    (hk : k ∈ typeDeclarations) :
    (item inside [] ws h).Extends vs (item inside' [] (ws ++ vs) h') ∧
      EndsInWord (item inside [] ws h).sketches := by
  have hne := ne_nil_of_not_loose hloose
  have hsemicolon : at? .semicolon (ws ++ vs) = at? .semicolon ws :=
    (near_at? _).stable ws hend hne
  have hdeclaration := atDeclaration_append vs hend hloose
  unfold item Rule.ifAt at hclean hlast ⊢
  -- what kind of item it is shows in words of the file, which stay the same
  rw [hsemicolon]
  split
  · next hat =>
    rw [if_pos hat] at hlast
    cases ws with
    | nil => exact absurd rfl hne
    | cons w r => cases hlast
  · next hat =>
    rw [if_neg hat] at hclean hlast
    rw [hdeclaration]
    split
    · next hannounced =>
      rw [if_pos hannounced] at hclean hlast
      obtain ⟨rfl, -⟩ := Tree.node.inj (Option.some.inj hlast)
      exact extends_typeDeclaration hin hend hclean hk
    · next hannounced =>
      rw [if_neg hannounced] at hlast
      obtain ⟨rfl, -⟩ := Tree.node.inj (Option.some.inj hlast)
      exact absurd hk (by decide)

/-- Words behind a file that ends with a declared type make items of their own. -/
theorem sketches_itemsFrom_append (vs : List Word) {ws : List Word} (hend : Ended ws)
    (hclean : CleanAll (itemsFrom [] ws).sketches) {k : Kind} {cs : List Tree}
    (hlast : (treesOfAll (itemsFrom [] ws).sketches).getLast? = some (.node k cs))
    (hk : k ∈ typeDeclarations) :
    (itemsFrom [] (ws ++ vs)).sketches =
        (itemsFrom [] ws).sketches ++ (itemsFrom [] vs).sketches ∧
      EndsInWord (itemsFrom [] ws).sketches := by
  induction hlen : ws.length using Nat.strongRecOn generalizing ws with
  | ind l ih =>
    subst hlen
    have hloose := not_loose_of_typeDeclaration hend hclean hlast hk
    have hfirm : EndsFirm [] := by simp [EndsFirm]
    have hin (stop : List Kind) (hstop : EndsFirm stop) :
        Local vs (fun r (_ : r.length < ws.length) => itemsFrom stop r)
          (fun r (_ : r.length < (ws ++ vs).length) => itemsFrom stop r) := by
      rintro r _ hr hr' rfl hend hclean hrest
      exact extends_itemsFrom hstop hend hclean hrest
    have hne := ne_nil_of_not_loose hloose
    have hother := atOther_of_ne_nil hne
    have hmore := atOther_of_ne_nil (List.append_ne_nil_of_left_ne_nil hne vs)
    rw [itemsFrom, dif_pos hother] at hclean hlast
    rw [itemsFrom.eq_1 [] ws, itemsFrom.eq_1 [] (ws ++ vs), dif_pos hother, dif_pos hmore]
    obtain ⟨hitem, hitems⟩ := cleanAll_append.1 hclean
    dsimp only [Parsed.append] at hlast ⊢
    rw [treesOfAll_append] at hlast
    by_cases hrest : (item (fun stop r (_ : r.length < ws.length) => itemsFrom stop r) [] ws
        (Nat.lt_succ_self _)).rest = []
    · -- the last item leaves no word, but it takes the brace it asks for
      rw [hrest, sketches_itemsFrom_nil, treesOfAll, List.append_nil] at hlast
      obtain ⟨hextends, hword⟩ := extends_item_of_typeDeclaration hin (Nat.lt_succ_self _)
        hend hloose hitem hlast hk
      rw [hextends.sketches, hextends.rest, hrest, sketches_itemsFrom_nil, List.append_nil,
        List.nil_append]
      exact ⟨rfl, hword⟩
    · have hextends := localAt_item hin (fun _ _ => rest_itemsFrom_closeBrace) hfirm hloose _
        (Nat.lt_succ_self _) (Nat.lt_succ_self _) rfl hend hitem hrest
      rw [List.getLast?_append_of_ne_nil _ (treesOfAll_itemsFrom_ne_nil hrest)] at hlast
      have hnext := ih _ (advances_item _ [] ws (Nat.lt_succ_self _) hother) (hend.rest _) hitems
        hlast rfl
      rw [hextends.sketches, hextends.rest, hnext.1, List.append_assoc]
      exact ⟨rfl, hnext.2.append_left _⟩

end Grammar

/-! ## sources behind sources -/

/-- A source file that ends with a declared type: its last lexeme is a brace, and the last part
of its tree is the declaration, which ends with that brace because trees hold all lexemes. -/
structure EndsInType (source : String) : Prop where
  brace : (Lexeme.lex source).getLast? = some ⟨.closeBrace, "\x7d"⟩
  declared : ∃ k ∈ Grammar.typeDeclarations, ∃ cs,
    (parse source).tree.children.getLast? = some (.node k cs)

namespace EndsInType

variable {a : String}

theorem lex_append (h : EndsInType a) (b : String) :
    Lexeme.lex (a ++ b) = Lexeme.lex a ++ Lexeme.lex b := by
  rw [Lexeme.lex, String.toList_append]
  refine Lexeme.lexChars_append (fun l hl => ?_) _
  have hlast := h.brace.symm.trans hl
  cases hlast
  rfl

theorem lex_eq (h : EndsInType a) :
    ∃ front, Lexeme.lex a = front ++ [⟨.closeBrace, "\x7d"⟩] :=
  List.getLast?_eq_some_iff.1 h.brace

/-- The words of a source behind are its own, but the first one may be joined to the brace. -/
theorem ofLexemes_append (h : EndsInType a) (b : String) :
    Word.ofLexemes (Lexeme.lex (a ++ b)) =
      Word.ofLexemes (Lexeme.lex a) ++ Word.ofLexemesAfter true false (Lexeme.lex b) := by
  obtain ⟨front, hfront⟩ := h.lex_eq
  rw [h.lex_append, hfront, List.append_assoc, List.singleton_append]
  exact Word.ofLexemesAfter_word false false front _ _ rfl

theorem ended (h : EndsInType a) (hnamed : Grammar.Named (Word.ofLexemes (Lexeme.lex a))) :
    Grammar.Ended (Word.ofLexemes (Lexeme.lex a)) where
  named := hnamed
  sealed := by
    intro w hw
    obtain ⟨front, hfront⟩ := h.lex_eq
    have hwords := congrArg List.getLast?
      (Word.map_lexeme_ofLexemesAfter false false (Lexeme.lex a))
    rw [← Word.ofLexemes, List.getLast?_map, hw, hfront, List.filter_append,
      List.filter_cons_of_pos rfl, List.filter_nil, List.getLast?_concat] at hwords
    exact congrArg Lexeme.kind (Option.some.inj hwords)

/-- The sketch of a file that ends with a declared type does so too. -/
theorem getLast?_treesOfAll (h : EndsInType a) :
    ∃ k ∈ Grammar.typeDeclarations, ∃ cs,
      (Sketch.treesOfAll (fileSketch a)).getLast? = some (.node k cs) := by
  obtain ⟨k, hk, cs, hlast⟩ := h.declared
  obtain ⟨front, hfront⟩ := List.getLast?_eq_some_iff.1 hlast
  have hbare : Tree.bareAll (parse a).tree.children = Sketch.treesOfAll (fileSketch a) := by
    rw [← Tree.children_bare, bare_parse]
    rfl
  refine ⟨k, hk, Tree.bareAll cs, ?_⟩
  rw [← hbare, hfront, Tree.bareAll_append, Tree.bareAll_cons_node]
  exact List.getLast?_concat

/-- No trivia is left behind the items of a file that ends in a brace. -/
theorem tail_eq_nil (h : EndsInType a) :
    (Sketch.layAll (Lexeme.sizeOfAll (Lexeme.lex a)) (fileSketch a)
      (Placed.ofLexemes 0 (Lexeme.lex a))).2 = [] := by
  obtain ⟨front, hfront⟩ := h.lex_eq
  have htail := words_tail_fileSketch a
  have hplaced := Sketch.placed_layAll (Lexeme.sizeOfAll (Lexeme.lex a)) (fileSketch a)
    (Placed.ofLexemes 0 (Lexeme.lex a))
  generalize Sketch.layAll _ _ _ = laid at htail hplaced ⊢
  obtain hnil | ⟨init, p, hinit⟩ := List.eq_nil_or_concat laid.2
  · exact hnil
  · -- a lexeme that is left is the brace, which is a word
    have hlexemes := congrArg (List.map (·.lexeme)) hplaced
    rw [hinit, Placed.map_lexeme_ofLexemes, hfront] at hlexemes
    have hp : p.lexeme = ⟨.closeBrace, "\x7d"⟩ := by
      have hlast := congrArg List.getLast? hlexemes
      simpa [List.getLast?_append] using hlast
    rw [hinit, List.concat_eq_append, Placed.words_append] at htail
    simp [Placed.words, hp, Lexeme.isTrivia, Kind.isTrivia] at htail

end EndsInType

variable {a : String}

/-- The sketch of a source behind a file that ends with a declared type stands behind the sketch
of that file. -/
theorem fileSketch_append (hclean : (parse a).faults = []) (hend : EndsInType a)
    (hnamed : Grammar.Named (Word.ofLexemes (Lexeme.lex a))) (b : String) :
    Sketch.EndsInWord (fileSketch a) ∧
      ∃ ss, fileSketch (a ++ b) = fileSketch a ++ ss ∧
        Sketch.unjoinedAll ss = Sketch.unjoinedAll (fileSketch b) := by
  obtain ⟨k, hk, cs, hlast⟩ := hend.getLast?_treesOfAll
  obtain ⟨happend, hword⟩ := Grammar.sketches_itemsFrom_append
    (Word.ofLexemesAfter true false (Lexeme.lex b)) (hend.ended hnamed)
    (cleanAll_fileSketch hclean) hlast hk
  have halike := Grammar.alike_itemsFrom []
    (Grammar.rejoined_ofLexemesAfter true false false false (Lexeme.lex b))
  refine ⟨hword, _, ?_, halike.sketches.symm⟩
  rw [fileSketch, hend.ofLexemes_append]
  exact happend

/-- The marked tree of a source behind a file that ends with a declared type stands behind the
marked tree of that file. -/
theorem markedParts_append (hclean : (parse a).faults = []) (hend : EndsInType a)
    (hnamed : Grammar.Named (Word.ofLexemes (Lexeme.lex a))) (b : String) :
    markedParts (a ++ b) =
      markedParts a ++ Marked.shiftedAll a.utf8ByteSize (markedParts b) := by
  obtain ⟨hword, ss, hsketch, hunjoined⟩ := fileSketch_append hclean hend hnamed b
  have hlen : (Sketch.wordsOfAll (fileSketch a)).length ≤
      (Placed.words (Placed.ofLexemes 0 (Lexeme.lex a))).length := by
    have hwords := congrArg List.length (map_lexeme_words_ofLexemes a)
    rw [List.length_map, List.length_map] at hwords
    rw [wordsOfAll_fileSketch, hwords]
  have hsize : Lexeme.sizeOfAll (Lexeme.lex (a ++ b)) =
      Lexeme.sizeOfAll (Lexeme.lex b) + a.utf8ByteSize := by
    rw [hend.lex_append, Lexeme.sizeOfAll_append, Lexeme.sizeOfAll_lex a, Nat.add_comm]
  have hplaced : Placed.ofLexemes 0 (Lexeme.lex (a ++ b)) =
      Placed.ofLexemes 0 (Lexeme.lex a) ++
        (Placed.ofLexemes 0 (Lexeme.lex b)).map (Placed.shifted a.utf8ByteSize) := by
    rw [hend.lex_append, Placed.ofLexemes_append, Placed.map_shifted_ofLexemes,
      Lexeme.sizeOfAll_lex a]
  -- only words know whether they are joined; laying them out does not ask
  have hlaid (size : Nat) (ps : List Placed) :
      Sketch.layAll size ss ps = Sketch.layAll size (fileSketch b) ps := by
    rw [← Sketch.layAll_unjoined, hunjoined, Sketch.layAll_unjoined]
  rw [markedParts_eq, markedParts_eq a, markedParts_eq b, hsketch, hsize, hplaced,
    Sketch.layAll_append,
    Sketch.layAll_append_of_endsInWord (Lexeme.sizeOfAll (Lexeme.lex a)) _ hword
      (cleanAll_fileSketch hclean) hlen,
    hend.tail_eq_nil, List.nil_append, hlaid, Sketch.layAll_shifted, Marked.shiftedAll_append,
    Marked.shiftedAll_map_token]
  simp

/-- A source behind a file without faults that ends with a declared type, and in which a name
follows every `@`, is read as if it stood alone: its trees stand behind those of the file, as far
on as the file takes bytes, and its faults, farther on alike, are all there are. -/
theorem parse_append (hclean : (parse a).faults = []) (hend : EndsInType a)
    (hnamed : Grammar.Named (Word.ofLexemes (Lexeme.lex a))) (b : String) :
    Located.children ⟨(parse (a ++ b)).tree, 0⟩ =
        Located.children ⟨(parse a).tree, 0⟩ ++
          (Located.children ⟨(parse b).tree, 0⟩).map (Located.shifted a.utf8ByteSize) ∧
      (parse (a ++ b)).faults =
        (parse b).faults.map fun f => (f.1, f.2.shifted a.utf8ByteSize) := by
  have hparts := markedParts_append hclean hend hnamed b
  constructor
  · have htrees : (parse (a ++ b)).tree.children =
        (parse a).tree.children ++ (parse b).tree.children := by
      show Marked.treesOfAll (markedParts (a ++ b)) = _
      rw [hparts, Marked.treesOfAll_append, Marked.treesOfAll_shifted]
      rfl
    have hsize : Tree.sizeOfAll (parse a).tree.children = a.utf8ByteSize := by
      have htokens : Tree.tokensOfAll (parse a).tree.children = Lexeme.lex a := tokens_parse a
      rw [Tree.sizeOfAll_eq, htokens, Lexeme.sizeOfAll_lex]
    show Located.row 0 _ = Located.row 0 _ ++ (Located.row 0 _).map _
    rw [htrees, Located.row_append, Located.map_shifted_row, hsize]
  · show Marked.faultsOfAll (markedParts (a ++ b)) = (Marked.faultsOfAll (markedParts b)).map _
    have hnone : Marked.faultsOfAll (markedParts a) = [] := hclean
    rw [hparts, Marked.faultsOfAll_append, Marked.faultsOfAll_shifted, hnone, List.nil_append]

/-- A parenthesis right behind a class stands alone, and so does a brace that closes nothing. -/
theorem parse_append_class :
    (parse "@objc class A \x7b\x7d").faults = [] ∧ EndsInType "@objc class A \x7b\x7d" ∧
      Grammar.Named (Word.ofLexemes (Lexeme.lex "@objc class A \x7b\x7d")) ∧
      Located.children ⟨(parse ("@objc class A \x7b\x7d" ++ "(1) \x7d")).tree, 0⟩ =
        Located.children ⟨(parse "@objc class A \x7b\x7d").tree, 0⟩ ++
          (Located.children ⟨(parse "(1) \x7d").tree, 0⟩).map
            (Located.shifted "@objc class A \x7b\x7d".utf8ByteSize) ∧
      (parse ("@objc class A \x7b\x7d" ++ "(1) \x7d")).faults =
        (parse "(1) \x7d").faults.map fun f =>
          (f.1, f.2.shifted "@objc class A \x7b\x7d".utf8ByteSize) := by
  have hclean : (parse "@objc class A \x7b\x7d").faults = [] := by decide +kernel
  have hend : EndsInType "@objc class A \x7b\x7d" := by
    have hlast : (parse "@objc class A \x7b\x7d").tree.children.getLast?.any
        (fun t => t.isNode && Grammar.typeDeclarations.contains t.kind) = true := by
      decide +kernel
    refine ⟨by decide +kernel, ?_⟩
    cases h : (parse "@objc class A \x7b\x7d").tree.children.getLast? with
    | none => simp [h] at hlast
    | some t =>
      cases t with
      | token k x => simp [h, Tree.isNode] at hlast
      | node k cs => exact ⟨k, by simpa [h, Tree.isNode, Tree.kind] using hlast, cs, rfl⟩
  have hnamed : Grammar.Named (Word.ofLexemes (Lexeme.lex "@objc class A \x7b\x7d")) := by
    decide +kernel
  exact ⟨hclean, hend, hnamed, parse_append hclean hend hnamed "(1) \x7d"⟩

end SwiftOutline

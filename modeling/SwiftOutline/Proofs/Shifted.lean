import SwiftOutline.Proofs.Anchor
import SwiftOutline.Proofs.Local

/-!
# SwiftOutline.Proofs.Shifted

Laying a sketch over lexemes that stand farther on, and over lexemes with more behind them.

* `Placed.ofLexemes_append` — the lexemes behind others stand as far on as those take bytes;
* `Marked.shifted` — a marked tree farther on in a source: the tree is the same, and every fault
  is as much farther on;
* `layAll_shifted` — lexemes farther on make marked trees farther on;
* `layAll_append_of_endsInWord` — a sketch without faults that ends in a word is laid over its
  own lexemes and leaves those behind. One that ends in a gap would take white space from there.
-/

namespace SwiftOutline

/-! ## farther on -/

/-- A range farther on. -/
def Span.shifted (n : Nat) (s : Span) : Span := ⟨s.start + n, s.stop + n⟩

/-- A lexeme farther on. -/
def Placed.shifted (n : Nat) (p : Placed) : Placed := ⟨p.lexeme, p.span.shifted n⟩

/-- A tree farther on. -/
def Located.shifted (n : Nat) (l : Located) : Located := ⟨l.tree, l.start + n⟩

theorem Located.map_shifted_row (n start : Nat) (ts : List Tree) :
    (row start ts).map (shifted n) = row (start + n) ts := by
  induction ts generalizing start with
  | nil => rfl
  | cons t ts ih => rw [row, row, List.map_cons, ih, shifted, Nat.add_right_comm]

theorem Located.row_append (start : Nat) (ts us : List Tree) :
    row start (ts ++ us) = row start ts ++ row (start + Tree.sizeOfAll ts) us := by
  induction ts generalizing start with
  | nil => rfl
  | cons t ts ih => rw [List.cons_append, row, row, ih, Tree.sizeOfAll, Nat.add_assoc]; rfl

namespace Placed

theorem ofLexemes_append (start : Nat) (ls ms : List Lexeme) :
    ofLexemes start (ls ++ ms) =
      ofLexemes start ls ++ ofLexemes (start + Lexeme.sizeOfAll ls) ms := by
  induction ls generalizing start with
  | nil => rfl
  | cons l ls ih => simp [ofLexemes, ih, Nat.add_assoc]

theorem map_shifted_ofLexemes (n start : Nat) (ls : List Lexeme) :
    (ofLexemes start ls).map (shifted n) = ofLexemes (start + n) ls := by
  induction ls generalizing start with
  | nil => rfl
  | cons l ls ih =>
    rw [ofLexemes, ofLexemes, List.map_cons, ih, shifted, Span.shifted, Nat.add_right_comm]

theorem nextSpan_shifted (n size : Nat) (ps : List Placed) :
    nextSpan (size + n) (ps.map (shifted n)) = (nextSpan size ps).shifted n := by
  induction ps with
  | nil => rfl
  | cons p ps ih =>
    by_cases h : p.lexeme.isTrivia = true
    · simpa [nextSpan, shifted, h] using ih
    · simp [nextSpan, shifted, h]

end Placed

namespace Marked

mutual

/-- A marked tree farther on. -/
def shifted (n : Nat) : Marked → Marked
  | token p => token (p.shifted n)
  | node k ms => node k (shiftedAll n ms)
  | fault f s => fault f (s.shifted n)

/-- Marked trees farther on. -/
def shiftedAll (n : Nat) : List Marked → List Marked
  | [] => []
  | m :: ms => shifted n m :: shiftedAll n ms

end

theorem shiftedAll_eq (n : Nat) (ms : List Marked) : shiftedAll n ms = ms.map (shifted n) := by
  induction ms with
  | nil => rfl
  | cons m ms ih => rw [shiftedAll, ih, List.map_cons]

theorem shiftedAll_append (n : Nat) (ms ns : List Marked) :
    shiftedAll n (ms ++ ns) = shiftedAll n ms ++ shiftedAll n ns := by
  simp only [shiftedAll_eq, List.map_append]

theorem shiftedAll_map_token (n : Nat) (ps : List Placed) :
    shiftedAll n (ps.map token) = (ps.map (Placed.shifted n)).map token := by
  rw [shiftedAll_eq, List.map_map, List.map_map]
  rfl

mutual

theorem trees_shifted (n : Nat) (m : Marked) : (m.shifted n).trees = m.trees := by
  cases m with
  | token p => rfl
  | node k ms => rw [shifted, trees, trees, treesOfAll_shifted n ms]
  | fault f s => rfl

theorem treesOfAll_shifted (n : Nat) (ms : List Marked) :
    treesOfAll (shiftedAll n ms) = treesOfAll ms := by
  cases ms with
  | nil => rfl
  | cons m ms => rw [shiftedAll, treesOfAll, treesOfAll, trees_shifted n m, treesOfAll_shifted n ms]

end

mutual

theorem faults_shifted (n : Nat) (m : Marked) :
    (m.shifted n).faults = m.faults.map fun f => (f.1, f.2.shifted n) := by
  cases m with
  | token p => rfl
  | node k ms => exact faultsOfAll_shifted n ms
  | fault f s => rfl

theorem faultsOfAll_shifted (n : Nat) (ms : List Marked) :
    faultsOfAll (shiftedAll n ms) = (faultsOfAll ms).map fun f => (f.1, f.2.shifted n) := by
  cases ms with
  | nil => rfl
  | cons m ms =>
    rw [shiftedAll, faultsOfAll, faultsOfAll, List.map_append, faults_shifted n m,
      faultsOfAll_shifted n ms]

end

theorem leading_shifted (n : Nat) (ps : List Placed) :
    leading (ps.map (Placed.shifted n)) =
      (shiftedAll n (leading ps).1, (leading ps).2.map (Placed.shifted n)) := by
  rw [leading, leading, shiftedAll_map_token, List.takeWhile_map, List.dropWhile_map]
  rfl

/-- Trivia goes on up to a word, if there is one. -/
theorem leading_append {ps : List Placed} (h : Placed.words ps ≠ []) (qs : List Placed) :
    leading (ps ++ qs) = ((leading ps).1, (leading ps).2 ++ qs) := by
  induction ps with
  | nil => exact absurd rfl h
  | cons p ps ih =>
    by_cases hp : p.lexeme.isTrivia = true
    · have hps : Placed.words ps ≠ [] := by simpa [Placed.words, hp] using h
      simpa [leading, hp] using ih hps
    · simp [leading, hp]

end Marked

/-! ## laying -/

namespace Sketch

open Marked

theorem layAll_append (size : Nat) (ss ts : List Sketch) (ps : List Placed) :
    layAll size (ss ++ ts) ps =
      ((layAll size ss ps).1 ++ (layAll size ts (layAll size ss ps).2).1,
        (layAll size ts (layAll size ss ps).2).2) := by
  induction ss generalizing ps with
  | nil => rfl
  | cons s ss ih => rw [List.cons_append, layAll_cons, layAll_cons, ih, List.append_assoc]

mutual

theorem lay_shifted (n size : Nat) (s : Sketch) (ps : List Placed) :
    lay (size + n) s (ps.map (Placed.shifted n)) =
      (shiftedAll n (lay size s ps).1, (lay size s ps).2.map (Placed.shifted n)) := by
  cases s with
  | word w =>
    rw [lay_word, lay_word, leading_shifted]
    cases (leading ps).2 with
    | nil => rfl
    | cons p r =>
      rw [shiftedAll_append]
      rfl
  | node k parts =>
    rw [lay_node, lay_node, leading_shifted, layAll_shifted n size parts, shiftedAll_append]
    rfl
  | fault f =>
    rw [lay, lay, Placed.nextSpan_shifted]
    rfl
  | gap => exact leading_shifted n ps

/-- Lexemes farther on make marked trees farther on. -/
theorem layAll_shifted (n size : Nat) (ss : List Sketch) (ps : List Placed) :
    layAll (size + n) ss (ps.map (Placed.shifted n)) =
      (shiftedAll n (layAll size ss ps).1, (layAll size ss ps).2.map (Placed.shifted n)) := by
  cases ss with
  | nil => rfl
  | cons s ss =>
    rw [layAll_cons, layAll_cons, lay_shifted n size s, layAll_shifted n size ss,
      shiftedAll_append]

end

/-! ### lexemes behind -/

/-- Where a word is left, there was one. -/
theorem words_ne_nil_of_layAll {size : Nat} {ss : List Sketch} {ps : List Placed}
    (h : Placed.words (layAll size ss ps).2 ≠ []) : Placed.words ps ≠ [] := by
  intro hnil
  rw [words_layAll, hnil] at h
  exact h List.drop_nil

mutual

theorem lay_append_of_left {size size' : Nat} {s : Sketch} {ps : List Placed} (hclean : s.Clean)
    (h : Placed.words (lay size s ps).2 ≠ []) (qs : List Placed) :
    lay size' s (ps ++ qs) = ((lay size s ps).1, (lay size s ps).2 ++ qs) := by
  have hps : Placed.words ps ≠ [] := by
    intro hnil
    rw [words_lay, hnil] at h
    exact h List.drop_nil
  cases s with
  | word w =>
    rw [lay_word, lay_word, leading_append hps]
    obtain ⟨-, hnil⟩ | ⟨p, r, hcons, -⟩ := leading_cases ps
    · exact absurd hnil hps
    · rw [hcons]
      rfl
  | node k parts =>
    rw [lay_node] at h
    rw [lay_node, lay_node, leading_append hps, layAll_append_of_left hclean h]
  | fault f => exact hclean.elim
  | gap => exact leading_append hps qs

/-- A sketch without faults that leaves a word is laid over the same lexemes with more behind. -/
theorem layAll_append_of_left {size size' : Nat} {ss : List Sketch} {ps : List Placed}
    (hclean : CleanAll ss) (h : Placed.words (layAll size ss ps).2 ≠ []) (qs : List Placed) :
    layAll size' ss (ps ++ qs) = ((layAll size ss ps).1, (layAll size ss ps).2 ++ qs) := by
  cases ss with
  | nil => rfl
  | cons s ss =>
    rw [layAll_cons] at h
    rw [layAll_cons, layAll_cons, lay_append_of_left hclean.1 (words_ne_nil_of_layAll h),
      layAll_append_of_left hclean.2 h]

end

/-- In front of words there is a word. -/
theorem words_layAll_ne_nil {ss ts : List Sketch} {ps : List Placed} (size : Nat)
    (hlen : (wordsOfAll (ss ++ ts)).length ≤ (Placed.words ps).length)
    (hts : wordsOfAll ts ≠ []) : Placed.words (layAll size ss ps).2 ≠ [] := by
  have hpos := List.length_pos_iff.2 hts
  rw [wordsOfAll_append, List.length_append] at hlen
  rw [words_layAll, ← List.length_pos_iff, List.length_drop]
  omega

/-- A sketch without faults that ends in a word is laid over the same lexemes with more behind. -/
theorem layAll_append_of_endsInWord (size size' : Nat) {ss : List Sketch}
    (hword : EndsInWord ss) {ps : List Placed} (hclean : CleanAll ss)
    (hlen : (wordsOfAll ss).length ≤ (Placed.words ps).length) (qs : List Placed) :
    layAll size' ss (ps ++ qs) = ((layAll size ss ps).1, (layAll size ss ps).2 ++ qs) := by
  induction hword generalizing ps with
  | word ss w =>
    have hleft := words_layAll_ne_nil size hlen (by simp)
    obtain ⟨hfirst, -⟩ := cleanAll_append.1 hclean
    rw [layAll_append, layAll_append, layAll_append_of_left hfirst hleft]
    obtain ⟨-, hnil⟩ | ⟨p, r, hcons, -⟩ := leading_cases (layAll size ss ps).2
    · exact absurd hnil hleft
    · simp only [layAll_cons, lay_word, leading_append hleft, hcons]
      rfl
  | @node ss k parts hparts ih =>
    have hleft := words_layAll_ne_nil size hlen (by simp [hparts.words_ne_nil])
    obtain ⟨hfirst, hlast⟩ := cleanAll_append.1 hclean
    have hinner : (wordsOfAll parts).length ≤
        (Placed.words (leading (layAll size ss ps).2).2).length := by
      rw [words_leading, words_layAll, List.length_drop]
      simp at hlen
      omega
    rw [layAll_append, layAll_append, layAll_append_of_left hfirst hleft]
    simp only [layAll_cons, lay_node, leading_append hleft, ih hlast.1 hinner]
    rfl

end Sketch

end SwiftOutline

import SwiftOutline.Proofs.Appended
import SwiftOutline.Unicode.Blank

/-!
# SwiftOutline.Proofs.Slices

The place that a node takes in its source spells the node.

* `Located.StandsIn` — a tree spells the part of a text that starts where the tree is placed;
* `Site.standsIn_of_mem_all` — every node of a syntax tree stands in its source;
* `Tree.trimmedText_eq_text` — a tree whose tokens have no blanks at either end needs no trimming.
-/

namespace SwiftOutline

/-! ## places -/

namespace Tree

theorem utf8Len_text (t : Tree) : String.utf8Len t.text.toList = t.size := by
  rw [size_eq, Lexeme.sizeOfAll_eq_utf8Len, text, Lexeme.toList_textOfAll]

theorem toList_text (t : Tree) : t.text.toList = t.tokens.flatMap (·.text.toList) :=
  Lexeme.toList_textOfAll _

end Tree

namespace Located

variable {source front back : List Char}

/-- A tree spells the part of a text that starts where the tree is placed. -/
def StandsIn (source : List Char) (l : Located) : Prop :=
  ∃ front back, source = front ++ (l.tree.text.toList ++ back) ∧ String.utf8Len front = l.start

theorem StandsIn.slice? {l : Located} (h : l.StandsIn source) :
    l.range.slice? source = some l.tree.text := by
  obtain ⟨front, back, rfl, hstart⟩ := h
  rw [range, ← hstart, ← Tree.utf8Len_text, Span.slice?_append, String.ofList_toList]

/-- Trees laid one after the other stand in what they spell together. -/
theorem standsIn_of_mem_row {ts : List Tree} {l : Located}
    (h : source = front ++ ((Tree.tokensOfAll ts).flatMap (·.text.toList) ++ back))
    (hl : l ∈ row (String.utf8Len front) ts) : l.StandsIn source := by
  induction ts generalizing front with
  | nil => cases hl
  | cons t ts ih =>
    rw [Tree.tokensOfAll, List.flatMap_append, ← Tree.toList_text, List.append_assoc] at h
    obtain rfl | hl := List.mem_cons.1 hl
    · exact ⟨front, _, h, rfl⟩
    · rw [← Tree.utf8Len_text, ← String.utf8Len_append] at hl
      exact ih (by rw [h, List.append_assoc]) hl

theorem tokens_subset_of_mem {l c : Located} (hc : c ∈ l.children) :
    c.tree.tokens ⊆ l.tree.tokens := by
  obtain ⟨⟨k, cs⟩ | _, start⟩ := l
  · refine Tree.tokens_subset_of_mem ?_
    rw [← map_tree_row start cs]
    exact List.mem_map_of_mem hc
  · cases hc

theorem StandsIn.of_mem_children {l c : Located} (h : l.StandsIn source) (hc : c ∈ l.children) :
    c.StandsIn source := by
  obtain ⟨⟨k, cs⟩ | _, start⟩ := l
  · obtain ⟨front, back, hsource, hstart⟩ := h
    rw [Tree.toList_text] at hsource
    refine standsIn_of_mem_row hsource ?_
    rw [hstart]
    exact hc
  · cases hc

end Located

namespace Site

variable {source : List Char}

/-- What stands in a text hands that down to all nodes below it. -/
theorem standsIn_of_mem_nodesIn {above : List Located} {l : Located} {s : Site}
    (hl : l.StandsIn source) (h : s ∈ nodesIn above l.start l.tree) : s.node.StandsIn source := by
  induction hsize : sizeOf l.tree using Nat.strongRecOn generalizing above l with
  | ind m ih =>
    subst hsize
    cases hnode : l.tree.isNode with
    | false =>
      obtain ⟨⟨_, _⟩ | ⟨_, _⟩, _⟩ := l
      · cases hnode
      · cases h
    | true =>
      rw [nodesIn_node above hnode] at h
      obtain rfl | h := List.mem_cons.1 h
      · exact hl
      · obtain ⟨c, hc, hs⟩ := List.mem_flatMap.1 h
        exact ih _ (Located.sizeOf_tree_lt_of_mem hc) (hl.of_mem_children hc) hs rfl

/-- Every node of a syntax tree stands in its source. -/
theorem standsIn_of_mem_all {source : String} {s : Site} (h : s ∈ all (parse source).tree) :
    s.node.StandsIn source.toList := by
  refine standsIn_of_mem_nodesIn (l := ⟨(parse source).tree, 0⟩) ⟨[], [], ?_, rfl⟩ h
  rw [text_parse, List.nil_append, List.append_nil]

end Site

/-! ## blanks at the ends -/

namespace Unicode

/-- A text without blanks at either end needs no trimming. -/
theorem trim_eq_self {s : String} (hstart : ∀ c ∈ s.toList.head?, isBlank c = false)
    (hend : ∀ c ∈ s.toList.getLast?, isBlank c = false) : trim s = s := by
  have hkept {cs : List Char} (h : ∀ c ∈ cs.head?, isBlank c = false) :
      cs.dropWhile isBlank = cs := by
    cases cs with
    | nil => rfl
    | cons c cs => rw [List.dropWhile_cons, h c rfl, if_neg Bool.false_ne_true]
  rw [trim, trimStart, hkept hstart, trimEnd, hkept (by rwa [List.head?_reverse]),
    List.reverse_reverse, String.ofList_toList]

end Unicode

namespace Tree

/-- The first token of a tree does not start with a blank, the last one does not end with one. -/
structure Unblank (t : Tree) : Prop where
  start : ∀ l ∈ t.tokens.head?, ∀ c ∈ l.text.toList.head?, Unicode.isBlank c = false
  stop : ∀ l ∈ t.tokens.getLast?, ∀ c ∈ l.text.toList.getLast?, Unicode.isBlank c = false

-- by `Option.all`, as an instance for `∀ c : Char` would try every character
instance : DecidablePred Unblank := fun t =>
  decidable_of_iff
    ((t.tokens.head?.all fun l => l.text.toList.head?.all (!Unicode.isBlank ·)) = true ∧
      (t.tokens.getLast?.all fun l => l.text.toList.getLast?.all (!Unicode.isBlank ·)) = true) <| by
    simp only [Option.all_eq_true, Bool.not_eq_true']
    exact ⟨fun h => ⟨h.1, h.2⟩, fun h => ⟨h.start, h.stop⟩⟩

/-- A tree whose tokens have no blanks at either end needs no trimming. -/
theorem trimmedText_eq_text {t : Tree} (hsize : ∀ l ∈ t.tokens, 0 < l.size) (h : t.Unblank) :
    t.trimmedText = t.text := by
  have hne {l : Lexeme} (hl : l ∈ t.tokens) : l.text.toList ≠ [] := fun hnil => by
    have hpos := hsize l hl
    rw [Lexeme.size_eq_utf8Len, hnil] at hpos
    exact Nat.lt_irrefl _ hpos
  refine Unicode.trim_eq_self (fun c hc => ?_) (fun c hc => ?_)
  · change c ∈ t.text.toList.head? at hc
    rw [toList_text] at hc
    cases htokens : t.tokens with
    | nil => simp [htokens] at hc
    | cons l ls =>
      rw [htokens, List.flatMap_cons, List.head?_append_of_ne_nil _ (hne (by simp [htokens]))] at hc
      exact h.start l (by simp [htokens]) c hc
  · change c ∈ t.text.toList.getLast? at hc
    rw [toList_text] at hc
    obtain htokens | ⟨ls, l, htokens⟩ := t.tokens.eq_nil_or_concat
    · simp [htokens] at hc
    · rw [htokens, List.concat_eq_append, List.flatMap_append, List.flatMap_singleton,
        List.getLast?_append_of_ne_nil _ (hne (by simp [htokens]))] at hc
      exact h.stop l (by simp [htokens]) c hc

end Tree

end SwiftOutline

import SwiftOutline.Proofs.GoesOn
import SwiftOutline.Proofs.Lossless
import SwiftOutline.Proofs.Visit

/-!
# SwiftOutline.Proofs.Normalized

Normalized text is cut up into the words that it was made of, unless one of them goes on with what
stands behind it there.

* `Scanned` — lexemes that were cut off texts; it holds of the lexemes of every text and of any of
  them that are picked out in their order;
* `Glued` — one of some words goes on with those behind it, with the spaces they need;
* `visible_spacedAfter_iff` — spaced words are cut up again as they are exactly if none are
  glued. A space that is needed ends the lexeme before it, and a mark ends a word or a number;
* `Site.lex_normalizedText_iff` — so it is with every node of a syntax tree that holds no error.
-/

namespace SwiftOutline

namespace Lexeme

variable {l : Lexeme} {ls ls' : List Lexeme} {rest ds : List Char}

/-! ## lexemes that were cut off texts -/

/-- A lexeme is cut off a text, and something is left behind it. -/
def CutOff (l : Lexeme) (rest : List Char) : Prop :=
  ∃ c front, l.text.toList = c :: front ∧ scan c (front ++ rest) = (l.kind, front.length)

/-- Lexemes were cut off texts, all but the last one with something left behind them. -/
inductive Scanned : List Lexeme → Prop
  | nil : Scanned []
  | cons {l : Lexeme} {ls : List Lexeme} {rest : List Char} (hl : l.CutOff rest)
      (hlast : rest = [] → ls = []) (hls : Scanned ls) : Scanned (l :: ls)

theorem scanned_lexChars (cs : List Char) : Scanned (lexChars cs) := by
  fun_induction lexChars cs with
  | case1 => exact .nil
  | case2 c tail kind n heq ih =>
    have hle : (scan c tail).2 ≤ tail.length := scan_le
    rw [heq] at hle
    have hcut : CutOff ⟨kind, String.ofList (c :: tail.take n)⟩ (tail.drop n) := by
      refine ⟨c, tail.take n, String.toList_ofList, ?_⟩
      rw [List.take_append_drop, heq, List.length_take_of_le hle]
    exact .cons hcut (fun hrest => by rw [hrest, lexChars_nil]) ih

theorem Scanned.tail (h : Scanned (l :: ls)) : Scanned ls := by
  cases h with
  | cons _ _ hls => exact hls

theorem Scanned.sublist (h : Scanned ls) (hs : ls'.Sublist ls) : Scanned ls' := by
  induction hs with
  | slnil => exact .nil
  | cons l _ ih => exact ih h.tail
  | cons_cons l hs ih =>
    cases h with
    | cons hl hlast hls =>
      exact .cons hl (fun hrest => List.sublist_nil.1 (hlast hrest ▸ hs)) (ih hls)

/-! ## words that are glued -/

/-- One of some words goes on with those behind it, with the spaces they need. -/
inductive Glued : List Lexeme → Prop
  | here {l : Lexeme} {ls : List Lexeme}
      (h : GoesOn l.text.toList (spacedAfter (some l.kind) ls).toList) : Glued (l :: ls)
  | there {l : Lexeme} {ls : List Lexeme} (h : Glued ls) : Glued (l :: ls)

theorem not_glued_nil : ¬Glued [] := nofun

theorem glued_cons_iff : Glued (l :: ls) ↔
    GoesOn l.text.toList (spacedAfter (some l.kind) ls).toList ∨ Glued ls := by
  constructor
  · intro h
    cases h with
    | here h => exact .inl h
    | there h => exact .inr h
  · rintro (h | h)
    · exact .here h
    · exact .there h

/-! ## spaced words -/

/-- The lexemes of a text, without the blanks. -/
def visible (cs : List Char) : List Lexeme := (lexChars cs).filter (·.kind != .whitespace)

/-- A word of a text: neither trivia nor an error. -/
def IsSound (l : Lexeme) : Prop := l.isTrivia = false ∧ l.kind ≠ .error

theorem IsSound.ne_whitespace (h : l.IsSound) : l.kind ≠ .whitespace := by
  intro hk
  have htrivia := h.1
  rw [Lexeme.isTrivia, hk] at htrivia
  cases htrivia

/-- What is cut off as a word does not start with a blank. -/
theorem CutOff.isSpace_eq_false {c : Char} {front : List Char} (hl : l.isTrivia = false)
    (h : scan c (front ++ rest) = (l.kind, front.length)) : isSpace c = false := by
  by_contra hspace
  rw [scan_of_isSpace (eq_true_of_ne_false hspace)] at h
  obtain ⟨hkind, -⟩ := Prod.mk.inj h
  rw [Lexeme.isTrivia, ← hkind] at hl
  cases hl

/-- Nothing but a space that is needed, or a mark, stands behind what reads as a word. -/
theorem separated_spacedAfter {k : Kind} (hk : k.readsAsWord = true) (h : Scanned ls) :
    Separated (spacedAfter (some k) ls).toList := by
  cases h with
  | nil => simp [spacedAfter, Separated]
  | @cons l ls rest hl =>
    obtain ⟨c, front, htext, hscan⟩ := hl
    by_cases hneeded : k.needsSpace l.kind = true
    · simp [spacedAfter, hneeded, Separated, separators]
    · have hmark : l.kind.readsAsWord = false := by
        simp_all [Kind.needsSpace]
      have hc : c ∈ separators := by
        refine (readsAsWord_or_mem_separators c).resolve_left fun hwords => ?_
        have hword := hwords (front ++ rest)
        rw [hscan, hmark] at hword
        cases hword
      simpa [spacedAfter, hneeded, Separated, htext] using hc

/-- A space in front of what is no blank is a lexeme of its own. -/
theorem lexChars_space (needed : Bool) (hds : ∀ d ∈ ds.head?, isSpace d = false) :
    lexChars ((if needed then " " else "").toList ++ ds) =
      (if needed then [⟨.whitespace, " "⟩] else []) ++ lexChars ds := by
  cases needed with
  | false => rfl
  | true =>
    have hblank : IsBlank ⟨.whitespace, " "⟩ := ⟨rfl, by simp, by simp [isSpace]⟩
    exact lexChars_blank hblank hds

theorem visible_space (needed : Bool) (hds : ∀ d ∈ ds.head?, isSpace d = false) :
    visible ((if needed then " " else "").toList ++ ds) = visible ds := by
  rw [visible, lexChars_space needed hds, List.filter_append]
  cases needed <;> rfl

/-- A word is cut off what stands behind it exactly if it does not go on with it. -/
theorem visible_append_iff (h : l.CutOff rest) (hsound : l.IsSound)
    (hword : l.kind.readsAsWord = true → Separated ds) (hopen : rest = [] → ds = []) :
    visible (l.text.toList ++ ds) = l :: ls ↔ ¬GoesOn l.text.toList ds ∧ visible ds = ls := by
  obtain ⟨c, front, htext, hscan⟩ := h
  have hc := CutOff.isSpace_eq_false hsound.1 hscan
  have hscan_iff : scan c (front ++ ds) = (l.kind, front.length) ↔ ¬GoesOn (c :: front) ds :=
    scan_append_iff hscan hsound.1 hsound.2 hword fun _ => hopen
  rw [htext, List.cons_append]
  by_cases hgo : GoesOn (c :: front) ds
  · refine iff_of_false (fun hvisible => ?_) fun h => h.1 hgo
    rw [visible, lexChars_cons, List.filter_cons_of_pos (by simp [kind_ne_whitespace hc])]
      at hvisible
    obtain ⟨hfirst, -⟩ := List.cons.inj hvisible
    have hlength : (scan c (front ++ ds)).2 = front.length := by
      have htake := congrArg (List.length ·.text.toList) hfirst
      have hle : (scan c (front ++ ds)).2 ≤ (front ++ ds).length := scan_le
      simp only [String.toList_ofList, htext, List.length_cons, List.length_take,
        Nat.min_eq_left hle] at htake
      exact Nat.succ.inj htake
    exact hscan_iff.1 (Prod.ext (congrArg Lexeme.kind hfirst) hlength) hgo
  · have hkept : lexChars (c :: (front ++ ds)) = l :: lexChars ds := by
      rw [lexChars_lexeme front (hscan_iff.2 hgo), ← htext, String.ofList_toList]
    simp [visible, hkept, hgo, hsound.ne_whitespace]

theorem visible_spacedAfter_iff (h : Scanned ls) (hsound : ∀ l ∈ ls, l.IsSound)
    (before : Option Kind) : visible (spacedAfter before ls).toList = ls ↔ ¬Glued ls := by
  induction h generalizing before with
  | nil => simp [spacedAfter, visible, not_glued_nil]
  | @cons l ls rest hl hlast hls ih =>
    obtain ⟨hfirst, hothers⟩ := List.forall_mem_cons.1 hsound
    have hstart : ∀ d ∈ (l.text.toList ++ (spacedAfter (some l.kind) ls).toList).head?,
        isSpace d = false := by
      obtain ⟨c, front, htext, hscan⟩ := hl
      simpa [htext] using CutOff.isSpace_eq_false hfirst.1 hscan
    have hds (hrest : rest = []) : (spacedAfter (some l.kind) ls).toList = [] := by
      simp [hlast hrest, spacedAfter]
    have htext : (spacedAfter before (l :: ls)).toList =
        (if before.any (·.needsSpace l.kind) then " " else "").toList ++
          (l.text.toList ++ (spacedAfter (some l.kind) ls).toList) := by
      simp [spacedAfter]
    rw [htext, visible_space _ hstart,
      visible_append_iff hl hfirst (separated_spacedAfter · hls) hds, ih hothers, glued_cons_iff,
      not_or]

end Lexeme

/-! ## nodes -/

namespace Tree

theorem tokens_sublist_of_mem {c : Tree} {cs : List Tree} (hc : c ∈ cs) :
    c.tokens.Sublist (tokensOfAll cs) := by
  obtain ⟨front, back, rfl⟩ := List.append_of_mem hc
  rw [tokensOfAll_append, tokensOfAll]
  exact (List.sublist_append_left _ _).trans (List.sublist_append_right _ _)

end Tree

namespace Site

open Lexeme

theorem scanned_allWords {source : String} {s : Site} (hs : s ∈ all (parse source).tree) :
    Scanned s.node.tree.allWords := by
  have htree : Scanned (parse source).tree.tokens := by
    rw [tokens_parse]
    exact scanned_lexChars _
  have hbelow : ∀ k cs, Scanned (Tree.node k cs).tokens → ∀ c ∈ cs, Scanned c.tokens :=
    fun k cs h c hc => h.sublist (Tree.tokens_sublist_of_mem hc)
  have hnode : Scanned s.node.tree.tokens :=
    (of_mem_nodesIn (P := fun t => Scanned t.tokens) hbelow htree hs).2
  exact hnode.sublist List.filter_sublist

/-- The normalized text of a node without errors is cut up into the words of the node exactly if no
word goes on with those behind it. -/
theorem lex_normalizedText_iff {source : String} {s : Site} (hs : s ∈ all (parse source).tree)
    (herror : ∀ l ∈ s.node.tree.tokens, l.kind ≠ .error) :
    (lex s.node.tree.normalizedText).filter (·.kind != .whitespace) = s.node.tree.allWords ↔
      ¬Glued s.node.tree.allWords := by
  refine visible_spacedAfter_iff (scanned_allWords hs) (fun l hl => ?_) none
  obtain ⟨hmem, htrivia⟩ := List.mem_filter.1 hl
  exact ⟨by simpa using htrivia, herror l hmem⟩

theorem lex_normalizedText_iff_and :
    let source := "#if a && b\n#endif"
    ∃ s ∈ all (parse source).tree, s.node.kind = .ifConfigCondition ∧
      (∀ l ∈ s.node.tree.tokens, l.kind ≠ .error) ∧ s.node.tree.normalizedText = "a&&b" ∧
        ¬Glued s.node.tree.allWords := by
  intro source
  have hany : ((all (parse source).tree).any fun s => s.node.kind == .ifConfigCondition &&
      (s.node.tree.tokens.all (·.kind != .error) && (s.node.tree.normalizedText == "a&&b" &&
        (lex s.node.tree.normalizedText).filter (·.kind != .whitespace) ==
          s.node.tree.allWords))) = true := by
    decide +kernel
  obtain ⟨s, hs, hrest⟩ := List.any_eq_true.1 hany
  simp only [Bool.and_eq_true, beq_iff_eq, List.all_eq_true, bne_iff_ne] at hrest
  obtain ⟨hkind, herror, htext, hlex⟩ := hrest
  exact ⟨s, hs, hkind, herror, htext, (lex_normalizedText_iff hs herror).1 hlex⟩

/-- A conjunction and a negation behind it become one operator. -/
theorem operators_glued :
    let source := "#if a && !b\n#endif"
    (parse source).faults = [] ∧
      ∃ s ∈ all (parse source).tree, s.node.kind = .ifConfigCondition ∧
        (∀ l ∈ s.node.tree.tokens, l.kind ≠ .error) ∧
        s.node.tree.allWords = [⟨.identifier, "a"⟩, ⟨.customOperator, "&&"⟩, ⟨.bang, "!"⟩,
          ⟨.identifier, "b"⟩] ∧
        s.node.tree.normalizedText = "a&&!b" ∧
        lex s.node.tree.normalizedText =
          [⟨.identifier, "a"⟩, ⟨.customOperator, "&&!"⟩, ⟨.identifier, "b"⟩] := by
  intro source
  have hany : ((all (parse source).tree).any fun s => s.node.kind == .ifConfigCondition &&
      (s.node.tree.tokens.all (·.kind != .error) &&
      (s.node.tree.allWords == [⟨.identifier, "a"⟩, ⟨.customOperator, "&&"⟩, ⟨.bang, "!"⟩,
          ⟨.identifier, "b"⟩] &&
      (s.node.tree.normalizedText == "a&&!b" &&
        lex s.node.tree.normalizedText ==
          [⟨.identifier, "a"⟩, ⟨.customOperator, "&&!"⟩, ⟨.identifier, "b"⟩])))) = true := by
    decide +kernel
  exact ⟨by decide +kernel, by simpa using hany⟩

end Site

end SwiftOutline

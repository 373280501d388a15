import SwiftOutline.Proofs.Normalized
import SwiftOutline.Proofs.Retold

/-!
# SwiftOutline.Proofs.Evened

The words of normalized text are evenly spaced.

* `Lexeme.Inked` — lexemes that start with a character which is not blank, as words do;
* `Lexeme.withSpaces` — such lexemes with those of the spaces that normalized text has between them;
* `lexChars_spacedAfter` — normalized text whose words are the ones it was made of is cut up into
  these and nothing but spaces: its characters that are not blank are all used up by the words;
* `evenly_ofLexemesAfter` — so its words are joined to each other exactly where no space is needed.
-/

namespace SwiftOutline

namespace Lexeme

variable {l : Lexeme} {ls : List Lexeme}

/-! ## characters that are not blank -/

/-- How many characters of a text are not blank. -/
def inkOf (cs : List Char) : Nat := cs.countP (!isSpace ·)

theorem inkOf_append (cs ds : List Char) : inkOf (cs ++ ds) = inkOf cs + inkOf ds :=
  List.countP_append

theorem inkOf_charsOf_cons (l : Lexeme) (ls : List Lexeme) :
    inkOf (charsOf (l :: ls)) = inkOf l.text.toList + inkOf (charsOf ls) := inkOf_append _ _

theorem inkOf_charsOf_le {ls ls' : List Lexeme} (h : ls.Sublist ls') :
    inkOf (charsOf ls) ≤ inkOf (charsOf ls') := by
  induction h with
  | slnil => simp
  | cons l _ ih =>
    rw [inkOf_charsOf_cons]
    omega
  | cons_cons l _ ih =>
    rw [inkOf_charsOf_cons, inkOf_charsOf_cons]
    omega

/-- Normalized text adds nothing but blanks. -/
theorem inkOf_spacedAfter (before : Option Kind) (ls : List Lexeme) :
    inkOf (spacedAfter before ls).toList = inkOf (charsOf ls) := by
  induction ls generalizing before with
  | nil => simp [spacedAfter, charsOf]
  | cons l ls ih =>
    have hspace (needed : Bool) : inkOf (if needed then " " else "").toList = 0 := by
      cases needed <;> decide
    simp only [spacedAfter, String.toList_append, inkOf_append, inkOf_charsOf_cons, ih, hspace]
    omega

/-- A lexeme that starts with a character which is not blank. -/
def Inked (l : Lexeme) : Prop := ∃ c front, l.text.toList = c :: front ∧ isSpace c = false

theorem CutOff.inked {rest : List Char} (h : l.CutOff rest) (hl : l.isTrivia = false) :
    l.Inked := by
  obtain ⟨c, front, htext, hscan⟩ := h
  exact ⟨c, front, htext, CutOff.isSpace_eq_false hl hscan⟩

theorem Scanned.inked (h : Scanned ls) (hls : ∀ l ∈ ls, l.isTrivia = false) :
    ∀ l ∈ ls, l.Inked := by
  induction h with
  | nil => simp
  | cons hl _ _ ih =>
    obtain ⟨hfirst, hothers⟩ := List.forall_mem_cons.1 hls
    exact List.forall_mem_cons.2 ⟨hl.inked hfirst, ih hothers⟩

/-! ## spaces -/

/-- Lexemes with a space where it is needed, after a lexeme of some kind. -/
def withSpaces (before : Option Kind) : List Lexeme → List Lexeme
  | [] => []
  | l :: ls =>
    (if before.any (·.needsSpace l.kind) then [⟨.whitespace, " "⟩] else []) ++
      l :: withSpaces (some l.kind) ls

/-- The first lexeme of a text starts with the first character, and the others are cut off what is
left behind it. -/
theorem exists_lexChars_cons {c : Char} (hc : isSpace c = false) (tail : List Char) :
    ∃ m ds, lexChars (c :: tail) = m :: lexChars ds ∧ m.text.toList ++ ds = c :: tail ∧
      0 < inkOf m.text.toList := by
  refine ⟨_, _, lexChars_cons c tail, ?_, ?_⟩
  · simp
  · simp [inkOf, hc]

/-- Where the first word of a text is the one that the text starts with, it is cut off there: trivia
in front of it would be of characters that are not blank, of which none are left. -/
theorem lexChars_word {cs : List Char} (hl : l.Inked) (hcs : inkOf cs = inkOf (charsOf ls))
    (h : (lexChars (l.text.toList ++ cs)).filter (!·.isTrivia) = l :: ls) :
    lexChars (l.text.toList ++ cs) = l :: lexChars cs := by
  obtain ⟨c, front, htext, hc⟩ := hl
  obtain ⟨m, ds, hlex, happend, hink⟩ := exists_lexChars_cons hc (front ++ cs)
  rw [← List.cons_append, ← htext] at hlex happend
  rw [hlex] at h ⊢
  cases hm : m.isTrivia with
  | true =>
    rw [List.filter_cons_of_neg (by simp [hm])] at h
    have hless : inkOf (charsOf (l :: ls)) ≤ inkOf ds := by
      rw [← charsOf_lexChars ds, ← h]
      exact inkOf_charsOf_le List.filter_sublist
    have hall := congrArg inkOf happend
    simp only [inkOf_append, inkOf_charsOf_cons] at hall hless
    omega
  | false =>
    rw [List.filter_cons_of_pos (by simp [hm])] at h
    obtain rfl := (List.cons.inj h).1
    rw [List.append_cancel_left happend]

/-- Normalized text whose words are those that it was made of is cut up into these with the spaces
between them. -/
theorem lexChars_spacedAfter (hls : ∀ l ∈ ls, l.Inked) (before : Option Kind)
    (h : (lexChars (spacedAfter before ls).toList).filter (!·.isTrivia) = ls) :
    lexChars (spacedAfter before ls).toList = withSpaces before ls := by
  induction ls generalizing before with
  | nil => exact lexChars_nil
  | cons l ls ih =>
    obtain ⟨hl, hls⟩ := List.forall_mem_cons.1 hls
    have hstart : ∀ c ∈ (l.text.toList ++ (spacedAfter (some l.kind) ls).toList).head?,
        isSpace c = false := by
      obtain ⟨c, front, htext, hc⟩ := hl
      simpa [htext] using hc
    have htext : (spacedAfter before (l :: ls)).toList =
        (if before.any (·.needsSpace l.kind) then " " else "").toList ++
          (l.text.toList ++ (spacedAfter (some l.kind) ls).toList) := by
      simp [spacedAfter]
    rw [htext, lexChars_space _ hstart] at h ⊢
    have hword : (lexChars (l.text.toList ++ (spacedAfter (some l.kind) ls).toList)).filter
        (!·.isTrivia) = l :: ls := by
      rw [← h, List.filter_append]
      split <;> simp [isTrivia, Kind.isTrivia]
    -- the first word is cut off alone, so that the others are the words of what is left
    have hcut := lexChars_word hl (inkOf_spacedAfter _ ls) hword
    rw [hcut] at hword ⊢
    have hmem : l ∈ (l :: lexChars (spacedAfter (some l.kind) ls).toList).filter (!·.isTrivia) := by
      rw [hword]
      exact List.mem_cons_self
    rw [List.filter_cons_of_pos (List.of_mem_filter hmem)] at hword
    rw [ih hls _ (List.cons.inj hword).2]
    rfl

/-! ## words -/

theorem getLast?_withSpaces (before : Option Kind) (ls : List Lexeme) :
    (withSpaces before ls).getLast? = ls.getLast? := by
  induction ls generalizing before with
  | nil => rfl
  | cons l ls ih =>
    rw [withSpaces, List.getLast?_append_of_ne_nil _ (List.cons_ne_nil _ _), List.getLast?_cons,
      List.getLast?_cons, ih]

end Lexeme

/-- The words of some lexemes with the spaces they need are evenly spaced. -/
theorem evenly_ofLexemesAfter {ls : List Lexeme} (hls : ∀ l ∈ ls, l.isTrivia = false) (v : Word) :
    (v :: Word.ofLexemesAfter true false (Lexeme.withSpaces (some v.kind) ls)).IsChain
      Word.Evenly := by
  induction ls generalizing v with
  | nil => simp [Lexeme.withSpaces, Word.ofLexemesAfter]
  | cons l ls ih =>
    obtain ⟨hl, hls⟩ := List.forall_mem_cons.1 hls
    let joined := !v.kind.needsSpace l.kind
    have hwords : Word.ofLexemesAfter true false (Lexeme.withSpaces (some v.kind) (l :: ls)) =
        ⟨l.kind, l.text, joined, false⟩ ::
          Word.ofLexemesAfter true false (Lexeme.withSpaces (some l.kind) ls) := by
      cases hspace : v.kind.needsSpace l.kind with
      | true =>
        have hblank : Lexeme.isTrivia ⟨.whitespace, " "⟩ = true := rfl
        have hline : Lexeme.hasNewline ⟨.whitespace, " "⟩ = false := by decide
        simp [Lexeme.withSpaces, hspace, Word.ofLexemesAfter, hl, joined, hblank, hline]
      | false => simp [Lexeme.withSpaces, hspace, Word.ofLexemesAfter, hl, joined]
    rw [hwords]
    exact .cons_cons rfl (ih hls ⟨l.kind, l.text, joined, false⟩)

/-- If normalized text keeps the words that it was made of, these are evenly spaced in it. -/
theorem evenly_of_kept {ls : List Lexeme} (hinked : ∀ l ∈ ls, l.Inked)
    (hls : ∀ l ∈ ls, l.isTrivia = false)
    (h : (Lexeme.lex (Lexeme.spaced ls)).filter (!·.isTrivia) = ls) :
    (Word.ofLexemes (Lexeme.lex (Lexeme.spaced ls))).IsChain Word.Evenly := by
  rw [Word.ofLexemes, Lexeme.lex, Lexeme.spaced, Lexeme.lexChars_spacedAfter hinked none h]
  cases ls with
  | nil => simp [Lexeme.withSpaces, Word.ofLexemesAfter]
  | cons l ls =>
    obtain ⟨hl, hls⟩ := List.forall_mem_cons.1 hls
    simp only [Lexeme.withSpaces, Option.any_none, Bool.false_eq_true, if_false, List.nil_append,
      Word.ofLexemesAfter, hl]
    exact evenly_ofLexemesAfter hls ⟨l.kind, l.text, false, false⟩

end SwiftOutline

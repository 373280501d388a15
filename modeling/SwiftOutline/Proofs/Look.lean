import SwiftOutline.Proofs.Cursor

/-!
# SwiftOutline.Proofs.Look

Looking ahead by index, and what the grammar may ask about the words that are left.

* `Cursor.nth?`, `nthKind?`, `nthText?`, `nthIsJoined`, `newlineBefore?` — the looks, `none`
  where an index or a slice leaves its range;
* `Placed.exists_split` — a word stands behind a gap of trivia, and the gap behind the word
  before it or at the start;
* `Word.getElem?_ofLexemes` — so a word is joined if its gap is empty, and on a new line if
  its gap holds a line break;
* `Looks`, `looks_ofLexemes` — no look fails, and each says what the list of words says.
-/

namespace SwiftOutline

/-! ## words and the gaps before them -/

namespace Word

/-- Trivia before a word parts it from what came before, and may hold a line break. -/
theorem ofLexemesAfter_gap (joined onNewLine : Bool) (gap ls : List Lexeme)
    (h : ∀ l ∈ gap, l.isTrivia = true) :
    ofLexemesAfter joined onNewLine (gap ++ ls) =
      ofLexemesAfter (joined && gap.isEmpty) (onNewLine || gap.any Lexeme.hasNewline) ls := by
  induction gap generalizing joined onNewLine with
  | nil => simp
  | cons l gap ih =>
    have hl := h l List.mem_cons_self
    rw [List.cons_append, ofLexemesAfter, if_pos hl,
      ih _ _ fun m hm => h m (List.mem_cons_of_mem _ hm)]
    simp [Bool.or_assoc]

/-- After a word the next one starts afresh. -/
theorem ofLexemesAfter_word (joined onNewLine : Bool) (front : List Lexeme) (l : Lexeme)
    (ls : List Lexeme) (h : l.isTrivia = false) :
    ofLexemesAfter joined onNewLine (front ++ l :: ls) =
      ofLexemesAfter joined onNewLine (front ++ [l]) ++ ofLexemesAfter true false ls := by
  induction front generalizing joined onNewLine with
  | nil => simp [ofLexemesAfter, h]
  | cons m front ih =>
    by_cases hm : m.isTrivia = true
    · rw [List.cons_append, List.cons_append, ofLexemesAfter, ofLexemesAfter, if_pos hm,
        if_pos hm, ih]
    · rw [List.cons_append, List.cons_append, ofLexemesAfter, ofLexemesAfter, if_neg hm,
        if_neg hm, ih, List.cons_append]

end Word

namespace Placed

/-- A word stands behind a gap of trivia, and the gap behind the word before it or at the
start. -/
theorem exists_split {ps : List Placed} {k : Nat} {p : Placed} (h : (words ps)[k]? = some p) :
    ∃ front gap rest, ps = front ++ (gap ++ p :: rest) ∧
      (∀ q ∈ gap, q.lexeme.isTrivia = true) ∧ (words front).length = k ∧
      p.lexeme.isTrivia = false ∧
      (front = [] ∨ ∃ init last, front = init ++ [last] ∧ last.lexeme.isTrivia = false) := by
  induction ps generalizing k with
  | nil => simp [words] at h
  | cons q ps ih =>
    -- trivia belongs to the gap only if no word stands before the gap
    by_cases hq : q.lexeme.isTrivia = true
    · rw [words, List.filter_cons_of_neg (by simp [hq])] at h
      obtain ⟨front, gap, rest, rfl, hgap, hk, hp, hfront⟩ := ih h
      obtain rfl | ⟨init, last, rfl, hlast⟩ := hfront
      · refine ⟨[], q :: gap, rest, rfl, ?_, hk, hp, .inl rfl⟩
        intro r hr
        obtain rfl | hr := List.mem_cons.1 hr
        · exact hq
        · exact hgap r hr
      · refine ⟨q :: (init ++ [last]), gap, rest, rfl, hgap, ?_, hp, .inr ?_⟩
        · rw [← hk]
          simp [words, hq]
        · exact ⟨q :: init, last, rfl, hlast⟩
    · rw [words, List.filter_cons_of_pos (by simp [hq])] at h
      cases k with
      | zero =>
        obtain rfl : q = p := by simpa using h
        exact ⟨[], [], ps, rfl, by simp, rfl, by simpa using hq, .inl rfl⟩
      | succ k =>
        rw [List.getElem?_cons_succ] at h
        obtain ⟨front, gap, rest, rfl, hgap, hk, hp, hfront⟩ := ih h
        refine ⟨q :: front, gap, rest, rfl, hgap, ?_, hp, .inr ?_⟩
        · rw [← hk]
          simp [words, hq]
        · obtain rfl | ⟨init, last, rfl, hlast⟩ := hfront
          · exact ⟨[], q, rfl, by simpa using hq⟩
          · exact ⟨q :: init, last, rfl, hlast⟩

/-- The place of the next word among the words, by the words before it. -/
theorem getElem?_wordIndexes_append (front : List Placed) {gap : List Placed} {p : Placed}
    (rest : List Placed) (hgap : ∀ q ∈ gap, q.lexeme.isTrivia = true)
    (hp : p.lexeme.isTrivia = false) :
    (wordIndexes 0 (front ++ (gap ++ p :: rest)))[(words front).length]? =
      some (front.length + gap.length) := by
  rw [wordIndexes_append, wordIndexes_append, wordIndexes_of_trivia _ hgap, List.nil_append,
    ← length_wordIndexes 0 front, List.getElem?_append_right (Nat.le_refl _), Nat.sub_self,
    wordIndexes, hp]
  simp

end Placed

namespace Word

/-- A word says of itself and of the gap before it what the lexemes say. -/
theorem getElem?_ofLexemes {front gap : List Placed} {p : Placed} (rest : List Placed)
    (hgap : ∀ q ∈ gap, q.lexeme.isTrivia = true) (hp : p.lexeme.isTrivia = false)
    (hfront : front = [] ∨
      ∃ init last, front = init ++ [last] ∧ last.lexeme.isTrivia = false) :
    (ofLexemes ((front ++ (gap ++ p :: rest)).map (·.lexeme)))[(Placed.words front).length]? =
      some ⟨p.lexeme.kind, p.lexeme.text, !front.isEmpty && gap.isEmpty,
        gap.any (·.lexeme.hasNewline)⟩ := by
  have hgap' : ∀ l ∈ gap.map (·.lexeme), l.isTrivia = true := by simpa using hgap
  have hany : (gap.map (·.lexeme)).any Lexeme.hasNewline = gap.any (·.lexeme.hasNewline) := by
    rw [List.any_map]
    rfl
  obtain rfl | ⟨init, last, rfl, hlast⟩ := hfront
  · rw [List.nil_append, List.map_append, ofLexemes, ofLexemesAfter_gap _ _ _ _ hgap', hany]
    simp [ofLexemesAfter, hp, Placed.words]
  · have hlen : (ofLexemesAfter false false (init.map (·.lexeme) ++ [last.lexeme])).length =
        (Placed.words (init ++ [last])).length := by
      have hmap := map_lexeme_ofLexemesAfter false false ((init ++ [last]).map (·.lexeme))
      rw [← Placed.map_lexeme_words] at hmap
      simpa using congrArg List.length hmap
    rw [ofLexemes, List.map_append, List.map_append, List.map_append, List.map_singleton,
      List.append_assoc, List.singleton_append, ofLexemesAfter_word _ _ _ _ _ hlast, ← hlen,
      List.getElem?_append_right (Nat.le_refl _), Nat.sub_self,
      ofLexemesAfter_gap _ _ _ _ hgap', hany]
    simp [ofLexemesAfter, hp]

end Word

/-! ## looks -/

namespace Cursor

variable (source : String) (c : Cursor)

/-- The kind of the `n`th word ahead. -/
def nthKind? (n : Nat) : Option (Option Kind) :=
  match (significant source)[c.position + n]? with
  | none => some none
  | some i => ((lexemes source)[i]?).map fun p => some p.lexeme.kind

/-- The text of the `n`th word ahead, empty if there is none. -/
def nthText? (n : Nat) : Option String :=
  match (significant source)[c.position + n]? with
  | none => some ""
  | some i => ((lexemes source)[i]?).map fun p => (p.span.slice? source.toList).getD ""

/-- Whether the `n`th word ahead directly follows the word before it. -/
def nthIsJoined (n : Nat) : Bool :=
  match c.position + n with
  | 0 => false
  | k + 1 =>
    match (significant source)[k]?, (significant source)[k + 1]? with
    | some before, some i => before + 1 == i
    | _, _ => false

/-- Whether the text of a lexeme holds a line break; a span that is no part of the source
fails. -/
def anyNewline? (text : List Char) : List Placed → Option Bool
  | [] => some false
  | p :: ps =>
    match p.span.slice? text with
    | none => none
    | some s => if s.toList.contains '\n' then some true else anyNewline? text ps

/-- The index after the word that was passed last. -/
def gapStart? : Option Nat :=
  match c.position with
  | 0 => some 0
  | k + 1 => ((significant source)[k]?).map (· + 1)

/-- Whether a line break stands between the next word and the one before it. The lexemes
between the two are cut out by index. -/
def newlineBefore? : Option Bool :=
  let stop := ((significant source)[c.position]?).getD (lexemes source).length
  (gapStart? source c).bind fun start =>
    if start ≤ stop ∧ stop ≤ (lexemes source).length then
      anyNewline? source.toList (((lexemes source).take stop).drop start)
    else none

/-- The words of a source that a cursor has yet to pass. -/
def left : List Word := (Word.ofLexemes (Lexeme.lex source)).drop c.position

/-- What a cursor sees: every look succeeds, and says what the words that are left say. Only
for a word is it asked whether a line break stands before it. -/
structure Looks : Prop where
  kind : ∀ n, nthKind? source c n = some (Grammar.kind? ((left source c).drop n))
  text : ∀ n, nthText? source c n = some ((((left source c).drop n).head?.map (·.text)).getD "")
  joined : ∀ n, nthIsJoined source c n = Grammar.isJoined ((left source c).drop n)
  newline : ∃ b, newlineBefore? source c = some b ∧
    ∀ w ∈ (left source c).head?, b = w.onNewLine

variable {source}

theorem map_lexeme_lexemes (source : String) :
    (lexemes source).map (·.lexeme) = Lexeme.lex source := Placed.map_lexeme_ofLexemes ..

theorem length_ofLexemes_lex (source : String) :
    (Word.ofLexemes (Lexeme.lex source)).length = (significant source).length := by
  have hmap := Word.map_lexeme_ofLexemesAfter false false (Lexeme.lex source)
  rw [← map_lexeme_lexemes, ← Placed.map_lexeme_words] at hmap
  rw [length_significant, ← map_lexeme_lexemes, Word.ofLexemes]
  simpa using congrArg List.length hmap

/-- A word of a source by its number: its place among the lexemes and the gap before it. -/
theorem exists_word {k i : Nat} (h : (significant source)[k]? = some i) :
    ∃ front gap p rest, lexemes source = front ++ (gap ++ p :: rest) ∧
      (∀ q ∈ gap, q.lexeme.isTrivia = true) ∧ (Placed.words front).length = k ∧
      i = front.length + gap.length ∧
      (front = [] ∨ ∃ init last, front = init ++ [last] ∧ last.lexeme.isTrivia = false) ∧
      (Word.ofLexemes (Lexeme.lex source))[k]? =
        some ⟨p.lexeme.kind, p.lexeme.text, !front.isEmpty && gap.isEmpty,
          gap.any (·.lexeme.hasNewline)⟩ := by
  obtain ⟨p, -, hw⟩ := getElem?_lexemes_of_significant h
  obtain ⟨front, gap, rest, hsplit, hgap, hk, hp, hfront⟩ := Placed.exists_split hw
  refine ⟨front, gap, p, rest, hsplit, hgap, hk, ?_, hfront, ?_⟩
  · have hi := Placed.getElem?_wordIndexes_append front rest hgap hp
    rw [← hsplit, hk, ← significant, h] at hi
    exact Option.some.inj hi
  · have hword := Word.getElem?_ofLexemes rest hgap hp hfront
    rwa [← hsplit, map_lexeme_lexemes, hk] at hword

theorem getElem?_lexemes_append {front gap rest : List Placed} {p : Placed}
    (h : lexemes source = front ++ (gap ++ p :: rest)) :
    (lexemes source)[front.length + gap.length]? = some p := by
  rw [h, List.getElem?_append_right (Nat.le_add_right _ _), Nat.add_sub_cancel_left,
    List.getElem?_append_right (Nat.le_refl _), Nat.sub_self]
  rfl

/-- A word that a run of lexemes ends with stands right before what follows the run. -/
theorem getElem?_significant_append {init rest : List Placed} {last : Placed}
    (h : lexemes source = (init ++ [last]) ++ rest) (hlast : last.lexeme.isTrivia = false) :
    (significant source)[(Placed.words init).length]? = some init.length := by
  have hnone : ∀ q ∈ ([] : List Placed), q.lexeme.isTrivia = true := by simp
  have hbefore := Placed.getElem?_wordIndexes_append init rest hnone hlast
  simpa [significant, h] using hbefore

theorem slice?_of_mem_lexemes {p : Placed} (h : p ∈ lexemes source) :
    p.span.slice? source.toList = some p.lexeme.text := Placed.slice?_of_mem_lex h

/-- Asking lexemes of a source for a line break never fails. -/
theorem anyNewline?_eq {ps : List Placed} (h : ∀ p ∈ ps, p ∈ lexemes source) :
    anyNewline? source.toList ps = some (ps.any (·.lexeme.hasNewline)) := by
  induction ps with
  | nil => rfl
  | cons p ps ih =>
    have hp := slice?_of_mem_lexemes (h p List.mem_cons_self)
    have hps := ih fun q hq => h q (List.mem_cons_of_mem _ hq)
    simp only [anyNewline?, hp]
    by_cases hn : p.lexeme.text.toList.contains '\n' = true
    · rw [if_pos hn, List.any_cons, Lexeme.hasNewline, hn]
      rfl
    · rw [if_neg hn, hps, List.any_cons, Lexeme.hasNewline, Bool.eq_false_iff.2 hn]
      rfl

theorem getElem?_ofLexemes_eq_none {k : Nat} (h : (significant source)[k]? = none) :
    (Word.ofLexemes (Lexeme.lex source))[k]? = none := by
  rw [List.getElem?_eq_none_iff] at h ⊢
  rwa [length_ofLexemes_lex]

theorem head?_drop_left (c : Cursor) (n : Nat) :
    ((left source c).drop n).head? = (Word.ofLexemes (Lexeme.lex source))[c.position + n]? := by
  rw [left, List.drop_drop, List.head?_drop]

/-- The kind of a word ahead is found, and is the kind of the word on the list. -/
theorem nthKind?_eq (c : Cursor) (n : Nat) :
    nthKind? source c n = some (Grammar.kind? ((left source c).drop n)) := by
  rw [nthKind?, Grammar.kind?, head?_drop_left]
  cases hk : (significant source)[c.position + n]? with
  | none => simp [getElem?_ofLexemes_eq_none hk]
  | some i =>
    obtain ⟨front, gap, p, rest, hsplit, -, -, rfl, -, hword⟩ := exists_word hk
    simp [getElem?_lexemes_append hsplit, hword]

/-- The text of a word ahead is found, and is the text of the word on the list. -/
theorem nthText?_eq (c : Cursor) (n : Nat) :
    nthText? source c n =
      some ((((left source c).drop n).head?.map (·.text)).getD "") := by
  rw [nthText?, head?_drop_left]
  cases hk : (significant source)[c.position + n]? with
  | none => simp [getElem?_ofLexemes_eq_none hk]
  | some i =>
    obtain ⟨front, gap, p, rest, hsplit, -, -, rfl, -, hword⟩ := exists_word hk
    have hp : p ∈ lexemes source := by simp [hsplit]
    simp [getElem?_lexemes_append hsplit, hword, slice?_of_mem_lexemes hp]

/-- A word is joined to the one before it if its index is the next one. -/
theorem nthIsJoined_eq (c : Cursor) (n : Nat) :
    nthIsJoined source c n = Grammar.isJoined ((left source c).drop n) := by
  rw [nthIsJoined, Grammar.isJoined, head?_drop_left]
  cases hn : c.position + n with
  | zero =>
    cases hk : (significant source)[0]? with
    | none => simp [getElem?_ofLexemes_eq_none hk]
    | some i =>
      obtain ⟨front, gap, p, rest, hsplit, -, hlen, -, hfront, hword⟩ := exists_word hk
      obtain rfl : front = [] := by
        obtain rfl | ⟨init, last, rfl, hlast⟩ := hfront
        · rfl
        · simp [Placed.words, hlast] at hlen
      simp [hword]
  | succ k =>
    cases hk : (significant source)[k + 1]? with
    | none =>
      simp only [hk, getElem?_ofLexemes_eq_none hk]
      cases (significant source)[k]? <;> rfl
    | some i =>
      obtain ⟨front, gap, p, rest, hsplit, hgap, hlen, rfl, hfront, hword⟩ := exists_word hk
      obtain rfl | ⟨init, last, rfl, hlast⟩ := hfront
      · simp [Placed.words] at hlen
      · have hbefore : (significant source)[k]? = some init.length := by
          have hk' : (Placed.words init).length = k := by
            simpa [Placed.words, hlast] using hlen
          rw [← hk']
          exact getElem?_significant_append hsplit hlast
        simp only [hbefore, hk, hword, Option.any_some, List.length_append, List.length_singleton]
        cases gap with
        | nil => simp
        | cons q gap => simp

theorem gapStart?_le {c : Cursor} (h : c.position ≤ (significant source).length) :
    ∃ start, gapStart? source c = some start ∧ start ≤ (lexemes source).length := by
  cases hc : c.position with
  | zero => exact ⟨0, by simp only [gapStart?, hc], Nat.zero_le _⟩
  | succ k =>
    have hlt : k < (significant source).length := by omega
    obtain ⟨p, hp, -⟩ := getElem?_lexemes_of_significant (List.getElem?_eq_getElem hlt)
    obtain ⟨hi, -⟩ := List.getElem?_eq_some_iff.1 hp
    exact ⟨_, by simp only [gapStart?, hc, List.getElem?_eq_getElem hlt, Option.map_some], hi⟩

/-- A cursor that stands at a word, or behind the last one, looks for line breaks within the
lexemes; they are those of the gap before the word. -/
theorem newlineBefore?_eq {c : Cursor} (h : c.position ≤ (significant source).length) :
    ∃ b, newlineBefore? source c = some b ∧ ∀ w ∈ (left source c).head?, b = w.onNewLine := by
  have hhead := @head?_drop_left source c 0
  rw [List.drop_zero, Nat.add_zero] at hhead
  cases hk : (significant source)[c.position]? with
  | none =>
    -- Behind the last word the lexemes up to the end are looked at, of which nothing is used.
    obtain ⟨start, hstart, hle⟩ := gapStart?_le h
    have hmem : ∀ p ∈ ((lexemes source).take (lexemes source).length).drop start,
        p ∈ lexemes source := fun p hp => List.mem_of_mem_take (List.mem_of_mem_drop hp)
    have hlook := anyNewline?_eq hmem
    refine ⟨_, Eq.trans ?_ hlook, ?_⟩
    · rw [newlineBefore?, hk, Option.getD_none, hstart, Option.bind_some,
        if_pos ⟨hle, Nat.le_refl _⟩]
    · rw [hhead, getElem?_ofLexemes_eq_none hk]
      simp
  | some i =>
    obtain ⟨front, gap, p, rest, hsplit, -, hlen, rfl, hfront, hword⟩ := exists_word hk
    have hstart : gapStart? source c = some front.length := by
      obtain rfl | ⟨init, last, rfl, hlast⟩ := hfront
      · rw [gapStart?, ← hlen]
        rfl
      · have hbefore := getElem?_significant_append hsplit hlast
        have hk' : c.position = (Placed.words init).length + 1 := by
          rw [← hlen]
          simp [Placed.words, hlast]
        simp [gapStart?, hk', hbefore]
    have hgap : ((lexemes source).take (front.length + gap.length)).drop front.length = gap := by
      rw [hsplit, List.take_length_add_append, List.drop_left, List.take_left]
    have hmem : ∀ q ∈ gap, q ∈ lexemes source := fun q hq => by simp [hsplit, hq]
    have hbounds : front.length ≤ front.length + gap.length ∧
        front.length + gap.length ≤ (lexemes source).length := by
      rw [hsplit]
      simp only [List.length_append, List.length_cons]
      omega
    have hlook := anyNewline?_eq hmem
    refine ⟨_, Eq.trans ?_ hlook, ?_⟩
    · rw [newlineBefore?, hk, Option.getD_some, hstart, Option.bind_some, if_pos hbounds, hgap]
    · rw [hhead, hword]
      rintro w ⟨⟩
      rfl

/-- No look fails, and each says what the words that are left say. -/
theorem looks_of_le {c : Cursor} (h : c.position ≤ (significant source).length) :
    Looks source c :=
  ⟨nthKind?_eq c, nthText?_eq c, nthIsJoined_eq c, newlineBefore?_eq h⟩

/-- A cursor that keeps the invariant stands at a word or behind the last one. -/
theorem At.position_le {c : Cursor} {front rest : List Placed} (h : At source c front rest) :
    c.position ≤ (significant source).length := by
  rw [length_significant, h.position_eq, h.lexemes_eq, Placed.words_append, List.length_append]
  omega

/-! ## looks along a run -/

/-- As many words are left to a cursor as there are in the lexemes left to it. -/
theorem At.length_left {c : Cursor} {front rest : List Placed} (h : At source c front rest) :
    (left source c).length = (Placed.words rest).length := by
  rw [left, List.length_drop, length_ofLexemes_lex, length_significant, h.position_eq,
    h.lexemes_eq, Placed.words_append, List.length_append, Nat.add_sub_cancel_left]

/-- Where some of the words that are left are sketched, drawing the sketch takes the cursor to
the words after them: a rule sees at its start, and after each part, the words that are left to
the cursor. -/
theorem playAll?_left (opening : Kind → List Sketch → Option Nat) {c : Cursor}
    {front rest : List Placed} (h : At source c front rest) {ss : List Sketch}
    {ws : List Word} (hw : Sketch.wordsOfAll ss ++ ws = left source c) :
    ∃ c' front' rest', playAll? source opening none ss c = some c' ∧
      At source c' front' rest' ∧ left source c' = ws := by
  obtain ⟨c', hplay, hdraws⟩ := playAll?_eq opening none ss h True.intro
  refine ⟨c', _, _, hplay, hdraws.at_end, ?_⟩
  have hlen := hdraws.at_end.length_left
  rw [Sketch.words_layAll, List.length_drop, ← h.length_left, ← hw, List.length_append,
    Nat.add_sub_cancel_left] at hlen
  have hpos : c'.position = c.position + (Sketch.wordsOfAll ss).length := by
    have htotal := congrArg List.length hw
    have hle := h.position_le
    have hle' := hdraws.at_end.position_le
    simp only [left, List.length_append, List.length_drop, length_ofLexemes_lex] at hlen htotal
    omega
  rw [left, hpos, ← List.drop_drop]
  rw [left] at hw
  rw [← hw, List.drop_left]

end Cursor

end SwiftOutline

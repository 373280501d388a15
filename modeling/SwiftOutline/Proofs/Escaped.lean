import SwiftOutline.Proofs.GoesOn

/-!
# SwiftOutline.Proofs.Escaped

Texts between quotes that were escaped.

* `escaped` — a text with a backslash before each of its backslashes and quotes;
* `longTextLength_escaped`, `textLength_escaped` — such a text is passed by the two ways in which
  the end of a text is looked for, whatever stands behind it: a backslash takes the character behind
  it along, and no quote stands alone;
* `lex_escaped` — so between triple quotes it is always one lexeme, and between quotes exactly if it
  is on one line and the quotes around it do not start triple ones.
-/

namespace SwiftOutline

namespace Lexeme

variable {c : Char} {cs rest : List Char}

/-- A character as it stands in an escaped text. -/
def escapedChar (c : Char) : List Char :=
  if c == '\\' || c == '\x22' then ['\\', c] else [c]

/-- A text with a backslash before each backslash and each quote. -/
def escaped (text : String) : String := String.ofList (text.toList.flatMap escapedChar)

theorem escapedChar_cases (c : Char) :
    (c ≠ '\n' ∧ escapedChar c = ['\\', c]) ∨ c ≠ '\\' ∧ c ≠ '\x22' ∧ escapedChar c = [c] := by
  by_cases hslash : c = '\\'
  · subst hslash
    exact .inl ⟨by decide, rfl⟩
  by_cases hquote : c = '\x22'
  · subst hquote
    exact .inl ⟨by decide, rfl⟩
  exact .inr ⟨hslash, hquote, by simp [escapedChar, hslash, hquote]⟩

/-- An escaped text starts with no quote. -/
theorem head?_flatMap_escapedChar (hcs : cs ≠ []) (rest : List Char) :
    ∀ r, cs.flatMap escapedChar ++ rest ≠ '\x22' :: r := by
  cases cs with
  | nil => exact absurd rfl hcs
  | cons c cs =>
    intro r h
    obtain ⟨-, hc⟩ | ⟨-, hquote, hc⟩ := escapedChar_cases c
    · simp [hc] at h
    · simp [hc, hquote] at h

/-! ## ends -/

theorem longTextLength_escaped (cs rest : List Char) :
    longTextLength (cs.flatMap escapedChar ++ rest) =
      (cs.flatMap escapedChar).length + longTextLength rest := by
  induction cs with
  | nil => simp
  | cons c cs ih =>
    rw [List.flatMap_cons, List.append_assoc, List.length_append]
    obtain ⟨-, hc⟩ | ⟨hslash, hquote, hc⟩ := escapedChar_cases c
    · simp only [hc, List.cons_append, List.nil_append, longTextLength, ih, List.length_cons,
        List.length_nil]
      omega
    · rw [hc, List.singleton_append, longTextLength_cons hslash fun _ h => absurd h hquote, ih,
        List.length_singleton]
      omega

/-- An escaped text on one line leaves open whether a quote closes it. -/
theorem textLength_escaped (hcs : '\n' ∉ cs) (rest : List Char) :
    textLength (cs.flatMap escapedChar ++ rest) =
      ((textLength rest).1, (cs.flatMap escapedChar).length + (textLength rest).2) := by
  induction cs with
  | nil => simp
  | cons c cs ih =>
    obtain ⟨hbreak, hcs⟩ : '\n' ≠ c ∧ '\n' ∉ cs := by simpa using hcs
    rw [List.flatMap_cons, List.append_assoc, List.length_append]
    obtain ⟨-, hc⟩ | ⟨hslash, hquote, hc⟩ := escapedChar_cases c
    · simp only [hc, List.cons_append, List.nil_append, textLength, beq_iff_eq, hbreak.symm,
        if_false, ih hcs, List.length_cons, List.length_nil, Prod.mk.injEq, true_and]
      omega
    · rw [hc, List.singleton_append, textLength_cons hslash hquote hbreak.symm, ih hcs,
        List.length_singleton]
      simp only [Prod.mk.injEq, true_and]
      omega

/-- On more lines it is broken off. -/
theorem textLength_escaped_broken (hcs : '\n' ∈ cs) (rest : List Char) :
    (textLength (cs.flatMap escapedChar ++ rest)).1 = false := by
  induction cs with
  | nil => cases hcs
  | cons c cs ih =>
    rw [List.flatMap_cons, List.append_assoc]
    obtain ⟨hbreak, hc⟩ | ⟨hslash, hquote, hc⟩ := escapedChar_cases c
    · have hmem : '\n' ∈ cs := List.mem_of_ne_of_mem hbreak.symm hcs
      simp only [hc, List.cons_append, List.nil_append, textLength, beq_iff_eq, hbreak, if_false,
        ih hmem]
    · rw [hc, List.singleton_append]
      by_cases hbreak : c = '\n'
      · simp [textLength, hbreak]
      · rw [textLength_cons hslash hquote hbreak]
        exact ih (List.mem_of_ne_of_mem (Ne.symm hbreak) hcs)

/-! ## lexemes -/

theorem lexChars_longText (cs rest : List Char) :
    lexChars ('\x22' :: '\x22' :: '\x22' ::
        (cs.flatMap escapedChar ++ ['\x22', '\x22', '\x22'] ++ rest)) =
      ⟨.string, String.ofList ('\x22' :: '\x22' :: '\x22' ::
        (cs.flatMap escapedChar ++ ['\x22', '\x22', '\x22']))⟩ :: lexChars rest := by
  have hlength : longTextLength (cs.flatMap escapedChar ++ ['\x22', '\x22', '\x22'] ++ rest) =
      (cs.flatMap escapedChar ++ ['\x22', '\x22', '\x22']).length := by
    rw [List.append_assoc, longTextLength_escaped, List.length_append]
    rfl
  refine lexChars_lexeme ('\x22' :: '\x22' ::
    (cs.flatMap escapedChar ++ ['\x22', '\x22', '\x22'])) ?_
  show (Kind.string, longTextLength (cs.flatMap escapedChar ++ _ ++ rest) + 2) = _
  rw [hlength]
  rfl

/-- Between quotes two more of them follow the first only if there is nothing between them. -/
theorem escaped_ne_quotes (h : cs ≠ [] ∨ rest.head? ≠ some '\x22') (r : List Char) :
    cs.flatMap escapedChar ++ ['\x22'] ++ rest ≠ '\x22' :: '\x22' :: r := by
  rw [List.append_assoc]
  by_cases hcs : cs = []
  · subst hcs
    intro hquotes
    have hrest : rest = '\x22' :: r := (List.cons.inj hquotes).2
    simp [hrest] at h
  · exact head?_flatMap_escapedChar hcs _ _

theorem lexChars_text_iff (cs rest : List Char) :
    lexChars ('\x22' :: (cs.flatMap escapedChar ++ ['\x22'] ++ rest)) =
        ⟨.string, String.ofList ('\x22' :: (cs.flatMap escapedChar ++ ['\x22']))⟩ ::
          lexChars rest ↔
      '\n' ∉ cs ∧ (cs ≠ [] ∨ rest.head? ≠ some '\x22') := by
  by_cases hopen : cs ≠ [] ∨ rest.head? ≠ some '\x22'
  · have hscan : scan '\x22' (cs.flatMap escapedChar ++ ['\x22'] ++ rest) = _ :=
      scanText_eq_textLength (escaped_ne_quotes hopen)
    rw [List.append_assoc] at hscan
    by_cases hbreak : '\n' ∈ cs
    · refine iff_of_false (fun hlex => ?_) fun h => h.1 hbreak
      rw [List.append_assoc, lexChars_cons, hscan, textLength_escaped_broken hbreak] at hlex
      cases congrArg Lexeme.kind (List.cons.inj hlex).1
    · refine iff_of_true (lexChars_lexeme (cs.flatMap escapedChar ++ ['\x22']) ?_) ⟨hbreak, hopen⟩
      rw [List.append_assoc, hscan, textLength_escaped hbreak, List.length_append]
      rfl
  · -- three quotes start a longer text
    obtain ⟨rfl, r, rfl⟩ : cs = [] ∧ ∃ r, rest = '\x22' :: r := by
      simp only [not_or, not_not, List.head?_eq_some_iff] at hopen
      exact hopen
    refine iff_of_false (fun hlex => ?_) fun h => hopen h.2
    have hscan : scan '\x22' ('\x22' :: '\x22' :: r) = (.string, longTextLength r + 2) := rfl
    have hlex : lexChars ('\x22' :: '\x22' :: '\x22' :: r) =
      ⟨.string, String.ofList ['\x22', '\x22']⟩ :: lexChars ('\x22' :: r) := hlex
    rw [lexChars_cons, hscan] at hlex
    have hlength := congrArg (List.length ·.text.toList) (List.cons.inj hlex).1
    simp at hlength

example : lex "\x22\x22\x22\x22" = [⟨.string, "\x22\x22\x22\x22"⟩] := by decide +kernel

/-- An escaped text between triple quotes is always a lexeme of its own, whatever stands behind it.
Between quotes it is one exactly if it is on one line, and there is something between the quotes or
no third one behind them. -/
theorem lex_escaped (text rest : String) :
    lex ("\x22\x22\x22" ++ escaped text ++ "\x22\x22\x22" ++ rest) =
        ⟨.string, "\x22\x22\x22" ++ escaped text ++ "\x22\x22\x22"⟩ :: lex rest ∧
      (lex ("\x22" ++ escaped text ++ "\x22" ++ rest) =
          ⟨.string, "\x22" ++ escaped text ++ "\x22"⟩ :: lex rest ↔
        '\n' ∉ text.toList ∧ (text ≠ "" ∨ rest.toList.head? ≠ some '\x22')) := by
  have hchars : (escaped text).toList = text.toList.flatMap escapedChar := String.toList_ofList
  constructor
  · have hquoted : ("\x22\x22\x22" ++ escaped text ++ "\x22\x22\x22").toList =
        '\x22' :: '\x22' :: '\x22' ::
          (text.toList.flatMap escapedChar ++ ['\x22', '\x22', '\x22']) := by
      rw [String.toList_append, String.toList_append, hchars]
      rfl
    have hlex := lexChars_longText text.toList rest.toList
    rwa [← List.cons_append, ← List.cons_append, ← List.cons_append, ← hquoted,
      ← String.toList_append, String.ofList_toList] at hlex
  · have hquoted : ("\x22" ++ escaped text ++ "\x22").toList =
        '\x22' :: (text.toList.flatMap escapedChar ++ ['\x22']) := by
      rw [String.toList_append, String.toList_append, hchars]
      rfl
    have hlex := lexChars_text_iff text.toList rest.toList
    rwa [← List.cons_append, ← hquoted, ← String.toList_append, String.ofList_toList, ne_eq,
      String.toList_eq_nil_iff] at hlex

end Lexeme

end SwiftOutline

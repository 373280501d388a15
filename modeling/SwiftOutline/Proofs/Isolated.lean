import SwiftOutline.Proofs.Normalized

/-!
# SwiftOutline.Proofs.Isolated

A lexeme is the only one of its own text: what stood behind it in a source ended it, but did not
make it what it is.

* `scan_alone` — what is scanned in front of other characters is scanned the same without them. Most
  families are cut the same in front of whatever they do not go on with (as in `scan_append_iff`),
  and at the end of a text there is nothing to go on with; trivia and errors, which take what is
  there, are added here;
* `CutOff.lexChars_text` — so the text of a lexeme is cut up into that lexeme;
* `lex_slice` — the same of what the span of a lexeme cuts out of its source.
-/

namespace SwiftOutline

namespace Lexeme

variable {c : Char} {k : Kind} {l : Lexeme} {ls : List Lexeme} {front rest : List Char}

theorem separated_nil : Separated [] := by simp [Separated]

theorem not_goesOn_nil : ¬GoesOn front [] := by
  have hwords : ∀ word ∈ directives, word.1 ≠ [] := by decide
  intro h
  cases h with
  | directive hword hds => exact hwords _ hword (List.prefix_nil.1 hds)

theorem countWhile_alone {p : Char → Bool} (h : countWhile p (front ++ rest) = front.length) :
    countWhile p front = front.length := by
  have hall := (countWhile_append_eq_iff.1 h).1
  have halone := countWhile_append_eq_iff.2 ⟨hall, fun d (hd : d ∈ [].head?) => nomatch hd⟩
  rwa [List.append_nil] at halone

/-! ## comments -/

theorem commentLength_alone {outer : Nat} (h : commentLength outer (front ++ rest) = front.length) :
    commentLength outer front = front.length := by
  fun_induction commentLength outer front with
  | case1 => rfl
  | case2 outer r ih =>
    simp only [List.cons_append, commentLength, List.length_cons] at h ⊢
    rw [ih (by omega)]
  | case3 r => simpa [commentLength] using h
  | case4 r outer ih =>
    simp only [List.cons_append, commentLength, List.length_cons] at h ⊢
    rw [ih (by omega)]
  | case5 outer c r hopen hclose ih =>
    cases r with
    | nil => rfl
    | cons d r =>
      rw [List.cons_append,
        commentLength.eq_5 _ _ _ (ne_mark_append hopen rest) (ne_mark_append hclose rest)] at h
      exact congrArg (· + 1) (ih (Nat.succ.inj h))

theorem scanSlash_alone (h : scanSlash (front ++ rest) = (k, front.length)) :
    scanSlash front = (k, front.length) := by
  cases front with
  | nil =>
    have hzero : (scanSlash rest).2 = 0 := congrArg Prod.snd h
    rw [← h]
    revert hzero
    unfold scanSlash
    split <;> simp
  | cons x r =>
    rw [List.cons_append] at h
    unfold scanSlash at h
    split at h
    · next _ hx =>
      obtain ⟨rfl, rfl⟩ := List.cons.inj hx
      obtain ⟨rfl, hlen⟩ := Prod.mk.inj h
      simp [scanSlash, countWhile_alone (Nat.succ.inj hlen)]
    · next _ hx =>
      obtain ⟨rfl, rfl⟩ := List.cons.inj hx
      obtain ⟨rfl, hlen⟩ := Prod.mk.inj h
      simp [scanSlash, commentLength_alone (Nat.succ.inj hlen)]
    · next _ hx =>
      obtain ⟨rfl, -⟩ := List.cons.inj hx
      obtain ⟨rfl, hlen⟩ := Prod.mk.inj h
      simp [scanSlash, ← hlen]
    · cases congrArg Prod.snd h

/-! ## texts and names -/

/-- The rest of a text that is broken off is broken off without what broke it off. -/
theorem textLength_alone (h : textLength (front ++ rest) = (false, front.length)) :
    textLength front = (false, front.length) := by
  fun_induction textLength front with
  | case1 => rfl
  | case2 =>
    -- a backslash that is taken takes a character along
    cases rest with
    | nil => simp [textLength] at h
    | cons d r => by_cases hd : d = '\n' <;> simp [textLength, hd] at h
  | case3 c r hc => simp [textLength, hc] at h
  | case4 c r hc closed n heq ih =>
    simp only [List.cons_append, textLength, hc, Bool.false_eq_true, if_false, Prod.mk.injEq,
      List.length_cons] at h
    rw [ih (Prod.ext h.1 (by omega))] at heq
    obtain ⟨rfl, rfl⟩ := Prod.mk.inj heq
    rfl
  | case5 c r _ _ hc =>
    obtain rfl : c = '\x22' := by simpa using hc
    simp [textLength] at h
  | case6 c r _ _ _ hc =>
    obtain rfl : c = '\n' := by simpa using hc
    simp [textLength] at h
  | case7 c r hone hmany hquote hbreak closed n heq ih =>
    have hc := ne_backslash hone hmany
    rw [List.cons_append, textLength_cons hc (by simpa using hquote) (by simpa using hbreak),
      List.length_cons, Prod.mk.injEq] at h
    rw [ih (Prod.ext h.1 (by omega))] at heq
    obtain ⟨rfl, rfl⟩ := Prod.mk.inj heq
    rfl

theorem scanText_alone (h : scanText (front ++ rest) = (k, front.length)) :
    scanText front = (k, front.length) := by
  by_cases hk : k = .string
  · subst hk
    have hstring := scanText_again h (fun _ => rfl) separated_nil
    rwa [List.append_nil] at hstring
  · -- a text that is an error does not start with two more quotes
    have hquotes (r : List Char) : front ++ rest ≠ '\x22' :: '\x22' :: r := by
      intro htext
      rw [htext] at h
      exact hk (congrArg Prod.fst h).symm
    have hquotes' (r : List Char) : front ≠ '\x22' :: '\x22' :: r := by
      rintro rfl
      exact hquotes (r ++ rest) rfl
    rw [scanText_eq_textLength hquotes] at h
    obtain ⟨hkind, hlen⟩ := Prod.mk.inj h
    have hbroken : (textLength (front ++ rest)).1 = false := by
      by_contra hclosed
      rw [if_pos (eq_true_of_ne_false hclosed)] at hkind
      exact hk hkind.symm
    rw [scanText_eq_textLength hquotes', textLength_alone (Prod.ext hbroken hlen), ← hkind,
      hbroken]

theorem scanEscapedName_alone (h : scanEscapedName (front ++ rest) = (k, front.length)) :
    scanEscapedName front = (k, front.length) := by
  by_cases hk : k = .error
  · subst hk
    unfold scanEscapedName at h
    dsimp only at h
    split at h
    · cases h
    · have hlen := countWhile_alone (congrArg Prod.snd h)
      rw [scanEscapedName_of_le (Nat.le_of_eq hlen.symm), hlen]
  · have hname := scanEscapedName_again h hk []
    rwa [List.append_nil] at hname

theorem scanDollarName_alone (h : scanDollarName (front ++ rest) = (k, front.length)) :
    scanDollarName front = (k, front.length) := by
  by_cases hk : k = .error
  · subst hk
    unfold scanDollarName at h
    dsimp only at h
    split at h
    · have hnil : front = [] := List.length_eq_zero_iff.1 (congrArg Prod.snd h).symm
      rw [hnil]
      rfl
    · cases h
  · have hname := scanDollarName_again h hk separated_nil
    rwa [List.append_nil] at hname

/-! ## lexemes -/

/-- What is scanned in front of other characters is scanned the same without them. -/
theorem scan_alone (h : scan c (front ++ rest) = (k, front.length)) :
    scan c front = (k, front.length) := by
  -- where no characters are left, no lexeme of any family goes on
  cases family c with
  | space _ hscan =>
    rw [hscan] at h ⊢
    rw [countWhile_alone (congrArg Prod.snd h)]
    exact congrArg (·, front.length) (congrArg Prod.fst h)
  | word _ hscan =>
    rw [hscan] at h ⊢
    have hword := scanWord_again h separated_nil
    rwa [List.append_nil] at hword
  | number hc hscan =>
    rw [hscan] at h ⊢
    have hnumber := (scanNumber_append_iff h hc separated_nil).2 not_goesOn_nil
    rwa [List.append_nil] at hnumber
  | operator hc hscan =>
    rw [hscan] at h ⊢
    have hop := (scanOperator_append_iff h hc).2 not_goesOn_nil
    rwa [List.append_nil] at hop
  | slash _ hscan =>
    rw [hscan] at h ⊢
    exact scanSlash_alone h
  | text _ hscan =>
    rw [hscan] at h ⊢
    exact scanText_alone h
  | escapedName _ hscan =>
    rw [hscan] at h ⊢
    exact scanEscapedName_alone h
  | dollarName _ hscan =>
    rw [hscan] at h ⊢
    exact scanDollarName_alone h
  | dot _ hscan =>
    rw [hscan] at h ⊢
    have hdot := (scanDot_append_iff h).2 not_goesOn_nil
    rwa [List.append_nil] at hdot
  | hash _ hscan =>
    rw [hscan] at h ⊢
    have hhash := (scanHash_append_iff h fun _ => separated_nil).2 not_goesOn_nil
    rwa [List.append_nil] at hhash
  | mark _ hscan | unknown hscan =>
    rw [hscan] at h ⊢
    exact h

/-- The text of a lexeme is cut up into that lexeme. -/
theorem CutOff.lexChars_text (h : l.CutOff rest) : lexChars l.text.toList = [l] := by
  obtain ⟨c, front, htext, hscan⟩ := h
  have halone : scan c (front ++ []) = (l.kind, front.length) := by
    rw [List.append_nil, scan_alone hscan]
  have hlex := lexChars_lexeme front halone
  rwa [List.append_nil, lexChars_nil, ← htext, String.ofList_toList] at hlex

theorem Scanned.cutOff (h : Scanned ls) : ∀ l ∈ ls, ∃ rest, l.CutOff rest := by
  induction h with
  | nil => simp
  | cons hl _ _ ih => exact List.forall_mem_cons.2 ⟨⟨_, hl⟩, ih⟩

theorem lex_text_of_mem {source : String} (hl : l ∈ lex source) : lex l.text = [l] := by
  obtain ⟨rest, hcut⟩ := (scanned_lexChars source.toList).cutOff l hl
  exact hcut.lexChars_text

/-- What the span of a lexeme cuts out of its source is cut up into one lexeme, of the same kind,
that covers it: lexemes with one text are of one kind, whatever sources they stand in. -/
theorem lex_slice {source : String} {p : Placed} (hp : p ∈ Placed.ofLexemes 0 (lex source)) :
    (∃ slice, p.span.slice? source.toList = some slice ∧
      Placed.ofLexemes 0 (lex slice) = [⟨⟨p.lexeme.kind, slice⟩, ⟨0, slice.utf8ByteSize⟩⟩]) ∧
      ∀ other, ∀ l ∈ lex other, l.text = p.lexeme.text → l.kind = p.lexeme.kind := by
  have hmem : p.lexeme ∈ lex source := by
    rw [← Placed.map_lexeme_ofLexemes 0 (lex source)]
    exact List.mem_map_of_mem hp
  have halone := lex_text_of_mem hmem
  constructor
  · refine ⟨p.lexeme.text, Placed.slice?_of_mem_lex hp, ?_⟩
    rw [halone]
    simp [Placed.ofLexemes, size]
  · intro other l hl htext
    have hother := lex_text_of_mem hl
    rw [htext, halone] at hother
    exact congrArg Lexeme.kind (List.cons.inj hother).1.symm

/-- A text that only a backslash without a partner follows is an error, and alone it is one too. -/
theorem lex_slice_broken :
    let source := "--> \x22é\\\x22\\"
    ⟨⟨.error, "\x22é\\\x22"⟩, ⟨4, 9⟩⟩ ∈ Placed.ofLexemes 0 (lex source) ∧
      (∃ slice, (Span.mk 4 9).slice? source.toList = some slice ∧
        Placed.ofLexemes 0 (lex slice) = [⟨⟨.error, slice⟩, ⟨0, slice.utf8ByteSize⟩⟩]) ∧
      ∀ other, ∀ l ∈ lex other, l.text = "\x22é\\\x22" → l.kind = .error := by
  intro source
  have hp : ⟨⟨.error, "\x22é\\\x22"⟩, ⟨4, 9⟩⟩ ∈ Placed.ofLexemes 0 (lex source) := by
    decide +kernel
  exact ⟨hp, lex_slice hp⟩

end Lexeme

end SwiftOutline

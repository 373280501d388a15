import Mathlib.Data.List.TakeWhile
import SwiftOutline.Lexeme.Lexer

/-!
# SwiftOutline.Proofs.Boundary

A closing brace is a boundary between lexemes: text behind it changes nothing before it.

* `EndsInBrace` — a text whose last character is a closing brace;
* `Family` — the ways in which a lexeme is scanned, by its first character;
* `scan_append` — a lexeme that does not reach the end of such a text is the same with more text
  behind it. Looks ahead do not pass the brace, since no class of characters holds it;
* `lexChars_append` — a text whose last lexeme is a closing brace is cut up apart from what
  follows.
-/

namespace SwiftOutline.Lexeme

/-- A text whose last character is a closing brace. -/
def EndsInBrace (cs : List Char) : Prop := cs.getLast? = some '\x7d'

namespace EndsInBrace

variable {c : Char} {cs : List Char}

theorem ne_nil (h : EndsInBrace cs) : cs ≠ [] := by
  rintro rfl
  cases h

/-- A text goes on behind any other character. -/
theorem tail (h : EndsInBrace (c :: cs)) (hc : c ≠ '\x7d') : EndsInBrace cs := by
  cases cs with
  | nil => exact absurd (Option.some.inj h) hc
  | cons d ds => simpa [EndsInBrace] using h

theorem drop (h : EndsInBrace cs) {n : Nat} (hn : n < cs.length) : EndsInBrace (cs.drop n) := by
  rw [EndsInBrace, List.getLast?_drop, if_neg (by omega)]
  exact h

end EndsInBrace

/-! ## runs of characters -/

theorem takeWhile_append_of_lt {p : Char → Bool} {cs : List Char} (ds : List Char)
    (h : countWhile p cs < cs.length) : (cs ++ ds).takeWhile p = cs.takeWhile p := by
  induction cs with
  | nil => cases h
  | cons c cs ih =>
    by_cases hc : p c = true
    · have hlt : countWhile p cs < cs.length := by
        simpa [countWhile, List.takeWhile_cons, hc] using h
      simp [hc, ih hlt]
    · simp [hc]

theorem countWhile_append {p : Char → Bool} {cs : List Char} (ds : List Char)
    (h : countWhile p cs < cs.length) : countWhile p (cs ++ ds) = countWhile p cs := by
  rw [countWhile, takeWhile_append_of_lt ds h, countWhile]

/-- A run of characters of a class ends before a brace. -/
theorem countWhile_lt {p : Char → Bool} {cs : List Char} (h : EndsInBrace cs)
    (hp : p '\x7d' = false) : countWhile p cs < cs.length := by
  have hle : countWhile p cs ≤ cs.length := (List.takeWhile_prefix p).length_le
  have hne : countWhile p cs ≠ cs.length := by
    intro heq
    have hall : ∀ c ∈ cs, p c = true := by
      rw [countWhile] at heq
      have htake : cs.takeWhile p = cs :=
        (List.takeWhile_prefix p).eq_of_length heq
      intro c hc
      rw [← htake] at hc
      exact List.mem_takeWhile_imp hc
    have hlast := hall _ (List.mem_of_getLast? h)
    rw [hp] at hlast
    cases hlast
  omega

variable {c : Char} {tail : List Char} (ds : List Char)

/-! ## words and numbers -/

theorem scanWord_append (h : EndsInBrace tail) : scanWord c (tail ++ ds) = scanWord c tail := by
  have hword : isWordChar '\x7d' = false := by decide
  rw [scanWord, takeWhile_append_of_lt ds (countWhile_lt h hword)]
  rfl

theorem exponentLength_append (h : EndsInBrace tail) :
    exponentLength (tail ++ ds) = exponentLength tail := by
  cases tail with
  | nil => exact absurd rfl h.ne_nil
  | cons e r =>
    by_cases he : (e == 'e' || e == 'E') = true
    · have hr : EndsInBrace r := h.tail (by rintro rfl; cases he)
      cases r with
      | nil => exact absurd rfl hr.ne_nil
      | cons s r =>
        -- A sign is no brace, so digits are looked for before the brace in any case.
        have hdigits (k : Nat) (hk : EndsInBrace ((s :: r).drop k)) :
            countWhile Char.isDigit ((s :: (r ++ ds)).drop k) =
              countWhile Char.isDigit ((s :: r).drop k) := by
          have hle : k ≤ (s :: r).length := by
            have := hk.ne_nil
            simp only [ne_eq, List.drop_eq_nil_iff] at this
            omega
          rw [← List.cons_append, List.drop_append_of_le_length hle]
          exact countWhile_append ds (countWhile_lt hk (by decide))
        simp only [List.cons_append, exponentLength, he, if_true]
        by_cases hs : (s == '+' || s == '-') = true
        · have hone := hr.tail (by rintro rfl; cases hs)
          simp only [hs, if_true]
          rw [hdigits 1 hone]
        · simp only [hs]
          rw [if_neg Bool.false_ne_true, hdigits 0 hr]
    · simp [exponentLength, he]

theorem scanDecimal_append (h : EndsInBrace tail) :
    scanDecimal (tail ++ ds) = scanDecimal tail := by
  have hlt := countWhile_lt h (p := isDecimal) (by decide)
  have hdrop := h.drop hlt
  rw [scanDecimal, scanDecimal, countWhile_append ds hlt,
    List.drop_append_of_le_length (Nat.le_of_lt hlt)]
  generalize tail.drop (countWhile isDecimal tail) = rest at hdrop
  cases rest with
  | nil => exact absurd rfl hdrop.ne_nil
  | cons x r =>
    by_cases hx : x = '.'
    · subst hx
      have hr := hdrop.tail (by decide)
      cases r with
      | nil => exact absurd rfl hr.ne_nil
      | cons d r =>
        simp only [List.cons_append]
        by_cases hd : d.isDigit = true
        · have hr' := hr.tail (by rintro rfl; cases hd)
          have hfraction := countWhile_lt hr' (p := isDecimal) (by decide)
          rw [if_pos hd, if_pos hd, countWhile_append ds hfraction,
            List.drop_append_of_le_length (Nat.le_of_lt hfraction),
            exponentLength_append ds (hr'.drop hfraction)]
        · rw [if_neg hd, if_neg hd]
    · simp [hx]

theorem scanRadix_append {digit : Char → Bool} {r : List Char} (hdigit : digit '\x7d' = false)
    (h : EndsInBrace tail) (hr : EndsInBrace r) :
    scanRadix digit (tail ++ ds) (r ++ ds) = scanRadix digit tail r := by
  rw [scanRadix, countWhile_append ds (countWhile_lt hr hdigit), scanDecimal_append ds h]
  rfl

theorem scanNumber_append (h : EndsInBrace tail) :
    scanNumber c (tail ++ ds) = scanNumber c tail := by
  cases tail with
  | nil => exact absurd rfl h.ne_nil
  | cons x r =>
    have hdecimal := scanDecimal_append ds h
    rw [List.cons_append] at hdecimal ⊢
    unfold scanNumber
    split
    · next _ hx =>
      obtain ⟨rfl, rfl⟩ := List.cons.inj hx
      exact scanRadix_append ds (by decide) h (h.tail (by decide))
    · next _ hx =>
      obtain ⟨rfl, rfl⟩ := List.cons.inj hx
      exact scanRadix_append ds (by decide) h (h.tail (by decide))
    · next _ hx =>
      obtain ⟨rfl, rfl⟩ := List.cons.inj hx
      exact scanRadix_append ds (by decide) h (h.tail (by decide))
    · next hx ho hb =>
      split
      · simp_all
      · simp_all
      · simp_all
      · exact hdecimal

/-! ## texts and comments -/

/-- A character that takes none along is no backslash. -/
theorem ne_backslash {r : List Char} (hone : c = '\\' → r = [] → False)
    (hmany : ∀ d q, c = '\\' → r = d :: q → False) : c ≠ '\\' := by
  rintro rfl
  cases r with
  | nil => exact hone rfl rfl
  | cons d q => exact hmany d q rfl rfl

theorem textLength_cons {r : List Char} (hslash : c ≠ '\\') (hquote : c ≠ '\x22')
    (hbreak : c ≠ '\n') : textLength (c :: r) = ((textLength r).1, (textLength r).2 + 1) := by
  simp [textLength, hslash, hquote, hbreak]

/-- A text on one line that ends before the brace is closed, or broken off, without what
follows. -/
theorem textLength_append (h : EndsInBrace tail) (hn : (textLength tail).2 < tail.length) :
    textLength (tail ++ ds) = textLength tail := by
  fun_induction textLength tail with
  | case1 => cases hn
  | case2 => cases h
  | case3 c r hc => simp [textLength, hc]
  | case4 c r hc closed n heq ih =>
    have hr : (textLength r).2 < r.length := by
      rw [heq]
      simpa using hn
    cases r with
    | nil => cases hr
    | cons d r =>
      -- the rest is not empty and ends in the brace too
      have hih := ih (by simpa [EndsInBrace] using h) hr
      rw [List.cons_append] at hih
      simp [textLength, hc, hih, heq]
  | case5 c r _ _ hc =>
    obtain rfl : c = '\x22' := by simpa using hc
    simp [textLength]
  | case6 c r _ _ _ hc =>
    obtain rfl : c = '\n' := by simpa using hc
    simp [textLength]
  | case7 c r hslash hslash' hquote hbreak closed n heq ih =>
    have hr : (textLength r).2 < r.length := by
      rw [heq]
      simpa using hn
    cases r with
    | nil => cases hr
    | cons d r =>
      have hih := ih (by simpa [EndsInBrace] using h) hr
      have hc : c ≠ '\\' := fun hc => hslash' d r hc rfl
      rw [List.cons_append] at hih
      simp [textLength, hquote, hbreak, hc, hih, heq]

theorem longTextLength_append (hn : longTextLength tail < tail.length) :
    longTextLength (tail ++ ds) = longTextLength tail := by
  fun_induction longTextLength tail with
  | case1 => cases hn
  | case2 => simp at hn
  | case3 c r ih => simp_all [longTextLength]
  | case4 r => simp [longTextLength]
  | case5 c r hslash hslash' hquotes ih =>
    have hih := ih (by simpa using hn)
    have hc := ne_backslash hslash hslash'
    rw [List.cons_append, longTextLength.eq_5, hih]
    · exact fun hc' => absurd hc' hc
    · exact fun _ _ hc' => absurd hc' hc
    · intro q hquote hq
      subst hquote
      cases r with
      | nil => simp [longTextLength] at hn
      | cons d r =>
        cases r with
        | nil =>
          obtain ⟨rfl, -⟩ := List.cons.inj hq
          simp [longTextLength] at hn
        | cons e r =>
          simp only [List.cons_append, List.cons.injEq] at hq
          obtain ⟨rfl, rfl, -⟩ := hq
          exact hquotes r rfl rfl

/-- Two characters that are not a mark stay none when more text follows them. -/
theorem ne_mark_append {c d x y : Char} {r : List Char}
    (h : ∀ q, c = x → d :: r = y :: q → False) (ds q : List Char) (hc : c = x)
    (hq : d :: r ++ ds = y :: q) : False := by
  obtain ⟨rfl, -⟩ := List.cons.inj hq
  exact h r hc rfl

theorem commentLength_append (outer : Nat) (hn : commentLength outer tail < tail.length) :
    commentLength outer (tail ++ ds) = commentLength outer tail := by
  fun_induction commentLength outer tail with
  | case1 => cases hn
  | case2 outer r ih =>
    simp only [List.cons_append, commentLength]
    rw [ih (by simpa using hn)]
  | case3 r => simp [commentLength]
  | case4 r outer ih =>
    simp only [List.cons_append, commentLength]
    rw [ih (by simpa using hn)]
  | case5 outer c r hopen hclose ih =>
    have hih := ih (by simpa using hn)
    cases r with
    | nil => simp [commentLength] at hn
    | cons d r =>
      rw [List.cons_append,
        commentLength.eq_5 _ _ _ (ne_mark_append hopen ds) (ne_mark_append hclose ds), hih]

theorem scanText_append (h : EndsInBrace tail) (hn : (scanText tail).2 < tail.length) :
    scanText (tail ++ ds) = scanText tail := by
  cases tail with
  | nil => cases hn
  | cons x r =>
    by_cases hx : x = '\x22'
    · subst hx
      have hr := h.tail (by decide)
      cases r with
      | nil => exact absurd rfl hr.ne_nil
      | cons y r =>
        by_cases hy : y = '\x22'
        · subst hy
          have hlong : longTextLength r < r.length := by simpa [scanText] using hn
          simp [scanText, longTextLength_append ds hlong]
        · have htext := textLength_append ds h (by simpa [scanText, hy] using hn)
          rw [List.cons_append, List.cons_append] at htext
          simp [scanText, hy, htext]
    · have htext := textLength_append ds h (by simpa [scanText, hx] using hn)
      rw [List.cons_append] at htext
      simp [scanText, hx, htext]

theorem scanSlash_append (hn : (scanSlash tail).2 < tail.length) :
    scanSlash (tail ++ ds) = scanSlash tail := by
  cases tail with
  | nil => cases hn
  | cons x r =>
    rw [List.cons_append]
    unfold scanSlash
    split
    · next _ hx =>
      obtain ⟨rfl, rfl⟩ := List.cons.inj hx
      have hline : countWhile (· != '\n') r < r.length := by simpa [scanSlash] using hn
      rw [countWhile_append ds hline]
      rfl
    · next _ hx =>
      obtain ⟨rfl, rfl⟩ := List.cons.inj hx
      have hblock : commentLength 0 r < r.length := by simpa [scanSlash] using hn
      rw [commentLength_append ds 0 hblock]
      rfl
    · next _ hx =>
      obtain ⟨rfl, rfl⟩ := List.cons.inj hx
      rfl
    · simp_all

/-! ## names and marks -/

theorem scanEscapedName_append (hn : (scanEscapedName tail).2 < tail.length) :
    scanEscapedName (tail ++ ds) = scanEscapedName tail := by
  have hlt : countWhile (fun c => c != '\x60' && c != '\n') tail < tail.length := by
    dsimp only [scanEscapedName] at hn
    split at hn <;> dsimp only at hn <;> omega
  have hhead (n : Nat) (h : n < tail.length) :
      ((tail ++ ds).drop n).head? = (tail.drop n).head? := by
    simp [List.head?_drop, List.getElem?_append_left h]
  simp only [scanEscapedName, countWhile_append ds hlt, hhead _ hlt]

theorem scanDollarName_append (h : EndsInBrace tail) :
    scanDollarName (tail ++ ds) = scanDollarName tail := by
  have hlt := countWhile_lt h (p := isWordChar) (by decide)
  rw [scanDollarName, countWhile_append ds hlt]
  rfl

theorem scanOperator_append (h : EndsInBrace tail) :
    scanOperator c (tail ++ ds) = scanOperator c tail := by
  have hlt := countWhile_lt h (p := isOperatorChar) (by decide)
  have hhead : (tail ++ ds).head? = tail.head? := by
    cases tail with
    | nil => exact absurd rfl h.ne_nil
    | cons x r => rfl
  simp only [scanOperator, countWhile_append ds hlt, hhead]

theorem scanDot_append (h : EndsInBrace tail) : scanDot (tail ++ ds) = scanDot tail := by
  cases tail with
  | nil => exact absurd rfl h.ne_nil
  | cons x r =>
    by_cases hx : x = '.'
    · subst hx
      have hr := h.tail (by decide)
      cases r with
      | nil => exact absurd rfl hr.ne_nil
      | cons y r =>
        by_cases hdot : y = '.'
        · simp [scanDot, hdot]
        · by_cases hangle : y = '<'
          · simp [scanDot, hangle]
          · simp [scanDot, hdot, hangle]
    · simp [scanDot, hx]

/-- A word without a brace stands at the front of a text or is broken off in it before its
brace. -/
theorem isPrefixOf_append {word : List Char} (hword : '\x7d' ∉ word) (h : EndsInBrace tail) :
    word.isPrefixOf (tail ++ ds) = word.isPrefixOf tail := by
  induction word generalizing tail with
  | nil => simp
  | cons x word ih =>
    cases tail with
    | nil => exact absurd rfl h.ne_nil
    | cons c r =>
      by_cases hc : x = c
      · subst hc
        obtain ⟨hx, hword⟩ : '\x7d' ≠ x ∧ '\x7d' ∉ word := by simpa using hword
        simpa [List.isPrefixOf] using ih hword (h.tail hx.symm)
      · have hne : (x == c) = false := by simpa using hc
        simp [List.isPrefixOf, hne]

theorem scanHash_append (h : EndsInBrace tail) : scanHash (tail ++ ds) = scanHash tail := by
  have hprefix (word : List Char) (hword : '\x7d' ∉ word) :=
    isPrefixOf_append ds hword h
  simp [scanHash, directives, List.find?_cons, hprefix]

/-! ## lexemes -/

/-- The families of lexemes, by the first character. -/
inductive Family (c : Char) : Prop
  | space (hc : isSpace c = true)
      (hscan : ∀ tail, scan c tail = (.whitespace, countWhile isSpace tail))
  | word (hc : (c == '_' || Unicode.isLetter c) = true)
      (hscan : ∀ tail, scan c tail = scanWord c tail)
  | number (hc : c.isDigit = true) (hscan : ∀ tail, scan c tail = scanNumber c tail)
  | operator (hc : isOperatorChar c = true) (hscan : ∀ tail, scan c tail = scanOperator c tail)
  | slash (hc : c = '/') (hscan : ∀ tail, scan c tail = scanSlash tail)
  | text (hc : c = '\x22') (hscan : ∀ tail, scan c tail = scanText tail)
  | escapedName (hc : c = '\x60') (hscan : ∀ tail, scan c tail = scanEscapedName tail)
  | dollarName (hc : c = '$') (hscan : ∀ tail, scan c tail = scanDollarName tail)
  | dot (hc : c = '.') (hscan : ∀ tail, scan c tail = scanDot tail)
  | hash (hc : c = '#') (hscan : ∀ tail, scan c tail = scanHash tail)
  | mark {k : Kind} (hc : marks.lookup c = some k) (hscan : ∀ tail, scan c tail = (k, 0))
  | unknown (hscan : ∀ tail, scan c tail = (.error, 0))

theorem family (c : Char) : Family c := by
  by_cases hspace : isSpace c = true
  · exact .space hspace fun tail => by
      unfold scan
      rw [if_pos hspace]
  by_cases hletter : (c == '_' || Unicode.isLetter c) = true
  · exact .word hletter fun tail => by
      unfold scan
      rw [if_neg hspace, if_pos hletter]
  by_cases hdigit : c.isDigit = true
  · exact .number hdigit fun tail => by
      unfold scan
      rw [if_neg hspace, if_neg hletter, if_pos hdigit]
  by_cases hop : isOperatorChar c = true
  · refine .operator hop fun tail => ?_
    unfold scan
    rw [if_neg hspace, if_neg hletter, if_neg hdigit, if_pos hop]
  -- what is left of `scan` matches on the character; `split` takes it from a hypothesis
  have hscan : ∀ tail, scan c tail = scan c tail := fun _ => rfl
  conv at hscan =>
    intro tail
    rhs
    unfold scan
    rw [if_neg hspace, if_neg hletter, if_neg hdigit, if_neg hop]
  split at hscan
  · exact .slash rfl hscan
  · exact .text rfl hscan
  · exact .escapedName rfl hscan
  · exact .dollarName rfl hscan
  · exact .dot rfl hscan
  · exact .hash rfl hscan
  · cases hmark : marks.lookup c with
    | none => exact .unknown fun tail => by rw [hscan, hmark]; rfl
    | some k => exact .mark hmark fun tail => by rw [hscan, hmark]; rfl

/-- A lexeme that ends before the last character, which is a brace, ends there whatever
follows the brace. -/
theorem scan_append (h : EndsInBrace tail) (hn : (scan c tail).2 < tail.length) :
    scan c (tail ++ ds) = scan c tail := by
  cases family c with
  | space _ hscan => rw [hscan, hscan, countWhile_append ds (countWhile_lt h (by decide))]
  | word _ hscan => rw [hscan, hscan, scanWord_append ds h]
  | number _ hscan => rw [hscan, hscan, scanNumber_append ds h]
  | operator _ hscan => rw [hscan, hscan, scanOperator_append ds h]
  | slash _ hscan =>
    rw [hscan] at hn
    rw [hscan, hscan, scanSlash_append ds hn]
  | text _ hscan =>
    rw [hscan] at hn
    rw [hscan, hscan, scanText_append ds h hn]
  | escapedName _ hscan =>
    rw [hscan] at hn
    rw [hscan, hscan, scanEscapedName_append ds hn]
  | dollarName _ hscan => rw [hscan, hscan, scanDollarName_append ds h]
  | dot _ hscan => rw [hscan, hscan, scanDot_append ds h]
  | hash _ hscan => rw [hscan, hscan, scanHash_append ds h]
  | mark _ hscan | unknown hscan => rw [hscan, hscan]

theorem scan_brace (cs : List Char) : scan '\x7d' cs = (.closeBrace, 0) := by
  have hletter : Unicode.isLetter '\x7d' = false := by decide
  have hmark : (marks.lookup '\x7d').getD .error = .closeBrace := rfl
  simp [scan, isSpace, isOperatorChar, hletter, Char.isDigit, hmark]

/-- A lexeme that takes the first characters of a text, and those of the rest. -/
theorem lexChars_lexeme {c : Char} {k : Kind} (front : List Char) {cs : List Char}
    (h : scan c (front ++ cs) = (k, front.length)) :
    lexChars (c :: (front ++ cs)) = ⟨k, String.ofList (c :: front)⟩ :: lexChars cs := by
  rw [lexChars_cons, h, List.take_left, List.drop_left]

theorem endsInBrace_of_lexChars {cs : List Char} (hcs : cs ≠ [])
    (h : ∀ l ∈ (lexChars cs).getLast?, l.text = "\x7d") : EndsInBrace cs := by
  have hflat := flatMap_lexChars cs
  rcases List.eq_nil_or_concat (lexChars cs) with hnil | ⟨ls, l, hls⟩
  · rw [hnil] at hflat
    exact absurd hflat.symm hcs
  · have hl := h l (by simp [hls])
    rw [hls] at hflat
    simp [EndsInBrace, ← hflat, hl]

/-- A text whose last lexeme is a closing brace is cut up apart from what follows. -/
theorem lexChars_append {cs : List Char}
    (h : ∀ l ∈ (lexChars cs).getLast?, l.text = "\x7d") (ds : List Char) :
    lexChars (cs ++ ds) = lexChars cs ++ lexChars ds := by
  fun_induction lexChars cs with
  | case1 => rfl
  | case2 c tail kind n heq ih =>
    rw [List.cons_append, lexChars_cons]
    obtain hlt | hge := Nat.lt_or_ge n tail.length
    · have hdrop : tail.drop n ≠ [] := by
        simpa [List.drop_eq_nil_iff] using hlt
      have hrest : ∀ l ∈ (lexChars (tail.drop n)).getLast?, l.text = "\x7d" := by
        intro l hl
        obtain ⟨ls, hls⟩ := List.getLast?_eq_some_iff.1 hl
        exact h l (by rw [hls, ← List.cons_append, List.getLast?_concat]; rfl)
      have hbrace := endsInBrace_of_lexChars hdrop hrest
      have htail : EndsInBrace tail := by
        rwa [EndsInBrace, List.getLast?_drop, if_neg (by omega)] at hbrace
      have hscan := scan_append (c := c) ds htail (by rw [heq]; exact hlt)
      rw [hscan, heq]
      simp only
      rw [List.take_append_of_le_length (Nat.le_of_lt hlt),
        List.drop_append_of_le_length (Nat.le_of_lt hlt), ih hrest, List.cons_append]
    · -- Nothing is left behind the lexeme, so it is the brace.
      have hnil : tail.drop n = [] := List.drop_eq_nil_of_le hge
      have htext := congrArg String.toList (h _ (by rw [hnil, lexChars_nil]; rfl))
      obtain ⟨rfl, htake⟩ : c = '\x7d' ∧ tail.take n = [] := by simpa using htext
      obtain rfl : tail = [] := by rw [← List.take_append_drop n tail, htake, hnil]; rfl
      rw [scan_brace] at heq
      obtain ⟨rfl, rfl⟩ := Prod.mk.inj heq
      simp [scan_brace]

end SwiftOutline.Lexeme

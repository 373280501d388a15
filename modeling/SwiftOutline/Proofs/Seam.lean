import SwiftOutline.Proofs.Boundary

/-!
# SwiftOutline.Proofs.Seam

Where a name or a closing mark ends a text and a mark or a space follows, the text is cut up apart
from what follows.

* `edges` — the characters that may follow; no word and no number goes on with one of them;
* `StopsBefore` — the kinds of lexemes that end before such a character, also at the end of a text;
* `scan_seam` — a lexeme is the same with an edge behind the text, if it ends before the end of the
  text or is of such a kind;
* `scan_le` — a lexeme takes no more than the text has;
* `lexChars_seam` — a text whose last lexeme is of such a kind is cut up apart from what an edge
  starts.
-/

namespace SwiftOutline.Lexeme

/-- Characters that separate lexemes, and marks that end a word of a type. -/
def edges : List Char :=
  [' ', '\t', '\n', '\r', '\x0c', ')', '<', '>', ']', ',', ':', '.', '?', '!']

/-- Lexemes of a kind end before a character, even if nothing else follows them. -/
def StopsBefore (d : Char) (k : Kind) : Prop :=
  k ∈ [.identifier, .kwSelfType, .kwClass, .kwProtocol, .closeParen, .closeBracket, .closeAngle,
    .colon] ∨ k ∈ [.question, .bang] ∧ isOperatorChar d = false

/-- Kinds of lexemes that may go on with a character behind them. -/
def openKinds : List Kind :=
  [.whitespace, .lineComment, .blockComment, .string, .integer, .float, .error, .customOperator,
    .dot, .ellipsis, .backslash]

theorem StopsBefore.not_mem {d : Char} {k : Kind} (h : StopsBefore d k) : k ∉ openKinds := by
  obtain h | ⟨h, -⟩ := h
  · revert k
    decide
  · revert k
    decide

/-- What is scanned of a text ends before the text does, and more than a backslash is left; or it
is of a kind that ends before a character. -/
def Settled (d : Char) (tail : List Char) (scanned : Kind × Nat) : Prop :=
  scanned.2 < tail.length ∧ tail.drop scanned.2 ≠ ['\\'] ∨ StopsBefore d scanned.1

theorem Settled.lt {d : Char} {tail : List Char} {scanned : Kind × Nat}
    (h : Settled d tail scanned) (hk : scanned.1 ∈ openKinds) : scanned.2 < tail.length := by
  obtain ⟨hn, -⟩ | hstop := h
  · exact hn
  · exact absurd hk hstop.not_mem

variable {c d : Char} {tail : List Char} (ds : List Char)

/-! ## runs of characters -/

theorem takeWhile_seam {p : Char → Bool} (hp : p d = false) (cs : List Char) :
    (cs ++ d :: ds).takeWhile p = cs.takeWhile p := by
  induction cs with
  | nil => simp [hp]
  | cons c cs ih =>
    by_cases hc : p c = true
    · simp [hc, ih]
    · simp [hc]

theorem countWhile_seam {p : Char → Bool} (hp : p d = false) (cs : List Char) :
    countWhile p (cs ++ d :: ds) = countWhile p cs := by
  rw [countWhile, takeWhile_seam ds hp, countWhile]

theorem countWhile_le_length (p : Char → Bool) (cs : List Char) :
    countWhile p cs ≤ cs.length := (List.takeWhile_prefix p).length_le

theorem scan_of_isSpace {c : Char} (hc : isSpace c = true) (cs : List Char) :
    scan c cs = (.whitespace, countWhile isSpace cs) := by
  unfold scan
  rw [if_pos hc]

/-! ## words and numbers -/

section

variable (hd : d ∈ edges)

include hd

/-- A class that holds none of the edges. -/
theorem edge_not {p : Char → Bool} (h : (edges.all fun e => !p e) = true) : p d = false := by
  simpa using List.all_eq_true.1 h d hd

theorem isWordChar_edge : isWordChar d = false := edge_not hd (by decide)

theorem isDigit_edge : d.isDigit = false := edge_not hd (by decide)

theorem isDecimal_edge : isDecimal d = false := edge_not hd (by decide)

theorem scanWord_seam : scanWord c (tail ++ d :: ds) = scanWord c tail := by
  rw [scanWord, takeWhile_seam ds (isWordChar_edge hd)]
  rfl

theorem scanDollarName_seam : scanDollarName (tail ++ d :: ds) = scanDollarName tail := by
  rw [scanDollarName, countWhile_seam ds (isWordChar_edge hd)]
  rfl

omit hd in
theorem scanDollarName_le : (scanDollarName tail).2 ≤ tail.length := by
  unfold scanDollarName
  dsimp only
  split
  · exact Nat.zero_le _
  · exact countWhile_le_length _ _

/-- An edge is no digit and no sign, so it is no part of an exponent. -/
theorem exponentLength_seam : exponentLength (tail ++ d :: ds) = exponentLength tail := by
  have hexponent : (d == 'e' || d == 'E') = false :=
    edge_not (p := fun e => e == 'e' || e == 'E') hd (by decide)
  have hsign : (d == '+' || d == '-') = false :=
    edge_not (p := fun e => e == '+' || e == '-') hd (by decide)
  have hdigits (cs : List Char) := countWhile_seam (p := Char.isDigit) ds (isDigit_edge hd) cs
  cases tail with
  | nil => simp [exponentLength, hexponent]
  | cons e r =>
    cases r with
    | nil =>
      simp [exponentLength, hsign, countWhile, isDigit_edge hd]
    | cons s r =>
      by_cases hs : (s == '+' || s == '-') = true
      · simp [exponentLength, hs, hdigits]
      · have hrest : countWhile Char.isDigit (s :: (r ++ d :: ds)) =
            countWhile Char.isDigit (s :: r) := hdigits (s :: r)
        simp [exponentLength, hs, hrest]

/-- A point goes on with a number if a digit follows it. -/
theorem scanDecimal_seam (hpoint : d = '.' → (scanDecimal tail).2 < tail.length) :
    scanDecimal (tail ++ d :: ds) = scanDecimal tail := by
  have hwhole := countWhile_seam (p := isDecimal) ds (isDecimal_edge hd)
  have hle := countWhile_le_length isDecimal tail
  have hrest : d = '.' → tail.drop (countWhile isDecimal tail) ≠ [] := by
    intro hdot
    have hlt : countWhile isDecimal tail < tail.length := by
      refine Nat.lt_of_le_of_lt ?_ (hpoint hdot)
      unfold scanDecimal
      dsimp only
      split
      · split
        · dsimp only
          omega
        · exact Nat.le_refl _
      · exact Nat.le_refl _
    simpa [List.drop_eq_nil_iff] using hlt
  rw [scanDecimal, scanDecimal, hwhole, List.drop_append_of_le_length hle]
  generalize tail.drop (countWhile isDecimal tail) = rest at hrest
  cases rest with
  | nil =>
    have hdot : d ≠ '.' := fun hdot => hrest hdot rfl
    simp [hdot]
  | cons x r =>
    by_cases hx : x = '.'
    · subst hx
      cases r with
      | nil => simp [isDigit_edge hd]
      | cons y r =>
        have hle := countWhile_le_length isDecimal r
        simp [hwhole, List.drop_append_of_le_length hle, exponentLength_seam ds hd]
    · simp [hx]

theorem scanRadix_seam {digit : Char → Bool} {r : List Char} (hdigit : digit d = false)
    (hpoint : d = '.' → (scanRadix digit tail r).2 < tail.length) :
    scanRadix digit (tail ++ d :: ds) (r ++ d :: ds) = scanRadix digit tail r := by
  rw [scanRadix, countWhile_seam ds hdigit]
  unfold scanRadix at hpoint ⊢
  by_cases h : countWhile digit r = 0
  · simp only [h] at hpoint ⊢
    exact scanDecimal_seam ds hd hpoint
  · simp [h]

theorem scanNumber_seam (hpoint : d = '.' → (scanNumber c tail).2 < tail.length) :
    scanNumber c (tail ++ d :: ds) = scanNumber c tail := by
  have hradix : isHexadecimal d = false ∧ isOctal d = false ∧ isBinary d = false :=
    ⟨edge_not hd (by decide), edge_not hd (by decide), edge_not hd (by decide)⟩
  -- a second character may name a radix
  cases tail with
  | nil =>
    have hletter : d ≠ 'x' ∧ d ≠ 'o' ∧ d ≠ 'b' := by
      refine ⟨?_, ?_, ?_⟩ <;> rintro rfl <;> exact absurd hd (by decide)
    have hone : scanNumber c ([] ++ d :: ds) = scanDecimal (d :: ds) := by
      unfold scanNumber
      split <;> simp_all
    have hnone : scanNumber c [] = scanDecimal [] := by
      unfold scanNumber
      split <;> simp_all
    rw [hnone] at hpoint ⊢
    rw [hone]
    exact scanDecimal_seam ds hd hpoint
  | cons x r =>
    rw [List.cons_append]
    unfold scanNumber at hpoint ⊢
    split at hpoint
    · next _ hx =>
      obtain ⟨rfl, rfl⟩ := List.cons.inj hx
      exact scanRadix_seam ds hd hradix.1 hpoint
    · next _ hx =>
      obtain ⟨rfl, rfl⟩ := List.cons.inj hx
      exact scanRadix_seam ds hd hradix.2.1 hpoint
    · next _ hx =>
      obtain ⟨rfl, rfl⟩ := List.cons.inj hx
      exact scanRadix_seam ds hd hradix.2.2 hpoint
    · have hdecimal := scanDecimal_seam ds hd hpoint
      rw [List.cons_append] at hdecimal
      split
      · simp_all
      · simp_all
      · simp_all
      · exact hdecimal

end

theorem kind_scanNumber : (scanNumber c tail).1 ∈ openKinds := by
  have hdecimal (cs : List Char) : (scanDecimal cs).1 ∈ openKinds := by
    unfold scanDecimal
    dsimp only
    split
    · split <;> simp [openKinds]
    · simp [openKinds]
  have hradix (digit : Char → Bool) (r : List Char) :
      (scanRadix digit tail r).1 ∈ openKinds := by
    unfold scanRadix
    dsimp only
    split
    · exact hdecimal _
    · simp [openKinds]
  unfold scanNumber
  split
  · exact hradix _ _
  · exact hradix _ _
  · exact hradix _ _
  · exact hdecimal _

/-! ## texts and names -/

/-- A text on one line that stops before the end of its source stops there whatever follows,
unless only a backslash is left. -/
theorem textLength_seam (hn : (textLength tail).2 < tail.length)
    (hslash : tail.drop (textLength tail).2 ≠ ['\\']) (es : List Char) :
    textLength (tail ++ es) = textLength tail := by
  fun_induction textLength tail with
  | case1 => cases hn
  | case2 => exact absurd rfl hslash
  | case3 c r hc => simp [textLength, hc]
  | case4 c r hc closed n heq ih =>
    have hr : (textLength r).2 < r.length := by
      rw [heq]
      simpa using hn
    cases r with
    | nil => cases hr
    | cons d r =>
      have hih := ih hr (by rw [heq]; simpa using hslash)
      rw [List.cons_append] at hih
      simp [textLength, hc, hih, heq]
  | case5 c r _ _ hc =>
    obtain rfl : c = '\x22' := by simpa using hc
    simp [textLength]
  | case6 c r _ _ _ hc =>
    obtain rfl : c = '\n' := by simpa using hc
    simp [textLength]
  | case7 c r hone hmany hquote hbreak closed n heq ih =>
    have hr : (textLength r).2 < r.length := by
      rw [heq]
      simpa using hn
    cases r with
    | nil => cases hr
    | cons d r =>
      have hih := ih hr (by rw [heq]; simpa using hslash)
      have hc : c ≠ '\\' := fun hc => hmany d r hc rfl
      rw [List.cons_append] at hih
      simp [textLength, hquote, hbreak, hc, hih, heq]

theorem kind_scanText : (scanText tail).1 ∈ openKinds := by
  unfold scanText
  split
  · simp [openKinds]
  · dsimp only
    split <;> simp [openKinds]

theorem scanText_seam (h : Settled d tail (scanText tail)) (es : List Char) :
    scanText (tail ++ es) = scanText tail := by
  obtain ⟨hn, hslash⟩ | hstop := h
  · cases tail with
    | nil => cases hn
    | cons x r =>
      by_cases hx : x = '\x22'
      · subst hx
        cases r with
        | nil => simp [scanText, textLength] at hn
        | cons y r =>
          by_cases hy : y = '\x22'
          · subst hy
            have hlong : longTextLength r < r.length := by simpa [scanText] using hn
            simp [scanText, longTextLength_append es hlong]
          · have htext : textLength ('\x22' :: y :: r ++ es) = textLength ('\x22' :: y :: r) :=
              textLength_seam (by simpa [scanText, hy] using hn)
                (by simpa [scanText, hy] using hslash) es
            rw [List.cons_append, List.cons_append] at htext
            simp [scanText, hy, htext]
      · have htext : textLength (x :: r ++ es) = textLength (x :: r) :=
          textLength_seam (by simpa [scanText, hx] using hn)
            (by simpa [scanText, hx] using hslash) es
        rw [List.cons_append] at htext
        simp [scanText, hx, htext]
  · exact absurd kind_scanText hstop.not_mem

/-- A name whose second backtick is missing is an error that takes all up to the line's end. -/
theorem scanEscapedName_of_le
    (h : tail.length ≤ countWhile (fun c => c != '\x60' && c != '\n') tail) :
    scanEscapedName tail = (.error, countWhile (fun c => c != '\x60' && c != '\n') tail) := by
  simp [scanEscapedName, List.drop_eq_nil_of_le h]

theorem scanEscapedName_le : (scanEscapedName tail).2 ≤ tail.length := by
  obtain hlt | hge := Nat.lt_or_ge
    (countWhile (fun c => c != '\x60' && c != '\n') tail) tail.length
  · unfold scanEscapedName
    dsimp only
    split <;> omega
  · rw [scanEscapedName_of_le hge]
    exact countWhile_le_length _ _

/-- A name between backticks that is closed ends there whatever follows. -/
theorem scanEscapedName_seam (h : Settled d tail (scanEscapedName tail)) (es : List Char) :
    scanEscapedName (tail ++ es) = scanEscapedName tail := by
  have hlt : countWhile (fun c => c != '\x60' && c != '\n') tail < tail.length := by
    by_contra hge
    rw [scanEscapedName_of_le (Nat.le_of_not_lt hge)] at h
    exact hge (h.lt (by simp [openKinds]))
  have hhead : ((tail ++ es).drop (countWhile (fun c => c != '\x60' && c != '\n') tail)).head? =
      (tail.drop (countWhile (fun c => c != '\x60' && c != '\n') tail)).head? := by
    simp [List.head?_drop, List.getElem?_append_left hlt]
  simp only [scanEscapedName, countWhile_append es hlt, hhead]

/-! ## comments, operators and marks -/

theorem kind_scanSlash : (scanSlash tail).1 ∈ openKinds := by
  unfold scanSlash
  split <;> simp [openKinds]

theorem scanSlash_seam (h : Settled d tail (scanSlash tail)) (es : List Char) :
    scanSlash (tail ++ es) = scanSlash tail := scanSlash_append es (h.lt kind_scanSlash)

theorem scanOperator_le : (scanOperator c tail).2 ≤ tail.length := by
  have hle := countWhile_le_length isOperatorChar tail
  unfold scanOperator
  dsimp only
  split
  · split <;> try exact Nat.zero_le _
    split
    · next hhead =>
      cases tail with
      | nil => cases hhead
      | cons x r => exact Nat.succ_le_succ (Nat.zero_le _)
    · exact Nat.zero_le _
  · exact hle

/-- An operator of one character is read the same unless it may start an arrow. -/
theorem scanOperator_seam (h : Settled d tail (scanOperator c tail)) :
    scanOperator c (tail ++ d :: ds) = scanOperator c tail := by
  by_cases hlt : countWhile isOperatorChar tail < tail.length
  · have hhead : (tail ++ d :: ds).head? = tail.head? := by
      cases tail with
      | nil => cases hlt
      | cons x r => rfl
    simp only [scanOperator, countWhile_append (d :: ds) hlt, hhead]
  · -- The operator takes all of the tail; of the kinds it may have, only two are settled then.
    cases tail with
    | nil =>
      obtain ⟨hn, -⟩ | hstop := h
      · cases hn
      · have hd : isOperatorChar d = false := by
          obtain hk | ⟨-, hd⟩ := hstop
          · revert hk
            simp only [scanOperator, countWhile, List.takeWhile_nil, List.length_nil,
              beq_self_eq_true, if_true]
            split <;> simp
          · exact hd
        have hminus : c ≠ '-' := by
          rintro rfl
          exact hstop.not_mem (by simp [scanOperator, countWhile, openKinds])
        have hzero : countWhile isOperatorChar (d :: ds) = 0 := countWhile_seam ds hd []
        have hnil : countWhile isOperatorChar [] = 0 := rfl
        simp only [scanOperator, List.nil_append, hzero, hnil, beq_self_eq_true, if_true]
        split <;> first | rfl | exact absurd rfl hminus
    | cons x r =>
      have hne : countWhile isOperatorChar (x :: r) ≠ 0 := by
        simp only [List.length_cons] at hlt
        omega
      have hcustom : scanOperator c (x :: r) =
          (.customOperator, countWhile isOperatorChar (x :: r)) := by
        simp [scanOperator, hne]
      rw [hcustom] at h
      exact absurd (h.lt (by simp [openKinds])) hlt

theorem kind_scanDot : (scanDot tail).1 ∈ openKinds := by
  unfold scanDot
  split <;> simp [openKinds]

theorem scanDot_seam (h : Settled d tail (scanDot tail)) (es : List Char) :
    scanDot (tail ++ es) = scanDot tail := by
  have hn := h.lt kind_scanDot
  cases tail with
  | nil => cases hn
  | cons x r =>
    by_cases hx : x = '.'
    · subst hx
      cases r with
      | nil => simp [scanDot] at hn
      | cons y r =>
        by_cases hdot : y = '.'
        · simp [scanDot, hdot]
        · by_cases hangle : y = '<'
          · simp [scanDot, hangle]
          · simp [scanDot, hdot, hangle]
    · simp [scanDot, hx]

/-- A word stands at the front of a text or is broken off in it before a character that it does
not hold. -/
theorem isPrefixOf_seam {word : List Char} (hword : d ∉ word) :
    word.isPrefixOf (tail ++ d :: ds) = word.isPrefixOf tail := by
  induction word generalizing tail with
  | nil => simp
  | cons x word ih =>
    obtain ⟨hx, hword⟩ : d ≠ x ∧ d ∉ word := by simpa using hword
    cases tail with
    | nil => simp [List.isPrefixOf, hx.symm]
    | cons c r => simp [List.isPrefixOf, ih hword]

theorem scanHash_le : (scanHash tail).2 ≤ tail.length := by
  unfold scanHash
  split
  · next word kind hfind =>
    have hprefix : word.isPrefixOf tail = true := by simpa using List.find?_some hfind
    exact (List.isPrefixOf_iff_prefix.1 hprefix).length_le
  · exact Nat.zero_le _

theorem scanHash_seam (hd : d ∈ edges) : scanHash (tail ++ d :: ds) = scanHash tail := by
  have hwords : ∀ word ∈ directives, d ∉ word.1 := by
    intro word hword
    have hedge : (directives.any fun w => w.1.contains d) = false :=
      edge_not (p := fun e => directives.any fun w => w.1.contains e) hd (by decide)
    simpa using List.any_eq_false.1 hedge word hword
  have hprefix : ∀ word ∈ directives,
      word.1.isPrefixOf (tail ++ d :: ds) = word.1.isPrefixOf tail :=
    fun word hword => isPrefixOf_seam ds (hwords word hword)
  simp only [directives, List.forall_mem_cons] at hprefix
  simp [scanHash, directives, List.find?_cons, hprefix]

/-! ## lexemes -/

/-- A lexeme is the same with an edge behind the text, if it is settled before. -/
theorem scan_seam (hd : d ∈ edges) (h : Settled d tail (scan c tail)) :
    scan c (tail ++ d :: ds) = scan c tail := by
  cases family c with
  | space _ hscan =>
    rw [hscan] at h
    rw [hscan, hscan, countWhile_append (d :: ds) (h.lt (by simp [openKinds]))]
  | word _ hscan => rw [hscan, hscan, scanWord_seam ds hd]
  | number _ hscan =>
    rw [hscan] at h
    rw [hscan, hscan, scanNumber_seam ds hd fun _ => h.lt kind_scanNumber]
  | operator _ hscan =>
    rw [hscan] at h
    rw [hscan, hscan, scanOperator_seam ds h]
  | slash _ hscan =>
    rw [hscan] at h
    rw [hscan, hscan, scanSlash_seam h]
  | text _ hscan =>
    rw [hscan] at h
    rw [hscan, hscan, scanText_seam h]
  | escapedName _ hscan =>
    rw [hscan] at h
    rw [hscan, hscan, scanEscapedName_seam h]
  | dollarName _ hscan => rw [hscan, hscan, scanDollarName_seam ds hd]
  | dot _ hscan =>
    rw [hscan] at h
    rw [hscan, hscan, scanDot_seam h]
  | hash _ hscan => rw [hscan, hscan, scanHash_seam ds hd]
  | mark _ hscan | unknown hscan => rw [hscan, hscan]

/-! ## lengths -/

theorem exponentLength_le : exponentLength tail ≤ tail.length := by
  cases tail with
  | nil => exact Nat.le_refl 0
  | cons e r =>
    have hdigits (n : Nat) (hn : n ≤ r.length) :
        (if (countWhile Char.isDigit (r.drop n) == 0) = true then 0
          else 1 + n + countWhile Char.isDigit (r.drop n)) ≤ r.length + 1 := by
      have hle := countWhile_le_length Char.isDigit (r.drop n)
      rw [List.length_drop] at hle
      split <;> omega
    unfold exponentLength
    dsimp only
    split
    · cases r with
      | nil => exact hdigits 0 (Nat.le_refl 0)
      | cons s r => exact hdigits _ (by dsimp only; split <;> simp)
    · exact Nat.zero_le _

theorem scanDecimal_le : (scanDecimal tail).2 ≤ tail.length := by
  have hwhole := countWhile_le_length isDecimal tail
  unfold scanDecimal
  dsimp only
  split
  · next d r hdrop =>
    have hlength := congrArg List.length hdrop
    have hfraction := countWhile_le_length isDecimal r
    have hexponent : exponentLength (r.drop (countWhile isDecimal r)) ≤
        (r.drop (countWhile isDecimal r)).length := exponentLength_le
    simp only [List.length_drop, List.length_cons] at hlength hexponent
    split <;> (dsimp only; omega)
  · exact hwhole

theorem scanNumber_le : (scanNumber c tail).2 ≤ tail.length := by
  have hradix (digit : Char → Bool) (x : Char) (r : List Char) :
      (scanRadix digit (x :: r) r).2 ≤ (x :: r).length := by
    unfold scanRadix
    dsimp only
    split
    · exact scanDecimal_le
    · exact Nat.succ_le_succ (countWhile_le_length digit r)
  unfold scanNumber
  split
  · exact hradix _ _ _
  · exact hradix _ _ _
  · exact hradix _ _ _
  · exact scanDecimal_le

theorem textLength_le : (textLength tail).2 ≤ tail.length := by
  fun_induction textLength tail with
  | case4 c r hc closed n heq ih => simp_all
  | case7 c r hone hmany hquote hbreak closed n heq ih => simp_all
  | _ => simp

theorem longTextLength_le : longTextLength tail ≤ tail.length := by
  fun_induction longTextLength tail <;> simp_all

theorem scanText_le : (scanText tail).2 ≤ tail.length := by
  unfold scanText
  split
  · exact Nat.add_le_add_right longTextLength_le 2
  · exact textLength_le

theorem commentLength_le {outer : Nat} : commentLength outer tail ≤ tail.length := by
  fun_induction commentLength outer tail <;> simp_all

theorem scanSlash_le : (scanSlash tail).2 ≤ tail.length := by
  unfold scanSlash
  split
  · exact Nat.succ_le_succ (countWhile_le_length _ _)
  · exact Nat.succ_le_succ commentLength_le
  · simp
  · exact Nat.zero_le _

theorem scanDot_le : (scanDot tail).2 ≤ tail.length := by
  unfold scanDot
  split <;> simp

/-- A lexeme takes no more than the text has. -/
theorem scan_le : (scan c tail).2 ≤ tail.length := by
  cases family c with
  | space _ hscan => exact hscan tail ▸ countWhile_le_length _ _
  | word _ hscan => exact hscan tail ▸ countWhile_le_length _ _
  | number _ hscan => exact hscan tail ▸ scanNumber_le
  | operator _ hscan => exact hscan tail ▸ scanOperator_le
  | slash _ hscan => exact hscan tail ▸ scanSlash_le
  | text _ hscan => exact hscan tail ▸ scanText_le
  | escapedName _ hscan => exact hscan tail ▸ scanEscapedName_le
  | dollarName _ hscan => exact hscan tail ▸ scanDollarName_le
  | dot _ hscan => exact hscan tail ▸ scanDot_le
  | hash _ hscan => exact hscan tail ▸ scanHash_le
  | mark _ hscan | unknown hscan => exact hscan tail ▸ Nat.zero_le _

/-! ## texts -/

theorem lexChars_backslash : lexChars ['\\'] = [⟨.backslash, "\\"⟩] := by
  have hletter : Unicode.isLetter '\\' = false := by decide
  have hscan : scan '\\' [] = (.backslash, 0) := by
    have hmark : (marks.lookup '\\').getD .error = .backslash := rfl
    simp [scan, isSpace, isOperatorChar, hletter, Char.isDigit, hmark]
  rw [lexChars_cons, hscan]
  simp

/-- A text whose last lexeme ends before an edge is cut up apart from what the edge starts. -/
theorem lexChars_seam (hd : d ∈ edges) {cs : List Char}
    (h : ∀ l ∈ (lexChars cs).getLast?, StopsBefore d l.kind) :
    lexChars (cs ++ d :: ds) = lexChars cs ++ lexChars (d :: ds) := by
  fun_induction lexChars cs with
  | case1 => rfl
  | case2 c tail kind n heq ih =>
    have hrest : ∀ l ∈ (lexChars (tail.drop n)).getLast?, StopsBefore d l.kind := by
      intro l hl
      obtain ⟨ls, hls⟩ := List.getLast?_eq_some_iff.1 hl
      exact h l (by rw [hls, ← List.cons_append, List.getLast?_concat]; rfl)
    have hsettled : Settled d tail (scan c tail) := by
      rw [heq]
      obtain hlt | hge := Nat.lt_or_ge n tail.length
      · refine .inl ⟨hlt, fun hslash => ?_⟩
        rw [hslash, lexChars_backslash] at hrest
        exact (hrest _ rfl).not_mem (by simp [openKinds])
      · -- Nothing is left behind the lexeme, so it is the last one.
        have hnil : tail.drop n = [] := List.drop_eq_nil_of_le hge
        exact .inr (h _ (by rw [hnil, lexChars_nil]; rfl))
    have hle : n ≤ tail.length := by
      have hn : (scan c tail).2 ≤ tail.length := scan_le
      rwa [heq] at hn
    rw [List.cons_append, lexChars_cons, scan_seam ds hd hsettled, heq]
    simp only
    rw [List.take_append_of_le_length hle, List.drop_append_of_le_length hle, ih hrest,
      List.cons_append]

end SwiftOutline.Lexeme

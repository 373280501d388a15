import Mathlib.Data.List.Forall2
import SwiftOutline.Proofs.Seam

/-!
# SwiftOutline.Proofs.Respaced

Blanks between lexemes are replaced by other blanks.

* `scan_respaced` — a lexeme that ends before a blank ends there whatever blank that is and whatever
  stands behind it, unless the end of the line ends the lexeme;
* `IsBlank`, `Respaced` — lexemes of blanks, which others may stand for;
* `lexChars_respaced` — so a text on one line is cut up the same with other blanks, line breaks too,
  for those between its lexemes.
-/

namespace SwiftOutline.Lexeme

theorem ne_of_isSpace {x c : Char} (hx : isSpace x = true) (hc : isSpace c = false) : x ≠ c := by
  rintro rfl
  exact Bool.false_ne_true (hc.symm.trans hx)

theorem eq_of_isSpace {x : Char} (hx : isSpace x = true) :
    x = ' ' ∨ x = '\t' ∨ x = '\n' ∨ x = '\r' ∨ x = '\x0c' := by
  simpa [isSpace, or_assoc] using hx

theorem mem_edges_of_isSpace {x : Char} (hx : isSpace x = true) : x ∈ edges := by
  obtain rfl | rfl | rfl | rfl | rfl := eq_of_isSpace hx <;> decide

theorem isOperatorChar_of_isSpace {x : Char} (hx : isSpace x = true) :
    isOperatorChar x = false := by
  obtain rfl | rfl | rfl | rfl | rfl := eq_of_isSpace hx <;> decide

section

variable {c x y : Char} {front r : List Char} (hx : isSpace x = true) (hline : x ≠ '\n')
  (hy : isSpace y = true)

/-! ## lexemes that blanks may be part of -/

/-- A run of characters that may be blanks ends before a blank only if it has ended before. -/
theorem countWhile_lt_of_stop {p : Char → Bool} (hp : p x = true)
    (h : countWhile p (front ++ x :: r) ≤ front.length) :
    countWhile p front < front.length := by
  induction front with
  | nil => simp [countWhile, hp] at h
  | cons a front ih =>
    by_cases ha : p a = true
    · have hless : countWhile p (front ++ x :: r) ≤ front.length := by
        simpa [countWhile, ha] using h
      simpa [countWhile, ha] using ih hless
    · simp [countWhile, ha]

theorem countWhile_stop {p : Char → Bool} (hp : p x = true)
    (h : countWhile p (front ++ x :: r) ≤ front.length) (s : List Char) :
    countWhile p (front ++ s) = countWhile p (front ++ x :: r) := by
  have hlt := countWhile_lt_of_stop hp h
  rw [countWhile_append s hlt, countWhile_append (x :: r) hlt]

include hx

theorem commentLength_stop (outer : Nat)
    (h : commentLength outer (front ++ x :: r) ≤ front.length) (s : List Char) :
    commentLength outer (front ++ s) = commentLength outer (front ++ x :: r) := by
  have hslash : x ≠ '/' := ne_of_isSpace hx rfl
  have hstar : x ≠ '*' := ne_of_isSpace hx rfl
  have hblank (outer : Nat) (r : List Char) :
      commentLength outer (x :: r) = commentLength outer r + 1 := by
    simp [commentLength, hslash, hstar]
  -- the comment ends inside `front`, so `x` is reached by no step
  fun_induction commentLength outer front with
  | case1 outer => simp [hblank] at h
  | case2 outer front ih =>
    simp only [List.cons_append, commentLength, List.length_cons] at h ⊢
    rw [ih (by omega)]
  | case3 front => simp [commentLength]
  | case4 front outer ih =>
    simp only [List.cons_append, commentLength, List.length_cons] at h ⊢
    rw [ih (by omega)]
  | case5 outer c front hopen hclose ih =>
    cases front with
    | nil =>
      rw [List.cons_append, List.nil_append, commentLength.eq_5, hblank] at h
      · simp at h
      · rintro q - hq
        exact hstar (List.cons.inj hq).1
      · rintro q - hq
        exact hslash (List.cons.inj hq).1
    | cons d front =>
      have hone (s : List Char) : commentLength outer (c :: (d :: front ++ s)) =
          commentLength outer (d :: front ++ s) + 1 :=
        commentLength.eq_5 _ _ _ (ne_mark_append hopen s) (ne_mark_append hclose s)
      change commentLength outer (c :: (d :: front ++ x :: r)) ≤ _ at h
      show commentLength outer (c :: (d :: front ++ s)) =
        commentLength outer (c :: (d :: front ++ x :: r))
      rw [hone] at h
      rw [hone, hone, ih (by simpa using h)]

omit hx in
theorem longTextLength_cons {c : Char} {cs : List Char} (hc : c ≠ '\\')
    (hcs : ∀ q, c = '\x22' → cs ≠ '\x22' :: '\x22' :: q) :
    longTextLength (c :: cs) = longTextLength cs + 1 := by
  rw [longTextLength.eq_5]
  · exact fun h => absurd h hc
  · exact fun _ _ h => absurd h hc
  · exact hcs

theorem longTextLength_stop (h : longTextLength (front ++ x :: r) ≤ front.length)
    (s : List Char) : longTextLength (front ++ s) = longTextLength (front ++ x :: r) := by
  have hslash : x ≠ '\\' := ne_of_isSpace hx rfl
  have hquote : x ≠ '\x22' := ne_of_isSpace hx rfl
  have hblank (r : List Char) : longTextLength (x :: r) = longTextLength r + 1 :=
    longTextLength_cons hslash fun q hx _ => hquote hx
  fun_induction longTextLength front with
  | case1 => simp [hblank] at h
  | case2 => simp [longTextLength] at h
  | case3 c front ih =>
    simp only [List.cons_append, longTextLength, List.length_cons] at h ⊢
    rw [ih (by omega)]
  | case4 front => simp [longTextLength]
  | case5 c front hone hescape hquotes ih =>
    have hc := ne_backslash hone hescape
    -- three quotes that close the text stand before the blank
    cases front with
    | nil =>
      rw [List.cons_append, List.nil_append, longTextLength_cons hc (by simp [hquote]), hblank] at h
      simp at h
    | cons d front =>
      cases front with
      | nil =>
        rw [List.cons_append, List.cons_append, List.nil_append,
          longTextLength_cons hc (by simp [hquote])] at h
        by_cases hd : d = '\\'
        · simp [longTextLength, hd] at h
        · rw [longTextLength_cons hd (by simp [hquote]), hblank] at h
          simp at h
      | cons e front =>
        have hstep (s : List Char) : longTextLength (c :: (d :: e :: front ++ s)) =
            longTextLength (d :: e :: front ++ s) + 1 := by
          refine longTextLength_cons hc fun q hc hq => ?_
          obtain ⟨hd, hq⟩ := List.cons.inj hq
          obtain ⟨he, -⟩ := List.cons.inj hq
          exact hquotes front hc (by rw [hd, he])
        change longTextLength (c :: (d :: e :: front ++ x :: r)) ≤ _ at h
        show longTextLength (c :: (d :: e :: front ++ s)) =
          longTextLength (c :: (d :: e :: front ++ x :: r))
        rw [hstep] at h
        rw [hstep, hstep, ih (by simpa using h)]

include hline

theorem textLength_stop (h : (textLength (front ++ x :: r)).2 ≤ front.length) (s : List Char) :
    textLength (front ++ s) = textLength (front ++ x :: r) := by
  have hslash : x ≠ '\\' := ne_of_isSpace hx rfl
  have hquote : x ≠ '\x22' := ne_of_isSpace hx rfl
  have hblank (r : List Char) : (textLength (x :: r)).2 = (textLength r).2 + 1 := by
    simp [textLength, hslash, hquote, hline]
  fun_induction textLength front with
  | case1 => simp [hblank] at h
  | case2 =>
    simp [textLength, hline] at h
  | case3 c front hc => simp [textLength, hc]
  | case4 c front hc closed n heq ih =>
    simp [textLength, hc] at h ⊢
    rw [ih (by omega)]
    simp
  | case5 c front _ _ hc =>
    obtain rfl : c = '\x22' := by simpa using hc
    simp [textLength]
  | case6 c front _ _ _ hc =>
    obtain rfl : c = '\n' := by simpa using hc
    simp [textLength]
  | case7 c front hone hmany hquote hbreak closed n heq ih =>
    have hc := ne_backslash hone hmany
    simp [textLength, hc, hquote, hbreak] at h ⊢
    rw [ih (by omega)]
    simp

theorem scanText_stop (h : (scanText (front ++ x :: r)).2 ≤ front.length) (hy : isSpace y = true)
    (s : List Char) : scanText (front ++ y :: s) = scanText (front ++ x :: r) := by
  have hquote {z : Char} (hz : isSpace z = true) : z ≠ '\x22' := ne_of_isSpace hz rfl
  match front with
  | [] =>
    have hslash : x ≠ '\\' := ne_of_isSpace hx rfl
    simp [scanText, textLength, hquote hx, hslash, hline] at h
  | [a] =>
    by_cases ha : a = '\x22'
    · simp [scanText, textLength, ha, hquote hx, hquote hy]
    · have hlength : (textLength ([a] ++ x :: r)).2 ≤ [a].length := by
        simpa [scanText, ha] using h
      have hstop := textLength_stop hx hline hlength (y :: s)
      rw [List.singleton_append, List.singleton_append] at hstop
      simp [scanText, ha, hstop]
  | a :: b :: front =>
    by_cases hlong : a = '\x22' ∧ b = '\x22'
    · obtain ⟨rfl, rfl⟩ := hlong
      have hlength : longTextLength (front ++ x :: r) ≤ front.length := by
        simpa [scanText] using h
      simp [scanText, longTextLength_stop hx hlength]
    · have hscan (r : List Char) : scanText (a :: b :: (front ++ r)) =
          (if (textLength (a :: b :: (front ++ r))).1 then .string else .error,
            (textLength (a :: b :: (front ++ r))).2) := by
        unfold scanText
        split
        · simp_all
        · rfl
      simp only [List.cons_append] at h ⊢
      rw [hscan] at h
      have hstop : textLength (a :: b :: (front ++ y :: s)) =
          textLength (a :: b :: (front ++ x :: r)) := by
        have hlength : (textLength (a :: b :: front ++ x :: r)).2 ≤ (a :: b :: front).length := h
        exact textLength_stop hx hline hlength (y :: s)
      rw [hscan, hscan, hstop]

theorem scanSlash_stop (h : (scanSlash (front ++ x :: r)).2 ≤ front.length) (hy : isSpace y = true)
    (s : List Char) : scanSlash (front ++ y :: s) = scanSlash (front ++ x :: r) := by
  have hnone {z : Char} (hz : isSpace z = true) (r : List Char) :
      scanSlash (z :: r) = (.customOperator, 0) := by
    have hslash : z ≠ '/' := ne_of_isSpace hz rfl
    have hstar : z ≠ '*' := ne_of_isSpace hz rfl
    have hequals : z ≠ '=' := ne_of_isSpace hz rfl
    unfold scanSlash
    split <;> simp_all
  cases front with
  | nil => exact (hnone hy s).trans (hnone hx r).symm
  | cons a front =>
    rw [List.cons_append] at h ⊢
    by_cases hslash : a = '/'
    · subst hslash
      have hcount : countWhile (· != '\n') (front ++ x :: r) ≤ front.length := by
        simpa [scanSlash] using h
      simp [scanSlash, countWhile_stop (by simpa using hline) hcount]
    · by_cases hstar : a = '*'
      · subst hstar
        have hlength : commentLength 0 (front ++ x :: r) ≤ front.length := by
          simpa [scanSlash] using h
        simp [scanSlash, commentLength_stop hx 0 hlength]
      · by_cases hequals : a = '='
        · simp [scanSlash, hequals]
        · simp [scanSlash, hslash, hstar, hequals]

theorem scanEscapedName_stop (h : (scanEscapedName (front ++ x :: r)).2 ≤ front.length)
    (s : List Char) : scanEscapedName (front ++ s) = scanEscapedName (front ++ x :: r) := by
  have hbacktick : x ≠ '\x60' := ne_of_isSpace hx rfl
  have hle : countWhile (fun c => c != '\x60' && c != '\n') (front ++ x :: r) ≤ front.length := by
    dsimp only [scanEscapedName] at h
    split at h <;> dsimp only at h <;> omega
  have hlt := countWhile_lt_of_stop (by simp [hbacktick, hline]) hle
  have hhead (n : Nat) (hn : n < front.length) (s : List Char) :
      ((front ++ s).drop n).head? = (front.drop n).head? := by
    simp [List.head?_drop, List.getElem?_append_left hn]
  simp only [scanEscapedName, countWhile_append s hlt, countWhile_append (x :: r) hlt,
    hhead _ hlt]

/-! ## lexemes that end before all blanks -/

omit hline

theorem scanOperator_space (r : List Char) :
    scanOperator c (front ++ x :: r) = scanOperator c front := by
  have hcount := countWhile_seam r (isOperatorChar_of_isSpace hx) front
  have hangle : x ≠ '>' := ne_of_isSpace hx rfl
  have hhead : ((front ++ x :: r).head? == some '>') = (front.head? == some '>') := by
    cases front with
    | nil => simp [hangle]
    | cons a front => rfl
  simp only [scanOperator, hcount, hhead]

theorem scanDot_space (r : List Char) : scanDot (front ++ x :: r) = scanDot front := by
  have hdot : x ≠ '.' := ne_of_isSpace hx rfl
  have hangle : x ≠ '<' := ne_of_isSpace hx rfl
  match front with
  | [] => simp [scanDot, hdot]
  | [a] =>
    by_cases ha : a = '.'
    · simp [scanDot, ha, hdot, hangle]
    · simp [scanDot, ha]
  | a :: b :: front =>
    by_cases ha : a = '.'
    · by_cases hb : b = '.'
      · simp [scanDot, ha, hb]
      · by_cases hb' : b = '<'
        · simp [scanDot, ha, hb']
        · simp [scanDot, ha, hb, hb']
    · simp [scanDot, ha]

/-! ## all lexemes -/

include hline

/-- A lexeme that ends before a blank within a line ends there whatever blank it is. -/
theorem scan_respaced (h : (scan c (front ++ x :: r)).2 ≤ front.length) (hy : isSpace y = true)
    (s : List Char) : scan c (front ++ y :: s) = scan c (front ++ x :: r) := by
  have hxedge := mem_edges_of_isSpace hx
  have hyedge := mem_edges_of_isSpace hy
  cases family c with
  | space _ hscan =>
    rw [hscan] at h
    rw [hscan, hscan, countWhile_stop hx h]
  | word _ hscan => rw [hscan, hscan, scanWord_seam s hyedge, scanWord_seam r hxedge]
  | number _ hscan =>
    rw [hscan, hscan, scanNumber_seam s hyedge fun hdot => absurd hdot (ne_of_isSpace hy rfl),
      scanNumber_seam r hxedge fun hdot => absurd hdot (ne_of_isSpace hx rfl)]
  | operator _ hscan => rw [hscan, hscan, scanOperator_space hy, scanOperator_space hx]
  | slash _ hscan =>
    rw [hscan] at h
    rw [hscan, hscan, scanSlash_stop hx hline h hy s]
  | text _ hscan =>
    rw [hscan] at h
    rw [hscan, hscan, scanText_stop hx hline h hy s]
  | escapedName _ hscan =>
    rw [hscan] at h
    rw [hscan, hscan, scanEscapedName_stop hx hline h (y :: s)]
  | dollarName _ hscan =>
    rw [hscan, hscan, scanDollarName_seam s hyedge, scanDollarName_seam r hxedge]
  | dot _ hscan => rw [hscan, hscan, scanDot_space hy, scanDot_space hx]
  | hash _ hscan => rw [hscan, hscan, scanHash_seam s hyedge, scanHash_seam r hxedge]
  | mark _ hscan | unknown hscan => rw [hscan, hscan]

end

/-! ## texts -/

/-- A lexeme of blanks. -/
structure IsBlank (l : Lexeme) : Prop where
  kind : l.kind = .whitespace
  ne_nil : l.text.toList ≠ []
  spaces : ∀ c ∈ l.text.toList, isSpace c = true

theorem isBlank_of_all {s : String} (h : s.toList ≠ []) (hspaces : s.toList.all isSpace = true) :
    IsBlank ⟨.whitespace, s⟩ := ⟨rfl, h, List.all_eq_true.1 hspaces⟩

/-- A lexeme stays as it is, or is of blanks, and others stand there. -/
def Respaced (l l' : Lexeme) : Prop := l' = l ∨ l.IsBlank ∧ l'.IsBlank

/-- The characters of lexemes. -/
def charsOf (ls : List Lexeme) : List Char := ls.flatMap (·.text.toList)

theorem charsOf_append (ls ms : List Lexeme) : charsOf (ls ++ ms) = charsOf ls ++ charsOf ms :=
  List.flatMap_append

theorem charsOf_lexChars (cs : List Char) : charsOf (lexChars cs) = cs := flatMap_lexChars cs

theorem IsBlank.isTrivia {l : Lexeme} (h : l.IsBlank) : l.isTrivia = true := by
  rw [Lexeme.isTrivia, h.kind]
  rfl

theorem IsBlank.exists_cons {l : Lexeme} (h : l.IsBlank) :
    ∃ c cs, l.text.toList = c :: cs ∧ isSpace c = true := by
  obtain ⟨c, cs, hcs⟩ := List.exists_cons_of_ne_nil h.ne_nil
  exact ⟨c, cs, hcs, h.spaces c (hcs ▸ List.mem_cons_self)⟩

/-- Two such texts are the same, or are so up to the first blanks that are replaced. -/
theorem Respaced.split {ls ls' : List Lexeme} (h : List.Forall₂ Respaced ls ls') :
    charsOf ls' = charsOf ls ∨ ∃ front x r y s, charsOf ls = front ++ x :: r ∧
      charsOf ls' = front ++ y :: s ∧ isSpace x = true ∧ isSpace y = true := by
  induction h with
  | nil => exact .inl rfl
  | @cons l l' ls ls' hfirst _ ih =>
    obtain rfl | ⟨hblank, hblank'⟩ := hfirst
    · obtain heq | ⟨front, x, r, y, s, hls, hls', hx, hy⟩ := ih
      · exact .inl (congrArg (l'.text.toList ++ ·) heq)
      · refine .inr ⟨l'.text.toList ++ front, x, r, y, s, ?_, ?_, hx, hy⟩
        · rw [List.append_assoc, ← hls]
          rfl
        · rw [List.append_assoc, ← hls']
          rfl
    · obtain ⟨x, xs, hxs, hx⟩ := hblank.exists_cons
      obtain ⟨y, ys, hys, hy⟩ := hblank'.exists_cons
      refine .inr ⟨[], x, xs ++ charsOf ls, y, ys ++ charsOf ls', ?_, ?_, hx, hy⟩
      · exact congrArg (· ++ charsOf ls) hxs
      · exact congrArg (· ++ charsOf ls') hys

/-- Behind a run of characters stands one of another class. -/
theorem head_drop_countWhile (p : Char → Bool) (cs : List Char) :
    ∀ c ∈ (cs.drop (countWhile p cs)).head?, p c = false := by
  induction cs with
  | nil => simp
  | cons a cs ih => by_cases ha : p a = true <;> simp_all [countWhile]

/-- No blank gets where none was. -/
theorem Respaced.head {cs : List Char} {ls' : List Lexeme} (hcs : ∀ c ∈ cs.head?, isSpace c = false)
    (h : List.Forall₂ Respaced (lexChars cs) ls') :
    ∀ c ∈ (charsOf ls').head?, isSpace c = false := by
  cases cs with
  | nil =>
    rw [lexChars_nil, List.forall₂_nil_left_iff] at h
    simp [h, charsOf]
  | cons c cs =>
    have hc : isSpace c = false := hcs c rfl
    rw [lexChars_cons] at h
    obtain ⟨l', ls', hfirst, -, rfl⟩ := List.forall₂_cons_left_iff.1 h
    obtain rfl | ⟨hblank, -⟩ := hfirst
    · simpa [charsOf] using hc
    · have hspace : isSpace c = true := hblank.spaces c (by simp)
      exact absurd hspace (by simp [hc])

theorem lexChars_blank {l : Lexeme} (hl : l.IsBlank) {cs : List Char}
    (hcs : ∀ c ∈ cs.head?, isSpace c = false) :
    lexChars (l.text.toList ++ cs) = l :: lexChars cs := by
  obtain ⟨c, front, htext, hc⟩ := hl.exists_cons
  have hfront : ∀ d ∈ front, isSpace d = true := fun d hd =>
    hl.spaces d (htext ▸ List.mem_cons_of_mem c hd)
  have hcount : countWhile isSpace (front ++ cs) = front.length := by
    rw [countWhile, List.takeWhile_append_of_pos hfront]
    cases cs with
    | nil => simp
    | cons d cs => simp [hcs d rfl]
  have hscan : scan c (front ++ cs) = (.whitespace, front.length) := by
    rw [scan_of_isSpace hc, hcount]
  rw [htext, List.cons_append, lexChars_lexeme front hscan, ← htext, String.ofList_toList,
    ← hl.kind]

/-- A lexeme in front of such a text stays as it is. -/
theorem lexChars_kept {c : Char} {tail cs' : List Char} {k : Kind} {n : Nat}
    (h : scan c tail = (k, n)) (hline : '\n' ∉ tail.drop n)
    (hsplit : cs' = tail.drop n ∨ ∃ front x r y s, tail.drop n = front ++ x :: r ∧
      cs' = front ++ y :: s ∧ isSpace x = true ∧ isSpace y = true) :
    lexChars (c :: (tail.take n ++ cs')) =
      ⟨k, String.ofList (c :: tail.take n)⟩ :: lexChars cs' := by
  obtain rfl | ⟨front, x, r, y, s, hcs, rfl, hx, hy⟩ := hsplit
  · rw [List.take_append_drop, lexChars_cons, h]
  · have hlt : n < tail.length := by
      have hlength := congrArg List.length hcs
      simp only [List.length_drop, List.length_append, List.length_cons] at hlength
      omega
    have htake : (tail.take n).length = n := List.length_take_of_le (Nat.le_of_lt hlt)
    have htail : tail = tail.take n ++ front ++ x :: r := by
      rw [List.append_assoc, ← hcs, List.take_append_drop]
    have hends : (scan c (tail.take n ++ front ++ x :: r)).2 ≤ (tail.take n ++ front).length := by
      rw [← htail, h, List.length_append, htake]
      exact Nat.le_add_right _ _
    have hx' : x ≠ '\n' := by
      rintro rfl
      exact hline (by simp [hcs])
    have hscan := scan_respaced hx hx' hends hy s
    rw [← htail, h, List.append_assoc] at hscan
    rw [lexChars_cons, hscan, List.take_left' htake, List.drop_left' htake]

/-- A text on one line is cut up the same with other blanks in it. -/
theorem lexChars_respaced {cs : List Char} {ls' : List Lexeme} (hline : '\n' ∉ cs)
    (h : List.Forall₂ Respaced (lexChars cs) ls') : lexChars (charsOf ls') = ls' := by
  fun_induction lexChars cs generalizing ls' with
  | case1 =>
    cases h
    exact lexChars_nil
  | case2 c tail kind n heq ih =>
    obtain ⟨l', ls', hfirst, hothers, rfl⟩ := List.forall₂_cons_left_iff.1 h
    have hline' : '\n' ∉ tail.drop n := fun hmem =>
      hline (List.mem_cons_of_mem c (List.mem_of_mem_drop hmem))
    have hrest := ih hline' hothers
    obtain rfl | ⟨hblank, hblank'⟩ := hfirst
    case inl =>
      have hsplit := Respaced.split hothers
      rw [charsOf_lexChars] at hsplit
      have htext : charsOf (⟨kind, String.ofList (c :: tail.take n)⟩ :: ls') =
          c :: (tail.take n ++ charsOf ls') := congrArg (· ++ charsOf ls') String.toList_ofList
      rw [htext, lexChars_kept heq hline' hsplit, hrest]
    case inr =>
      have hc : isSpace c = true := hblank.spaces c (by simp)
      have hcount : countWhile isSpace tail = n := by
        rw [scan_of_isSpace hc] at heq
        exact (Prod.mk.inj heq).2
      have hhead : ∀ d ∈ (tail.drop n).head?, isSpace d = false :=
        hcount ▸ head_drop_countWhile isSpace tail
      exact (lexChars_blank hblank' (Respaced.head hhead hothers)).trans
        (congrArg (l' :: ·) hrest)

end SwiftOutline.Lexeme

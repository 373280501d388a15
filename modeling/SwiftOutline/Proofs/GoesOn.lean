import SwiftOutline.Proofs.Respaced
import SwiftOutline.Tree.Text

/-!
# SwiftOutline.Proofs.GoesOn

Which characters a lexeme goes on with, if they stand right behind it.

* `GoesOn` — the text of a lexeme and characters that its longest reading takes too;
* `separators`, `Separated` — the characters that marks start with, and the space: no word, no
  number and no text goes on with one of them, but for the fraction of a number;
* `scan_append_iff` — a lexeme that was cut somewhere is cut the same with other characters behind
  it exactly if it does not go on with these. There is one pair of lemmas for each family: what is
  cut is of some form, and what is of the form is cut wherever it does not go on.
-/

namespace SwiftOutline.Lexeme

/-- With some characters right behind it, the text of a lexeme is read on. -/
inductive GoesOn : List Char → List Char → Prop
  /-- A run of operator characters takes one more. -/
  | operator {run ds : List Char} {d : Char} (hrun : ∀ c ∈ run, isOperatorChar c = true)
      (hd : isOperatorChar d = true) : GoesOn run (d :: ds)
  | arrow {ds : List Char} : GoesOn ['-'] ('>' :: ds)
  /-- A slash starts a comment or an operator with an equals sign. -/
  | slash {ds : List Char} {d : Char} (hd : d ∈ ['/', '*', '=']) : GoesOn ['/'] (d :: ds)
  | dots {ds : List Char} : GoesOn ['.'] ('.' :: ds)
  | range {ds : List Char} {d : Char} (hd : d ∈ ['.', '<']) : GoesOn ['.', '.'] (d :: ds)
  | directive {ds : List Char} {word : List Char × Kind} (hword : word ∈ directives)
      (hds : word.1 <+: ds) : GoesOn ['#'] ds
  /-- A decimal number takes a fraction. -/
  | fraction {c d : Char} {digits ds : List Char} (hc : c.isDigit = true)
      (hdigits : ∀ c ∈ digits, isDecimal c = true) (hd : d.isDigit = true) :
      GoesOn (c :: digits) ('.' :: d :: ds)

/-- The characters that marks and operators start with, and the space. -/
def separators : List Char :=
  [' ', '(', ')', '\x7b', '\x7d', '[', ']', '<', '>', ';', ',', ':', '@', '\\', '=', '-', '+',
    '!', '*', '%', '&', '|', '^', '~', '?', '/', '.', '#']

/-- Nothing or a separator stands next. -/
def Separated (ds : List Char) : Prop := ∀ d ∈ ds.head?, d ∈ separators

/-- A class that holds no separator. -/
theorem Separated.not {ds : List Char} (h : Separated ds) {p : Char → Bool}
    (hp : (separators.all fun d => !p d) = true) : ∀ d ∈ ds.head?, p d = false := by
  intro d hd
  simpa using List.all_eq_true.1 hp d (h d hd)

variable {c : Char} {k : Kind} {front rest ds : List Char}

/-- What a lexeme goes on with, by its first character. -/
theorem goesOn_cons_iff : GoesOn (c :: front) ds ↔
    (isOperatorChar c = true ∧ (∀ a ∈ front, isOperatorChar a = true) ∧
      ∃ d ∈ ds.head?, isOperatorChar d = true) ∨
    (c = '-' ∧ front = [] ∧ ds.head? = some '>') ∨
    (c = '/' ∧ front = [] ∧ ∃ d ∈ ds.head?, d ∈ ['/', '*', '=']) ∨
    (c = '.' ∧ front = [] ∧ ds.head? = some '.') ∨
    (c = '.' ∧ front = ['.'] ∧ ∃ d ∈ ds.head?, d ∈ ['.', '<']) ∨
    (c = '#' ∧ front = [] ∧ ∃ word ∈ directives, word.1 <+: ds) ∨
    (c.isDigit = true ∧ (∀ a ∈ front, isDecimal a = true) ∧
      ∃ d r, ds = '.' :: d :: r ∧ d.isDigit = true) := by
  -- one disjunct for each constructor, with the first character taken apart
  constructor
  · intro h
    generalize htext : c :: front = text at h
    cases h with
    | operator hrun hd =>
      obtain ⟨hc, hfront⟩ := List.forall_mem_cons.1 (htext ▸ hrun)
      exact .inl ⟨hc, hfront, _, rfl, hd⟩
    | fraction hc hdigits hd =>
      obtain ⟨rfl, rfl⟩ := List.cons.inj htext
      simp_all
    | directive hword hds =>
      obtain ⟨rfl, rfl⟩ := List.cons.inj htext
      exact .inr (.inr (.inr (.inr (.inr (.inl ⟨rfl, rfl, _, hword, hds⟩)))))
    | _ =>
      obtain ⟨rfl, rfl⟩ := List.cons.inj htext
      simp_all
  · have hhead {d : Char} (hd : ds.head? = some d) : ds = d :: ds.tail := by
      cases ds <;> simp_all
    rintro (⟨hc, hfront, d, hd, hop⟩ | ⟨rfl, rfl, hd⟩ | ⟨rfl, rfl, d, hd, hmem⟩ | ⟨rfl, rfl, hd⟩ |
      ⟨rfl, rfl, d, hd, hmem⟩ | ⟨rfl, rfl, word, hword, hds⟩ | ⟨hc, hfront, d, r, rfl, hd⟩)
    · rw [hhead hd]
      exact .operator (List.forall_mem_cons.2 ⟨hc, hfront⟩) hop
    · rw [hhead hd]
      exact .arrow
    · rw [hhead hd]
      exact .slash hmem
    · rw [hhead hd]
      exact .dots
    · rw [hhead hd]
      exact .range hmem
    · exact .directive hword hds
    · exact .fraction hc hfront hd

/-- Characters that lexemes start with that never go on. -/
theorem not_goesOn (hop : isOperatorChar c = false) (hmark : c ∉ ['-', '/', '.', '#'])
    (hdigit : c.isDigit = false) : ¬GoesOn (c :: front) ds := by
  simp only [List.mem_cons, List.not_mem_nil, or_false, not_or] at hmark
  simp [goesOn_cons_iff, hop, hmark, hdigit]

/-! ## runs of characters -/

theorem countWhile_append_eq_iff {p : Char → Bool} :
    countWhile p (front ++ rest) = front.length ↔
      (∀ a ∈ front, p a = true) ∧ ∀ d ∈ rest.head?, p d = false := by
  induction front with
  | nil => cases rest <;> simp [countWhile, List.takeWhile_cons, apply_ite List.length]
  | cons a front ih =>
    by_cases ha : p a = true
    · simpa [countWhile, ha] using ih
    · simp [countWhile, ha]

theorem takeWhile_append_eq {p : Char → Bool} (hfront : ∀ a ∈ front, p a = true)
    (hds : ∀ d ∈ ds.head?, p d = false) : (front ++ ds).takeWhile p = front := by
  rw [List.takeWhile_append_of_pos hfront]
  cases ds with
  | nil => simp
  | cons d ds => simp [hds d rfl]

/-- A run that ends early ends there whatever follows. -/
theorem countWhile_append_of_lt {p : Char → Bool}
    (h : countWhile p (front ++ rest) < front.length) (ds : List Char) :
    countWhile p (front ++ ds) = countWhile p (front ++ rest) := by
  induction front with
  | nil => simp at h
  | cons a front ih =>
    by_cases ha : p a = true
    · simpa [countWhile, ha] using ih (by simpa [countWhile, ha] using h)
    · simp [countWhile, ha]

/-- So does one that ends at the latest where other characters follow that it does not hold. -/
theorem countWhile_again {p : Char → Bool} (h : countWhile p (front ++ rest) ≤ front.length)
    (hds : ∀ d ∈ ds.head?, p d = false) :
    countWhile p (front ++ ds) = countWhile p (front ++ rest) := by
  obtain hlt | hlen := Nat.lt_or_eq_of_le h
  · exact countWhile_append_of_lt hlt ds
  · rw [hlen]
    exact countWhile_append_eq_iff.2 ⟨(countWhile_append_eq_iff.1 hlen).1, hds⟩

/-! ## words and names -/

theorem scanWord_again (h : scanWord c (front ++ rest) = (k, front.length))
    (hds : Separated ds) : scanWord c (front ++ ds) = (k, front.length) := by
  obtain ⟨hfront, hrest⟩ := countWhile_append_eq_iff.1 (congrArg Prod.snd h)
  rw [scanWord, takeWhile_append_eq hfront hrest] at h
  rw [scanWord, takeWhile_append_eq hfront (hds.not (by decide))]
  exact h

theorem scanDollarName_again (h : scanDollarName (front ++ rest) = (k, front.length))
    (hk : k ≠ .error) (hds : Separated ds) :
    scanDollarName (front ++ ds) = (k, front.length) := by
  unfold scanDollarName at h ⊢
  by_cases hzero : countWhile isWordChar (front ++ rest) = 0
  · simp [hzero, hk.symm] at h
  · have hlen : countWhile isWordChar (front ++ rest) = front.length := by
      simpa [hzero] using congrArg Prod.snd h
    obtain ⟨hfront, -⟩ := countWhile_append_eq_iff.1 hlen
    have hlen' := countWhile_append_eq_iff.2 ⟨hfront, hds.not (p := isWordChar) (by decide)⟩
    rw [hlen'] 
    rwa [hlen] at h

theorem scanEscapedName_again (h : scanEscapedName (front ++ rest) = (k, front.length))
    (hk : k ≠ .error) (ds : List Char) : scanEscapedName (front ++ ds) = (k, front.length) := by
  simp only [scanEscapedName, List.head?_drop] at h ⊢
  by_cases hclosed : (countWhile (fun c => c != '\x60' && c != '\n') (front ++ rest) != 0 &&
      (front ++ rest)[countWhile (fun c => c != '\x60' && c != '\n') (front ++ rest)]? ==
        some '\x60') = true
  · rw [if_pos hclosed] at h
    have hlt : countWhile (fun c => c != '\x60' && c != '\n') (front ++ rest) < front.length := by
      have hlen : _ + 1 = front.length := congrArg Prod.snd h
      omega
    rw [List.getElem?_append_left hlt] at hclosed
    rw [countWhile_append_of_lt hlt ds, List.getElem?_append_left hlt, if_pos hclosed, h]
  · rw [if_neg hclosed] at h
    exact absurd (congrArg Prod.fst h).symm hk

/-! ## numbers -/

/-- The digits of an exponent are taken as long as there are any. -/
theorem exponentDigits_again {n m : Nat} (hn : 0 < n) (hm : m = n + front.length)
    (h : (if (countWhile Char.isDigit (front ++ rest) == 0) = true then 0
      else n + countWhile Char.isDigit (front ++ rest)) = m)
    (hds : Separated ds) :
    (if (countWhile Char.isDigit (front ++ ds) == 0) = true then 0
      else n + countWhile Char.isDigit (front ++ ds)) = m := by
  split at h
  · omega
  · next hpos =>
    have hlen : countWhile Char.isDigit (front ++ rest) = front.length := by omega
    have hlen' : countWhile Char.isDigit (front ++ ds) = front.length :=
      countWhile_append_eq_iff.2 ⟨(countWhile_append_eq_iff.1 hlen).1, hds.not (by decide)⟩
    rw [hlen] at hpos
    rw [hlen', if_neg hpos, hm]

theorem exponentLength_ne_one (e : Char) (r : List Char) : exponentLength (e :: r) ≠ 1 := by
  have hdigits (n m : Nat) : (if (m == 0) = true then 0 else 1 + n + m) ≠ 1 := by
    split
    · decide
    · next hm =>
      rw [beq_iff_eq] at hm
      omega
  unfold exponentLength
  dsimp only
  split
  · exact hdigits _ _
  · decide

theorem exponentLength_again (h : exponentLength (front ++ rest) = front.length)
    (hds : Separated ds) : exponentLength (front ++ ds) = front.length := by
  cases front with
  | nil =>
    cases ds with
    | nil => rfl
    | cons d ds =>
      have hd := hds.not (p := fun d => d == 'e' || d == 'E') (by decide) d rfl
      simp [exponentLength, hd]
  | cons e r =>
    by_cases he : (e == 'e' || e == 'E') = true
    · cases r with
      | nil => exact absurd h (exponentLength_ne_one e rest)
      | cons s r =>
        simp only [List.cons_append, exponentLength, he, if_true] at h ⊢
        by_cases hs : (s == '+' || s == '-') = true
        · simp only [hs, if_true, List.drop_succ_cons, List.drop_zero] at h ⊢
          exact exponentDigits_again (by decide) (by simp; omega) h hds
        · simp only [hs, Bool.false_eq_true, if_false, List.drop_zero, ← List.cons_append] at h ⊢
          exact exponentDigits_again (by decide) (by simp; omega) h hds
    · simp [exponentLength, he] at h

/-- What stands behind a part of a text that has at least two characters more. -/
theorem exists_of_drop_append {n : Nat} {x y : Char} {r : List Char}
    (hlen : n + 2 ≤ front.length) (h : (front ++ rest).drop n = x :: y :: r) :
    ∃ r', front.drop n = x :: y :: r' ∧ r = r' ++ rest := by
  rw [List.drop_append_of_le_length (by omega)] at h
  have hdrop : 2 ≤ (front.drop n).length := by
    rw [List.length_drop]
    omega
  match hfront : front.drop n, hdrop with
  | a :: b :: r', _ =>
    simp only [hfront, List.cons_append, List.cons.injEq] at h
    exact ⟨r', by rw [h.1, h.2.1], h.2.2.symm⟩

/-- A number with a fraction is one whatever separator follows. -/
theorem scanDecimal_float_again (h : scanDecimal (front ++ rest) = (.float, front.length))
    (hds : Separated ds) : scanDecimal (front ++ ds) = (.float, front.length) := by
  have hdecimal := hds.not (p := isDecimal) (by decide)
  unfold scanDecimal at h ⊢
  dsimp only at h ⊢
  generalize hwhole : countWhile isDecimal (front ++ rest) = whole at h
  split at h
  · next d r hdrop =>
    split at h
    · next hd =>
      have hlen : whole + 2 + countWhile isDecimal r +
          exponentLength (r.drop (countWhile isDecimal r)) = front.length := congrArg Prod.snd h
      obtain ⟨r', hfront, rfl⟩ := exists_of_drop_append (by omega) hdrop
      have hr' : front.length = whole + 2 + r'.length := by
        have hdrop := congrArg List.length hfront
        simp only [List.length_drop, List.length_cons] at hdrop
        omega
      generalize hfraction : countWhile isDecimal (r' ++ rest) = fraction at hlen
      rw [List.drop_append_of_le_length (by omega)] at hlen
      have hexponent : exponentLength (r'.drop fraction ++ rest) = (r'.drop fraction).length := by
        rw [List.length_drop]
        omega
      have hwhole' : countWhile isDecimal (front ++ ds) = whole := by
        rw [← hwhole]
        exact countWhile_append_of_lt (by omega) ds
      have hfraction' : countWhile isDecimal (r' ++ ds) = fraction := by
        rw [← hfraction]
        exact countWhile_again (by omega) hdecimal
      rw [hwhole', List.drop_append_of_le_length (by omega), hfront]
      simp only [List.cons_append, hd, if_true]
      rw [hfraction', List.drop_append_of_le_length (by omega), exponentLength_again hexponent hds,
        List.length_drop, hr']
      simp only [Prod.mk.injEq, true_and]
      omega
    · cases h
  · cases h

/-- The point of a fraction is a character of the number. -/
theorem not_isDecimal_of_scanDecimal (h : scanDecimal (front ++ rest) = (.float, front.length)) :
    ¬∀ a ∈ front, isDecimal a = true := by
  intro hall
  have hle : front.length ≤ countWhile isDecimal (front ++ rest) := by
    rw [countWhile, List.takeWhile_append_of_pos hall, List.length_append]
    omega
  unfold scanDecimal at h
  dsimp only at h
  split at h
  · split at h
    · have hlen : _ + 2 + _ + _ = front.length := congrArg Prod.snd h
      omega
    · cases h
  · cases h

theorem isDecimal_of_scanDecimal (h : scanDecimal (front ++ rest) = (.integer, front.length)) :
    ∀ a ∈ front, isDecimal a = true := by
  have hlen : countWhile isDecimal (front ++ rest) = front.length := by
    unfold scanDecimal at h
    dsimp only at h
    split at h
    · split at h
      · cases h
      · exact congrArg Prod.snd h
    · exact congrArg Prod.snd h
  exact (countWhile_append_eq_iff.1 hlen).1

/-- A number without a fraction takes one if it follows. -/
theorem scanDecimal_eq_iff (hfront : ∀ a ∈ front, isDecimal a = true) (hds : Separated ds) :
    scanDecimal (front ++ ds) = (.integer, front.length) ↔
      ¬∃ d r, ds = '.' :: d :: r ∧ d.isDigit = true := by
  have hlen : countWhile isDecimal (front ++ ds) = front.length :=
    countWhile_append_eq_iff.2 ⟨hfront, hds.not (by decide)⟩
  unfold scanDecimal
  simp only [hlen, List.drop_left]
  split
  · next d r =>
    by_cases hd : d.isDigit = true <;> simp [hd]
  · next hne =>
    simp only [true_iff]
    rintro ⟨d, r, rfl, -⟩
    exact hne d r rfl

/-- A number with a radix letter is one whatever separator follows. -/
theorem scanRadix_again {digit : Char → Bool} {x : Char}
    (hdigit : (separators.all fun d => !digit d) = true)
    (h : scanRadix digit (x :: (front ++ rest)) (front ++ rest) = (k, front.length + 1))
    (hx : isDecimal x = false ∧ x ≠ '.') (hds : Separated ds) :
    scanRadix digit (x :: (front ++ ds)) (front ++ ds) = (k, front.length + 1) := by
  have hnone (r : List Char) : scanDecimal (x :: r) = (.integer, 0) := by
    simp [scanDecimal, countWhile, hx.1, hx.2]
  unfold scanRadix at h ⊢
  dsimp only at h ⊢
  split at h
  · rw [hnone] at h
    cases h
  · next hpos =>
    have hlen : countWhile digit (front ++ rest) = front.length :=
      Nat.succ.inj (congrArg Prod.snd h)
    rw [hlen] at h hpos
    rw [countWhile_append_eq_iff.2 ⟨(countWhile_append_eq_iff.1 hlen).1, hds.not hdigit⟩,
      if_neg hpos, h]

/-- A class that holds every operator character. -/
theorem of_isOperatorChar {p : Char → Bool} (hc : isOperatorChar c = true)
    (hp : (['=', '-', '+', '!', '*', '%', '&', '|', '^', '~', '?'].all p) = true) : p c = true :=
  List.all_eq_true.1 hp c (List.contains_iff_mem.1 hc)

theorem not_isDigit_of_isOperatorChar (hc : isOperatorChar c = true) : c.isDigit = false := by
  simpa using of_isOperatorChar (p := fun d => !d.isDigit) hc (by decide)

/-- A number goes on with a fraction only. -/
theorem goesOn_number_iff (hc : c.isDigit = true) :
    GoesOn (c :: front) ds ↔
      (∀ a ∈ front, isDecimal a = true) ∧ ∃ d r, ds = '.' :: d :: r ∧ d.isDigit = true := by
  have hop : ¬isOperatorChar c = true := fun hop => by
    rw [not_isDigit_of_isOperatorChar hop] at hc
    cases hc
  have hmark : c ≠ '-' ∧ c ≠ '/' ∧ c ≠ '.' ∧ c ≠ '#' := by
    refine ⟨?_, ?_, ?_, ?_⟩ <;> (rintro rfl; revert hc; decide)
  simp [goesOn_cons_iff, hop, hmark, hc]

theorem kind_scanDecimal (tail : List Char) :
    (scanDecimal tail).1 = .integer ∨ (scanDecimal tail).1 = .float ∧ 2 ≤ (scanDecimal tail).2 := by
  unfold scanDecimal
  dsimp only
  split
  · split
    · exact .inr ⟨rfl, by dsimp only; omega⟩
    · exact .inl rfl
  · exact .inl rfl

theorem kind_scanNumber_eq (c : Char) (tail : List Char) :
    (scanNumber c tail).1 = .integer ∨
      (scanNumber c tail).1 = .float ∧ 2 ≤ (scanNumber c tail).2 := by
  have hradix (digit : Char → Bool) (r : List Char) : (scanRadix digit tail r).1 = .integer ∨
      (scanRadix digit tail r).1 = .float ∧ 2 ≤ (scanRadix digit tail r).2 := by
    unfold scanRadix
    dsimp only
    split
    · exact kind_scanDecimal tail
    · exact .inl rfl
  unfold scanNumber
  split
  · exact hradix _ _
  · exact hradix _ _
  · exact hradix _ _
  · exact kind_scanDecimal tail

/-- Without a letter of a radix a number is decimal. -/
theorem scanNumber_eq_scanDecimal {tail : List Char}
    (h : c = '0' → ∀ x ∈ tail.head?, x ∉ ['x', 'o', 'b']) :
    scanNumber c tail = scanDecimal tail := by
  unfold scanNumber
  split
  · exact absurd (by decide) (h rfl _ rfl)
  · exact absurd (by decide) (h rfl _ rfl)
  · exact absurd (by decide) (h rfl _ rfl)
  · rfl

theorem scanNumber_append_iff (h : scanNumber c (front ++ rest) = (k, front.length))
    (hc : c.isDigit = true) (hds : Separated ds) :
    scanNumber c (front ++ ds) = (k, front.length) ↔ ¬GoesOn (c :: front) ds := by
  rw [goesOn_number_iff hc]
  cases front with
  | nil =>
    obtain rfl : k = .integer := by
      have hkinds := kind_scanNumber_eq c ([] ++ rest)
      rw [h] at hkinds
      simpa using hkinds
    have hletter : ∀ x ∈ ds.head?, x ∉ ['x', 'o', 'b'] := fun x hx =>
      of_decide_eq_false (hds.not (p := fun d => d ∈ ['x', 'o', 'b']) (by decide) x hx)
    rw [scanNumber_eq_scanDecimal fun _ => by simpa using hletter]
    have hnil : ∀ a ∈ ([] : List Char), isDecimal a = true := by simp
    simpa using scanDecimal_eq_iff hnil hds
  | cons x front =>
    -- no fraction follows behind a radix, since its letter is no decimal digit
    by_cases hradix : c = '0' ∧ x ∈ ['x', 'o', 'b']
    · obtain ⟨rfl, hx⟩ := hradix
      have hletters : (['x', 'o', 'b'].all fun x => !isDecimal x && x != '.') = true := by decide
      have hnone : isDecimal x = false ∧ x ≠ '.' := by
        simpa using List.all_eq_true.1 hletters x hx
      refine iff_of_true ?_ fun hgo => ?_
      · simp only [List.mem_cons, List.not_mem_nil, or_false] at hx
        obtain rfl | rfl | rfl := hx
        · exact scanRadix_again (by decide) h hnone hds
        · exact scanRadix_again (by decide) h hnone hds
        · exact scanRadix_again (by decide) h hnone hds
      · rw [(List.forall_mem_cons.1 hgo.1).1] at hnone
        cases hnone.1
    · have hletter (r : List Char) :
          scanNumber c (x :: front ++ r) = scanDecimal (x :: front ++ r) :=
        scanNumber_eq_scanDecimal fun hzero y hy hmem =>
          hradix ⟨hzero, by simpa [Option.some.inj hy] using hmem⟩
      rw [hletter] at h ⊢
      obtain hk | ⟨hk, hlen⟩ := kind_scanDecimal (x :: front ++ rest)
      · rw [h] at hk
        obtain rfl : k = .integer := hk
        have hfront := isDecimal_of_scanDecimal h
        rw [scanDecimal_eq_iff hfront hds, and_iff_right hfront]
      · rw [h] at hk
        obtain rfl : k = .float := hk
        exact iff_of_true (scanDecimal_float_again h hds) fun hgo =>
          not_isDecimal_of_scanDecimal h hgo.1

/-! ## operators and marks -/

/-- A run with one more character of its class behind it is longer. -/
theorem length_lt_countWhile {p : Char → Bool} (hfront : ∀ a ∈ front, p a = true)
    (hds : ∃ d ∈ ds.head?, p d = true) : front.length < countWhile p (front ++ ds) := by
  obtain ⟨d, hd, hp⟩ := hds
  cases ds with
  | nil => cases hd
  | cons x ds =>
    obtain rfl : x = d := Option.some.inj hd
    rw [countWhile, List.takeWhile_append_of_pos hfront, List.takeWhile_cons_of_pos hp]
    simp only [List.length_append, List.length_cons]
    omega

theorem scanOperator_minus {tail : List Char} (h : countWhile isOperatorChar tail = 0) :
    scanOperator '-' tail =
      if tail.head? = some '>' then (.arrow, 1) else (.customOperator, 0) := by
  simp [scanOperator, h]

/-- Of one operator character that starts no arrow the kind is always the same. -/
theorem scanOperator_congr {tail tail' : List Char} (h : countWhile isOperatorChar tail = 0)
    (h' : countWhile isOperatorChar tail' = 0) (hc : c ≠ '-') :
    scanOperator c tail = scanOperator c tail' := by
  simp only [scanOperator, h, h', beq_self_eq_true, if_true]
  split <;> first | rfl | exact absurd rfl hc

theorem scanOperator_of_pos {tail : List Char} (h : countWhile isOperatorChar tail ≠ 0) :
    scanOperator c tail = (.customOperator, countWhile isOperatorChar tail) := by
  simp [scanOperator, h]

/-- An operator is a run of operator characters, or an arrow. -/
theorem eq_of_scanOperator (h : scanOperator c (front ++ rest) = (k, front.length)) :
    (∀ a ∈ front, isOperatorChar a = true) ∨ c = '-' ∧ front = ['>'] ∧ k = .arrow := by
  by_cases hzero : countWhile isOperatorChar (front ++ rest) = 0
  · by_cases hc : c = '-'
    · subst hc
      rw [scanOperator_minus hzero] at h
      split at h
      · next hhead =>
        obtain ⟨x, rfl⟩ : ∃ x, front = [x] := List.length_eq_one_iff.1 (congrArg Prod.snd h).symm
        exact .inr ⟨rfl, by simpa using hhead, (congrArg Prod.fst h).symm⟩
      · have hnil : front = [] := List.length_eq_zero_iff.1 (congrArg Prod.snd h).symm
        simp [hnil]
    · have hlen : front.length = 0 := by
        have hsnd : (scanOperator c (front ++ rest)).2 = 0 := by
          simp only [scanOperator, hzero, beq_self_eq_true, if_true]
          split <;> first | rfl | exact absurd rfl hc
        rwa [h] at hsnd
      simp [List.length_eq_zero_iff.1 hlen]
  · rw [scanOperator_of_pos hzero] at h
    exact .inl (countWhile_append_eq_iff.1 (congrArg Prod.snd h)).1

theorem scanOperator_one_iff (h : scanOperator c rest = (k, 0))
    (hds : ∀ d ∈ ds.head?, isOperatorChar d = false) :
    scanOperator c ds = (k, 0) ↔ ¬(c = '-' ∧ ds.head? = some '>') := by
  have hzero : countWhile isOperatorChar rest = 0 := by
    by_contra hpos
    rw [scanOperator_of_pos hpos] at h
    exact hpos (congrArg Prod.snd h)
  have hzero' : countWhile isOperatorChar ds = 0 := by
    cases ds with
    | nil => rfl
    | cons d ds => simp [countWhile, hds d rfl]
  by_cases hminus : c = '-'
  · subst hminus
    rw [scanOperator_minus hzero] at h
    rw [scanOperator_minus hzero']
    split at h <;> split <;> simp_all
  · rw [scanOperator_congr hzero' hzero hminus, h]
    simp [hminus]

theorem scanOperator_append_iff (h : scanOperator c (front ++ rest) = (k, front.length))
    (hc : isOperatorChar c = true) :
    scanOperator c (front ++ ds) = (k, front.length) ↔ ¬GoesOn (c :: front) ds := by
  have hmark : c ≠ '/' ∧ c ≠ '.' ∧ c ≠ '#' := by
    refine ⟨?_, ?_, ?_⟩ <;> (rintro rfl; revert hc; decide)
  have hgo : GoesOn (c :: front) ds ↔
      ((∀ a ∈ front, isOperatorChar a = true) ∧ ∃ d ∈ ds.head?, isOperatorChar d = true) ∨
        (c = '-' ∧ front = [] ∧ ds.head? = some '>') := by
    simp [goesOn_cons_iff, hc, hmark, not_isDigit_of_isOperatorChar hc]
  rw [hgo]
  obtain hrun | ⟨rfl, rfl, rfl⟩ := eq_of_scanOperator h
  · by_cases hnext : ∃ d ∈ ds.head?, isOperatorChar d = true
    · refine iff_of_false (fun hscan => ?_) (not_not.2 (.inl ⟨hrun, hnext⟩))
      have hlt := length_lt_countWhile hrun hnext
      rw [scanOperator_of_pos (by omega)] at hscan
      have hlen : countWhile isOperatorChar (front ++ ds) = front.length := congrArg Prod.snd hscan
      omega
    · have hnone : ∀ d ∈ ds.head?, isOperatorChar d = false := by simpa using hnext
      have hlen : countWhile isOperatorChar (front ++ ds) = front.length :=
        countWhile_append_eq_iff.2 ⟨hrun, hnone⟩
      simp only [hnext, and_false, false_or]
      by_cases hone : front = []
      · subst hone
        simpa using scanOperator_one_iff h hnone
      · have hpos : front.length ≠ 0 := by simpa using hone
        have hpos' : countWhile isOperatorChar (front ++ rest) ≠ 0 := by
          rw [countWhile, List.takeWhile_append_of_pos hrun, List.length_append]
          omega
        rw [scanOperator_of_pos hpos'] at h
        obtain rfl : .customOperator = k := congrArg Prod.fst h
        rw [scanOperator_of_pos (by omega), hlen]
        simp [hone]
  · have harrow : isOperatorChar '>' = false := by decide
    simp [scanOperator, countWhile, harrow]

theorem scanSlash_append_iff (h : scanSlash (front ++ rest) = (.customOperator, front.length)) :
    scanSlash (front ++ ds) = (.customOperator, front.length) ↔ ¬GoesOn ('/' :: front) ds := by
  have hgo : GoesOn ('/' :: front) ds ↔ front = [] ∧ ∃ d ∈ ds.head?, d ∈ ['/', '*', '='] := by
    have hop : isOperatorChar '/' = false := by decide
    have hdigit : Char.isDigit '/' = false := by decide
    simp [goesOn_cons_iff, hop, hdigit]
  rw [hgo]
  cases front with
  | nil =>
    cases ds with
    | nil => simp [scanSlash]
    | cons d ds =>
      by_cases hslash : d = '/'
      · simp [scanSlash, hslash]
      · by_cases hstar : d = '*'
        · simp [scanSlash, hstar]
        · by_cases heq : d = '='
          · simp [scanSlash, heq]
          · simp [scanSlash, hslash, hstar, heq]
  | cons x front =>
    have hx : x = '=' ∧ front = [] := by
      unfold scanSlash at h
      split at h <;> simp_all
    simp [hx, scanSlash]

theorem scanDot_append_iff (h : scanDot (front ++ rest) = (k, front.length)) :
    scanDot (front ++ ds) = (k, front.length) ↔ ¬GoesOn ('.' :: front) ds := by
  have hgo : GoesOn ('.' :: front) ds ↔ front = [] ∧ ds.head? = some '.' ∨
      front = ['.'] ∧ ∃ d ∈ ds.head?, d ∈ ['.', '<'] := by
    have hop : isOperatorChar '.' = false := by decide
    have hdigit : Char.isDigit '.' = false := by decide
    simp [goesOn_cons_iff, hop, hdigit]
  rw [hgo]
  match front, h with
  | [], h =>
    obtain rfl : k = .dot := by
      unfold scanDot at h
      split at h <;> simp_all
    rw [List.nil_append]
    cases ds with
    | nil => simp [scanDot]
    | cons d ds =>
      unfold scanDot
      split <;> simp_all
  | [x], h =>
    obtain ⟨rfl, rfl⟩ : x = '.' ∧ k = .dot := by
      unfold scanDot at h
      split at h <;> simp_all
    cases ds with
    | nil => simp [scanDot]
    | cons d ds =>
      by_cases hdot : d = '.'
      · simp [scanDot, hdot]
      · by_cases hangle : d = '<'
        · simp [scanDot, hangle]
        · simp [scanDot, hdot, hangle]
  | x :: y :: front, h =>
    obtain ⟨rfl, rfl, hkind⟩ : x = '.' ∧ front = [] ∧
        (y = '.' ∧ k = .ellipsis ∨ y = '<' ∧ k = .customOperator) := by
      unfold scanDot at h
      split at h <;> simp_all
    obtain ⟨rfl, rfl⟩ | ⟨rfl, rfl⟩ := hkind <;> simp [scanDot]

/-- Directives are told apart by their own characters. -/
theorem find?_directives {word : List Char × Kind} (h : word ∈ directives) (hds : Separated ds) :
    directives.find? (·.1.isPrefixOf (word.1 ++ ds)) = some word := by
  have hself : ∀ word ∈ directives, directives.find? (·.1.isPrefixOf word.1) = some word := by
    decide
  cases ds with
  | nil => rw [List.append_nil, hself word h]
  | cons d ds =>
    have hedge : ∀ w ∈ directives, d ∉ w.1 := by
      have hall := hds.not (p := fun e => directives.any fun w => w.1.contains e) (by decide) d rfl
      intro w hw
      simpa using List.any_eq_false.1 hall w hw
    have hprefix : ∀ w ∈ directives,
        w.1.isPrefixOf (word.1 ++ d :: ds) = w.1.isPrefixOf word.1 :=
      fun w hw => isPrefixOf_seam ds (hedge w hw)
    rw [← hself word h]
    simp only [directives, List.forall_mem_cons] at hprefix
    simp [directives, List.find?_cons, hprefix]

theorem scanHash_append_iff (h : scanHash (front ++ rest) = (k, front.length))
    (hds : k ≠ .hash → Separated ds) :
    scanHash (front ++ ds) = (k, front.length) ↔ ¬GoesOn ('#' :: front) ds := by
  have hgo : GoesOn ('#' :: front) ds ↔ front = [] ∧ ∃ word ∈ directives, word.1 <+: ds := by
    have hop : isOperatorChar '#' = false := by decide
    have hdigit : Char.isDigit '#' = false := by decide
    simp [goesOn_cons_iff, hop, hdigit]
  have hwords : ∀ word ∈ directives, word.1 ≠ [] ∧ word.2 ≠ .hash := by decide
  rw [hgo]
  unfold scanHash at h ⊢
  split at h
  · next word kind hfind =>
    have hmem := List.mem_of_find?_eq_some hfind
    have hprefix : word <+: front ++ rest := by
      simpa using List.find?_some hfind
    have hlen : word.length = front.length := congrArg Prod.snd h
    obtain rfl : word = front :=
      (List.prefix_of_prefix_length_le hprefix (List.prefix_append front rest)
        (by omega)).eq_of_length hlen
    obtain rfl : kind = k := congrArg Prod.fst h
    rw [find?_directives hmem (hds (hwords _ hmem).2)]
    exact iff_of_true rfl fun hnil => (hwords _ hmem).1 hnil.1
  · have hnil : front = [] := List.length_eq_zero_iff.1 (congrArg Prod.snd h).symm
    obtain rfl : .hash = k := congrArg Prod.fst h
    subst hnil
    cases hfind : directives.find? (·.1.isPrefixOf ([] ++ ds)) with
    | none =>
      have hnone := List.find?_eq_none.1 hfind
      refine iff_of_true rfl fun hgo => ?_
      obtain ⟨-, word, hword, hds⟩ := hgo
      exact hnone word hword (List.isPrefixOf_iff_prefix.2 hds)
    | some word =>
      have hmem := List.mem_of_find?_eq_some hfind
      refine iff_of_false (fun hscan => ?_) (not_not.2 ⟨rfl, word, hmem, ?_⟩)
      · exact (hwords word hmem).2 (congrArg Prod.fst hscan)
      · simpa using List.find?_some hfind

/-! ## texts -/

theorem textLength_pos {tail : List Char} (h : (textLength tail).1 = true) :
    0 < (textLength tail).2 := by
  fun_cases textLength tail <;> simp_all [textLength]

/-- A text on one line that is closed is closed there whatever follows. -/
theorem textLength_again (h : textLength (front ++ rest) = (true, front.length))
    (ds : List Char) : textLength (front ++ ds) = (true, front.length) := by
  fun_induction textLength front with
  | case1 =>
    have hpos := textLength_pos (congrArg Prod.fst h)
    rw [congrArg Prod.snd h] at hpos
    cases hpos
  | case2 =>
    cases rest with
    | nil => simp [textLength] at h
    | cons x rest =>
      by_cases hx : x = '\n' <;> simp [textLength, hx] at h
  | case3 c r hc => simp [textLength, hc] at h
  | case4 c r hc closed n heq ih =>
    simp only [List.cons_append, textLength, hc] at h ⊢
    simp [Prod.ext_iff] at h ih ⊢
    exact ih h.1 h.2
  | case5 c r _ _ hc =>
    obtain rfl : c = '\x22' := by simpa using hc
    simp [textLength] at h ⊢
    exact h
  | case6 c r _ _ _ hc =>
    obtain rfl : c = '\n' := by simpa using hc
    simp [textLength] at h
  | case7 c r hone hmany hquote hbreak closed n heq ih =>
    have hc := ne_backslash hone hmany
    simp [textLength, hc, hquote, hbreak, Prod.ext_iff] at h ih ⊢
    exact ih h.1 h.2

theorem longTextLength_pos {tail : List Char} (h : tail ≠ []) : 0 < longTextLength tail := by
  fun_cases longTextLength tail <;> simp_all

theorem exists_of_append_quotes {r q : List Char} (hlen : 2 ≤ r.length)
    (h : r ++ ds = '\x22' :: '\x22' :: q) : ∃ q, r = '\x22' :: '\x22' :: q := by
  match r, hlen with
  | y :: z :: r, _ =>
    simp only [List.cons_append, List.cons.injEq] at h
    exact ⟨r, by rw [h.1, h.2.1]⟩

/-- A text between triple quotes that ends before something ends there whatever follows: its last
three characters close it. -/
theorem longTextLength_again (hrest : rest ≠ [])
    (h : longTextLength (front ++ rest) = front.length) (ds : List Char) :
    3 ≤ front.length ∧ longTextLength (front ++ ds) = front.length := by
  have hpos := longTextLength_pos hrest
  fun_induction longTextLength front with
  | case1 =>
    rw [List.nil_append] at h
    rw [h] at hpos
    cases hpos
  | case2 =>
    cases rest with
    | nil => exact absurd rfl hrest
    | cons x rest => simp [longTextLength] at h
  | case3 c r ih =>
    simp only [List.cons_append, longTextLength, List.length_cons] at h ⊢
    obtain ⟨hlen, hih⟩ := ih (by omega)
    omega
  | case4 r =>
    simp only [List.cons_append, longTextLength, List.length_cons] at h ⊢
    omega
  | case5 c r hone hescape hquotes ih =>
    have hc := ne_backslash hone hescape
    have hclosed (es : List Char) (hlen : 2 ≤ r.length) :
        ∀ q, c = '\x22' → r ++ es ≠ '\x22' :: '\x22' :: q := by
      intro q hcq heq
      obtain ⟨q', rfl⟩ := exists_of_append_quotes hlen heq
      exact hquotes q' hcq rfl
    have hstep : ∀ q, c = '\x22' → r ++ rest ≠ '\x22' :: '\x22' :: q := by
      intro q hcq heq
      -- three quotes would be all of the text, but they are not
      have hlen : r.length = 2 := by
        rw [List.cons_append, heq, hcq] at h
        simpa [longTextLength] using h.symm
      exact hclosed rest (by omega) q hcq heq
    rw [List.cons_append, longTextLength_cons hc hstep, List.length_cons] at h
    obtain ⟨hlen, hih⟩ := ih (by omega)
    rw [List.cons_append, longTextLength_cons hc (hclosed ds (by omega)), hih, List.length_cons]
    omega

/-- A text that does not start with two more quotes is on one line. -/
theorem scanText_eq_textLength {tail : List Char} (h : ∀ r, tail ≠ '\x22' :: '\x22' :: r) :
    scanText tail = (if (textLength tail).1 then .string else .error, (textLength tail).2) := by
  unfold scanText
  split
  · next r => exact absurd rfl (h r)
  · rfl

theorem scanText_again (h : scanText (front ++ rest) = (.string, front.length))
    (hopen : rest = [] → ds = []) (hds : Separated ds) :
    scanText (front ++ ds) = (.string, front.length) := by
  by_cases hrest : rest = []
  · rwa [hopen hrest, ← hrest]
  by_cases hlong : ∃ r, front = '\x22' :: '\x22' :: r
  · obtain ⟨r, rfl⟩ := hlong
    have hlen : longTextLength (r ++ rest) = r.length := by simpa [scanText] using h
    simp [scanText, (longTextLength_again hrest hlen ds).2]
  · have hquote := hds.not (p := (· == '\x22')) (by decide)
    have hlen {es r : List Char} (htext : front ++ es = '\x22' :: '\x22' :: r) :
        front.length < 2 := by
      by_contra hlen
      exact hlong (exists_of_append_quotes (Nat.le_of_not_lt hlen) htext)
    -- two quotes would start a text of three characters at least
    have hshort (r : List Char) : front ++ rest ≠ '\x22' :: '\x22' :: r := by
      intro htext
      rw [htext] at h
      have hlength : longTextLength r + 2 = front.length := congrArg Prod.snd h
      have := hlen htext
      omega
    have hshort' (r : List Char) : front ++ ds ≠ '\x22' :: '\x22' :: r := by
      intro htext
      have hlength := hlen htext
      cases front with
      | nil => simp_all
      | cons x front =>
        have hzero : front.length = 0 := Nat.lt_one_iff.1 (Nat.lt_of_succ_lt_succ hlength)
        obtain rfl := List.length_eq_zero_iff.1 hzero
        simp_all
    rw [scanText_eq_textLength hshort] at h
    have hclosed : (textLength (front ++ rest)).1 = true := by
      by_contra hnot
      rw [if_neg hnot] at h
      cases h
    rw [if_pos hclosed] at h
    have hlength := textLength_again (Prod.ext hclosed (congrArg Prod.snd h :)) ds
    rw [scanText_eq_textLength hshort', hlength]
    rfl

/-! ## kinds -/

theorem mem_of_lookup_eq_some {α β : Type} [BEq α] [LawfulBEq α] {entries : List (α × β)} {a : α}
    {b : β} (h : entries.lookup a = some b) : (a, b) ∈ entries := by
  obtain ⟨front, others, hentries, -⟩ := List.lookup_eq_some_iff.1 h
  exact hentries ▸ List.mem_append_right front List.mem_cons_self

theorem kind_scanWord_mem (c : Char) (tail : List Char) :
    (scanWord c tail).1 ∈ .identifier :: .error :: words.map (·.2) := by
  unfold scanWord
  dsimp only
  split
  · next kind hkind =>
    have hword := List.mem_map_of_mem (f := (·.2)) (mem_of_lookup_eq_some hkind)
    exact List.mem_cons_of_mem _ (List.mem_cons_of_mem _ hword)
  · split <;> simp

theorem kind_scanNumber_mem (c : Char) (tail : List Char) :
    (scanNumber c tail).1 ∈ [.integer, .float] := by
  obtain hk | ⟨hk, -⟩ := kind_scanNumber_eq c tail <;> simp [hk]

theorem kind_scanOperator_mem (c : Char) (tail : List Char) :
    (scanOperator c tail).1 ∈ [.equals, .question, .bang, .ampersand, .arrow, .customOperator] := by
  unfold scanOperator
  dsimp only
  repeat' split
  all_goals simp

theorem kind_scanSlash_mem (tail : List Char) :
    (scanSlash tail).1 ∈ [.lineComment, .blockComment, .customOperator] := by
  unfold scanSlash
  split <;> simp

theorem kind_scanText_mem (tail : List Char) : (scanText tail).1 ∈ [.string, .error] := by
  unfold scanText
  dsimp only
  repeat' split
  all_goals simp

theorem kind_scanEscapedName_mem (tail : List Char) :
    (scanEscapedName tail).1 ∈ [.identifier, .error] := by
  unfold scanEscapedName
  dsimp only
  split <;> simp

theorem kind_scanDollarName_mem (tail : List Char) :
    (scanDollarName tail).1 ∈ [.identifier, .error] := by
  unfold scanDollarName
  dsimp only
  split <;> simp

theorem kind_scanDot_mem (tail : List Char) :
    (scanDot tail).1 ∈ [.dot, .ellipsis, .customOperator] := by
  unfold scanDot
  split <;> simp

theorem kind_scanHash_mem (tail : List Char) :
    (scanHash tail).1 ∈ .hash :: directives.map (·.2) := by
  unfold scanHash
  split
  · next hfind =>
    exact List.mem_cons_of_mem _ (List.mem_map_of_mem (List.mem_of_find?_eq_some hfind))
  · exact List.mem_cons_self

/-- The kinds of a family that are no trivia. -/
theorem isTrivia_of_mem {ks : List Kind} (hk : k ∈ ks)
    (hks : (ks.all fun k => !k.isTrivia) = true) : k.isTrivia = false := by
  simpa using List.all_eq_true.1 hks k hk

/-- Only a blank or a slash starts trivia. -/
theorem isTrivia_scan (hspace : isSpace c = false) (hslash : c ≠ '/') (tail : List Char) :
    (scan c tail).1.isTrivia = false := by
  cases family c with
  | space hc => exact absurd hc (by simp [hspace])
  | word _ hscan => exact hscan tail ▸ isTrivia_of_mem (kind_scanWord_mem c tail) (by decide)
  | number _ hscan => exact hscan tail ▸ isTrivia_of_mem (kind_scanNumber_mem c tail) (by decide)
  | operator _ hscan =>
    exact hscan tail ▸ isTrivia_of_mem (kind_scanOperator_mem c tail) (by decide)
  | slash hc => exact absurd hc hslash
  | text _ hscan => exact hscan tail ▸ isTrivia_of_mem (kind_scanText_mem tail) (by decide)
  | escapedName _ hscan =>
    exact hscan tail ▸ isTrivia_of_mem (kind_scanEscapedName_mem tail) (by decide)
  | dollarName _ hscan =>
    exact hscan tail ▸ isTrivia_of_mem (kind_scanDollarName_mem tail) (by decide)
  | dot _ hscan => exact hscan tail ▸ isTrivia_of_mem (kind_scanDot_mem tail) (by decide)
  | hash _ hscan => exact hscan tail ▸ isTrivia_of_mem (kind_scanHash_mem tail) (by decide)
  | mark hc hscan =>
    exact hscan tail ▸ isTrivia_of_mem
      (List.mem_map_of_mem (f := (·.2)) (mem_of_lookup_eq_some hc)) (by decide)
  | unknown hscan => exact hscan tail ▸ rfl

/-- Only a blank starts a lexeme of blanks. -/
theorem kind_ne_whitespace (hc : isSpace c = false) (tail : List Char) :
    (scan c tail).1 ≠ .whitespace := by
  by_cases hslash : c = '/'
  · subst hslash
    exact ne_of_mem_of_not_mem (kind_scanSlash_mem tail) (by decide)
  · intro hk
    have htrivia := isTrivia_scan hc hslash tail
    rw [hk] at htrivia
    cases htrivia

/-- The kinds of a family that read as words. -/
theorem readsAsWord_of_mem {ks : List Kind} (hk : k ∈ ks) (hks : ks.all Kind.readsAsWord = true) :
    k.readsAsWord = true := List.all_eq_true.1 hks k hk

theorem readsAsWord_scanWord (c : Char) (tail : List Char) :
    (scanWord c tail).1.readsAsWord = true :=
  readsAsWord_of_mem (kind_scanWord_mem c tail) (by decide)

theorem readsAsWord_scanNumber (c : Char) (tail : List Char) :
    (scanNumber c tail).1.readsAsWord = true :=
  readsAsWord_of_mem (kind_scanNumber_mem c tail) (by decide)

/-- The families that are not of words and texts start with a separator. -/
theorem readsAsWord_or_mem_separators (c : Char) :
    (∀ tail, (scan c tail).1.readsAsWord = true) ∨ c ∈ separators := by
  cases family c with
  | space hc hscan => simp [hscan, Kind.readsAsWord]
  | word hc hscan => simp [hscan, readsAsWord_scanWord]
  | number hc hscan => simp [hscan, readsAsWord_scanNumber]
  | operator hc =>
    exact .inr (by simpa using of_isOperatorChar (p := (· ∈ separators)) hc (by decide))
  | text hc hscan =>
    refine .inl fun tail => ?_
    rw [hscan]
    exact readsAsWord_of_mem (kind_scanText_mem tail) (by decide)
  | escapedName hc hscan =>
    refine .inl fun tail => ?_
    rw [hscan]
    exact readsAsWord_of_mem (kind_scanEscapedName_mem tail) (by decide)
  | dollarName hc hscan =>
    refine .inl fun tail => ?_
    rw [hscan]
    exact readsAsWord_of_mem (kind_scanDollarName_mem tail) (by decide)
  | slash hc | dot hc | hash hc => simp [hc, separators]
  | mark hc =>
    have hmarks : ∀ mark ∈ marks, mark.1 ∈ separators := by decide
    exact .inr (hmarks _ (mem_of_lookup_eq_some hc))
  | unknown hscan => simp [hscan, Kind.readsAsWord]

/-! ## lexemes -/

theorem isLetter_of_isDigit (hc : c.isDigit = true) : (c == '_' || Unicode.isLetter c) = false := by
  have hle : c.val.toNat ≤ 57 := by
    have hbounds : c.val ≥ '0'.val ∧ c.val ≤ '9'.val := by simpa [Char.isDigit] using hc
    exact hbounds.2
  have hne : c ≠ '_' := by
    rintro rfl
    revert hc
    decide
  have hascii : c.toNat < 128 := by
    simp only [Char.toNat]
    omega
  have halpha : c.isAlpha = false := by
    by_contra hnot
    have hcases : (c.isUpper || c.isLower) = true := eq_true_of_ne_false hnot
    obtain hupper | hlower := (Bool.or_eq_true ..).mp hcases
    · have hbounds : c.val ≥ 'A'.val ∧ c.val ≤ 'Z'.val := of_decide_eq_true hupper
      exact absurd (Nat.le_trans hbounds.1 hle) (by decide)
    · have hbounds : (c.val ≥ 'a'.val && c.val ≤ 'z'.val) = true := hlower
      have hge : c.val ≥ 'a'.val := of_decide_eq_true ((Bool.and_eq_true ..).mp hbounds).1
      exact absurd (Nat.le_trans hge hle) (by decide)
  simp [Unicode.isLetter, hne, hascii, halpha]

/-- Words do not go on with what stands apart from them. -/
theorem not_goesOn_letter (hc : (c == '_' || Unicode.isLetter c) = true) :
    ¬GoesOn (c :: front) ds := by
  have hmarks : ∀ mark ∈ ['-', '/', '.', '#'], mark ≠ c := by
    have hall : (['-', '/', '.', '#'].all fun d => !(d == '_' || Unicode.isLetter d)) = true := by
      decide
    rintro mark hmark rfl
    have hnot := List.all_eq_true.1 hall mark hmark
    rw [hc] at hnot
    cases hnot
  refine not_goesOn ?_ (fun hmem => hmarks c hmem rfl) ?_
  · by_contra hop
    have hnot := of_isOperatorChar (p := fun d => !(d == '_' || Unicode.isLetter d))
      (eq_true_of_ne_false hop) (by decide)
    rw [hc] at hnot
    cases hnot
  · by_contra hdigit
    rw [isLetter_of_isDigit (eq_true_of_ne_false hdigit)] at hc
    cases hc

/-- What is scanned is of a kind of its family. -/
theorem mem_of_scanned {p : Kind × Nat} {n : Nat} {ks : List Kind} (h : p = (k, n))
    (hp : p.1 ∈ ks) : k ∈ ks := by
  rwa [h] at hp

/-- A lexeme is cut the same with other characters behind it exactly if it does not go on with
them. -/
theorem scan_append_iff (h : scan c (front ++ rest) = (k, front.length))
    (htrivia : k.isTrivia = false) (herror : k ≠ .error)
    (hword : k.readsAsWord = true → Separated ds) (hopen : k = .string → rest = [] → ds = []) :
    scan c (front ++ ds) = (k, front.length) ↔ ¬GoesOn (c :: front) ds := by
  cases family c with
  | space hc hscan =>
    rw [hscan] at h
    have hk : .whitespace = k := congrArg Prod.fst h
    rw [← hk] at htrivia
    cases htrivia
  | word hc hscan =>
    rw [hscan] at h ⊢
    have hkind := readsAsWord_scanWord c (front ++ rest)
    rw [h] at hkind
    exact iff_of_true (scanWord_again h (hword hkind)) (not_goesOn_letter hc)
  | number hc hscan =>
    rw [hscan] at h ⊢
    have hkind := readsAsWord_scanNumber c (front ++ rest)
    rw [h] at hkind
    exact scanNumber_append_iff h hc (hword hkind)
  | operator hc hscan =>
    rw [hscan] at h ⊢
    exact scanOperator_append_iff h hc
  | slash hc hscan =>
    subst hc
    rw [hscan] at h ⊢
    obtain rfl : k = .customOperator := by
      have hkinds := mem_of_scanned h (kind_scanSlash_mem _)
      simp only [List.mem_cons, List.not_mem_nil, or_false] at hkinds
      obtain rfl | rfl | rfl := hkinds
      · cases htrivia
      · cases htrivia
      · rfl
    exact scanSlash_append_iff h
  | text hc hscan =>
    subst hc
    rw [hscan] at h ⊢
    obtain rfl : k = .string := by
      simpa [herror] using mem_of_scanned h (kind_scanText_mem _)
    exact iff_of_true (scanText_again h (hopen rfl) (hword rfl))
      (not_goesOn (by decide) (by decide) (by decide))
  | escapedName hc hscan =>
    subst hc
    rw [hscan] at h ⊢
    exact iff_of_true (scanEscapedName_again h herror ds)
      (not_goesOn (by decide) (by decide) (by decide))
  | dollarName hc hscan =>
    subst hc
    rw [hscan] at h ⊢
    obtain rfl : k = .identifier := by
      simpa [herror] using mem_of_scanned h (kind_scanDollarName_mem _)
    exact iff_of_true (scanDollarName_again h herror (hword rfl))
      (not_goesOn (by decide) (by decide) (by decide))
  | dot hc hscan =>
    subst hc
    rw [hscan] at h ⊢
    exact scanDot_append_iff h
  | hash hc hscan =>
    subst hc
    rw [hscan] at h ⊢
    have hkinds := mem_of_scanned h (kind_scanHash_mem _)
    refine scanHash_append_iff h fun hk => hword ?_
    exact readsAsWord_of_mem (List.mem_of_ne_of_mem hk hkinds) (by decide)
  | mark hc hscan =>
    have hmarks : ∀ mark ∈ marks, isOperatorChar mark.1 = false ∧
        mark.1 ∉ ['-', '/', '.', '#'] ∧ mark.1.isDigit = false := by decide
    obtain ⟨hop, hmark, hdigit⟩ := hmarks _ (mem_of_lookup_eq_some hc)
    rw [hscan] at h ⊢
    exact iff_of_true h (not_goesOn hop hmark hdigit)
  | unknown hscan =>
    rw [hscan] at h
    exact absurd (congrArg Prod.fst h).symm herror

end SwiftOutline.Lexeme

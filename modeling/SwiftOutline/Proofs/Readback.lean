import SwiftOutline.Proofs.Sugar

/-!
# SwiftOutline.Proofs.Readback

Shapes of types are read back from the text that shows them.

* `IsTypeName`, `TypeShape.Printable` — the shapes that a text stands for;
* `toList_textOfAll` — shapes are shown with commas between them;
* `ReadsBack` and one lemma for each form — what is put together from texts that read back reads
  back, and all but optionals and closures take a suffix;
* `declares_text` — a variable that is declared with the text of a shape has that shape.
-/

namespace SwiftOutline

/-! ## names -/

namespace Lexeme

open Unicode

theorem le_of_isIn {t : List (Nat × Nat)} {n : Nat} {c : Char} (h : ∀ r ∈ t, n ≤ r.1)
    (hc : isIn t c = true) : n ≤ c.toNat := by
  obtain ⟨r, hr, hlow, -⟩ := isIn_iff.1 hc
  exact (h r hr).trans hlow

theorem isIn_of_within {s t : List (Nat × Nat)} {c : Char}
    (h : ∀ r ∈ s, ∃ q ∈ t, q.1 ≤ r.1 ∧ r.2 ≤ q.2) (hc : isIn s c = true) : isIn t c = true := by
  obtain ⟨r, hr, hlow, hhigh⟩ := isIn_iff.1 hc
  obtain ⟨q, hq, hle, hge⟩ := h r hr
  exact isIn_iff.2 ⟨q, hq, hle.trans hlow, hhigh.trans hge⟩

/-- Of the decimal digits of ASCII there is one range, the first. -/
theorem isDigit_of_isIn {c : Char} (hascii : c.toNat < 128) (h : isIn decimalDigits c = true) :
    c.isDigit = true := by
  obtain ⟨r, hr, hlow, hhigh⟩ := isIn_iff.1 h
  obtain rfl | hr := List.mem_cons.1 hr
  · simp only [Char.isDigit, Bool.and_eq_true, decide_eq_true_eq]
    exact ⟨hlow, hhigh⟩
  · have habove : ∀ r ∈ decimalDigits.tail, 128 ≤ r.1 := by decide
    have hle := habove r hr
    omega

theorem isNumber_of_isIn {c : Char}
    (h : isIn decimalDigits c = true ∨ isIn letterNumbers c = true ∨
      isIn numbersContinuing c = true) : isNumber c = true := by
  unfold isNumber
  split
  case isTrue hascii =>
    obtain h | h | h := h
    · exact isDigit_of_isIn hascii h
    · exact absurd (le_of_isIn (n := 128) (by decide) h) (by omega)
    · exact absurd (le_of_isIn (n := 128) (by decide) h) (by omega)
  case isFalse =>
    have hwithin : ∀ r ∈ numbersContinuing, ∃ q ∈ otherNumbers, q.1 ≤ r.1 ∧ r.2 ≤ q.2 := by
      decide
    simp only [Bool.or_eq_true, or_assoc]
    exact h.imp_right (Or.imp_right (isIn_of_within hwithin))

theorem isWordChar_of_continuesName {c : Char} (h : continuesName c = true) :
    isWordChar c = true := by
  simp only [continuesName, Bool.or_eq_true, Bool.and_eq_true, or_assoc] at h
  simp only [isWordChar, Bool.or_eq_true, or_assoc]
  exact h.imp_right (Or.imp And.left isNumber_of_isIn)

theorem isSpace_of_isLetter {c : Char} (h : (c == '_' || isLetter c) = true) :
    isSpace c = false := by
  cases hspace : isSpace c with
  | false => rfl
  | true =>
    have hcases : c = ' ' ∨ c = '\t' ∨ c = '\n' ∨ c = '\r' ∨ c = '\x0c' := by
      simpa [isSpace, or_assoc] using hspace
    obtain rfl | rfl | rfl | rfl | rfl := hcases <;> revert h <;> decide

/-- A letter or underscore and the characters of a name behind it, which are no word of the
language, are cut as one identifier. -/
theorem scan_of_isName {c : Char} {cs : List Char} (h : isName c cs = true)
    (hword : words.lookup (String.ofList (c :: cs)) = none) :
    scan c cs = (.identifier, cs.length) := by
  obtain ⟨hstart, hrest⟩ := Bool.and_eq_true_iff.1 h
  have hletter : (c == '_' || isLetter c) = true := by
    simp only [startsName, Bool.or_eq_true, Bool.and_eq_true] at hstart ⊢
    exact hstart.imp_right And.left
  have htake : cs.takeWhile isWordChar = cs := by
    refine List.takeWhile_eq_self_iff.2 fun d hd => ?_
    exact isWordChar_of_continuesName (List.all_eq_true.1 hrest d hd)
  unfold scan
  rw [isSpace_of_isLetter hletter, if_neg Bool.false_ne_true, if_pos hletter, scanWord, htake]
  simp only [hword, h, if_true]

end Lexeme

/-- A name of a type: one identifier, which neither stands for no value nor is a prefix of types. -/
structure IsTypeName (x : String) : Prop where
  lex : Lexeme.lex x = [⟨.identifier, x⟩]
  plain : x ∉ "Void" :: "some" :: "any" :: Grammar.ownershipNames

theorem IsTypeName.isPlainName {x : String} (h : IsTypeName x) :
    Grammar.IsPlainName x.toList x where
  lex := h.lex
  plain := fun hx => h.plain (List.mem_cons_of_mem _ hx)

/-- So is what the characters of a name spell, but for the words of the language and the others that
are left out. -/
theorem isTypeName_of_isName (c : Char) (cs : List Char) (h : Lexeme.isName c cs = true)
    (hword : Lexeme.words.lookup (String.ofList (c :: cs)) = none)
    (hplain : String.ofList (c :: cs) ∉ "Void" :: "some" :: "any" :: Grammar.ownershipNames) :
    IsTypeName (String.ofList (c :: cs)) where
  lex := by
    have hname := Grammar.isPlainName_of_scan c cs (Lexeme.scan_of_isName h hword) fun hx =>
      hplain (List.mem_cons_of_mem _ hx)
    rw [Lexeme.lex, String.toList_ofList, hname.lex]
  plain := hplain

namespace TypeShape

mutual

/-- Shapes that a text stands for: their simple types are named, an optional wraps no optional, and
a tuple has at least two elements. -/
def Printable : TypeShape → Prop
  | empty => False
  | simple x => IsTypeName x
  | optional t => t.isOptional = false ∧ Printable t
  | array t => Printable t
  | set t => Printable t
  | dictionary k v => Printable k ∧ Printable v
  | tuple ts => 2 ≤ ts.length ∧ PrintableAll ts
  | closure inputs _ _ _ output => PrintableAll inputs ∧ Printable output
  | result s f => Printable s ∧ Printable f
  | void => True

/-- Lists of such shapes. -/
def PrintableAll : List TypeShape → Prop
  | [] => True
  | t :: ts => Printable t ∧ PrintableAll ts

end

/-- Whether a suffix may stand right behind the text of a type. -/
def takesSuffix : TypeShape → Bool
  | optional _ => false
  | closure .. => false
  | _ => true

/-! ## texts -/

/-- The text of a shape, as characters. -/
def chars (s : TypeShape) : List Char := s.text.toList

theorem text_optional {t : TypeShape} (h : t.takesSuffix = true) :
    (optional t).text = t.text ++ "?" := by
  cases t <;> first | rfl | cases h

theorem toList_textOfAll (ts : List TypeShape) :
    (textOfAll ts).toList = Grammar.commaText (ts.map chars) := by
  induction ts with
  | nil => rfl
  | cons t ts ih =>
    cases ts with
    | nil => exact (Grammar.commaText_singleton _).symm
    | cons u ts =>
      rw [textOfAll, String.toList_append, String.toList_append, ih, List.append_assoc]
      rfl

open Grammar

theorem chars_closure (ts : List TypeShape) (isAsync isThrowing : Bool) (s : TypeShape) :
    (closure ts isAsync isThrowing false s).chars =
      '(' :: (commaText (ts.map chars) ++
        ')' :: (effectText isAsync isThrowing ++ arrowText s.chars)) := by
  rw [chars, text]
  simp only [String.toList_append, toList_textOfAll, List.append_assoc]
  cases isAsync <;> cases isThrowing <;> rfl

theorem chars_closure_escaping (ts : List TypeShape) (isAsync isThrowing : Bool)
    (s : TypeShape) :
    (closure ts isAsync isThrowing true s).chars =
      "@escaping ".toList ++ (closure ts isAsync isThrowing false s).chars := by
  rw [chars, chars, text, text]
  simp only [String.toList_append, List.append_assoc]
  rfl

theorem chars_array (t : TypeShape) : (array t).chars = '[' :: (t.chars ++ [']']) :=
  toList_around ..

theorem chars_set (t : TypeShape) : (set t).chars = "Set".toList ++ '<' :: (t.chars ++ ['>']) :=
  toList_around ..

theorem chars_dictionary (s t : TypeShape) :
    (dictionary s t).chars = '[' :: (s.chars ++ ':' :: ' ' :: (t.chars ++ [']'])) :=
  toList_around_two ..

theorem chars_result (s t : TypeShape) :
    (result s t).chars =
      "Result".toList ++ '<' :: (s.chars ++ ',' :: ' ' :: (t.chars ++ ['>'])) :=
  toList_around_two ..

theorem chars_tuple (ts : List TypeShape) :
    (tuple ts).chars = '(' :: (commaText (ts.map chars) ++ [')']) := by
  rw [← toList_textOfAll]
  exact toList_around ..

theorem chars_optional_closure (ts : List TypeShape) (isAsync isThrowing isEscaping : Bool)
    (s : TypeShape) :
    (optional (closure ts isAsync isThrowing isEscaping s)).chars =
      '(' :: ((closure ts isAsync isThrowing isEscaping s).chars ++ [')']) ++ ['?'] := by
  rw [chars, text, toList_around, List.cons_append, List.append_assoc]
  rfl

theorem ofElements_map {ts : List TypeShape} (h : 2 ≤ ts.length) :
    ofElements (ts.map fun t => ⟨t, false, false⟩) = tuple ts := by
  have hvalues : (ts.map fun t => (⟨t, false, false⟩ : Element)).map Element.value = ts := by
    rw [List.map_map]
    exact List.map_id ts
  match ts, h with
  | t :: u :: ts, _ => exact congrArg tuple hvalues

/-! ## forms -/

/-- The text of a shape reads as that shape. A suffix may follow it, unless the shape is an optional
or a closure. -/
structure ReadsBack (s : TypeShape) : Prop where
  spells : Spells s.chars s
  primary (h : s.takesSuffix = true) : SpellsPrimary s.chars s

namespace ReadsBack

variable {s t : TypeShape} {ts : List TypeShape}

theorem of_primary (h : SpellsPrimary s.chars s) : ReadsBack s := ⟨h.spells, fun _ => h⟩

theorem simple {x : String} (h : IsTypeName x) : ReadsBack (.simple x) :=
  of_primary (h.isPlainName.simple fun hx => h.plain (hx ▸ List.mem_cons_self))

theorem void : ReadsBack .void :=
  of_primary ((isPlainName_known "Void" (by decide)).spellsName.primary rfl)

theorem array (h : ReadsBack t) : ReadsBack (.array t) :=
  of_primary (chars_array t ▸ h.spells.array)

theorem set (h : ReadsBack t) : ReadsBack (.set t) := by
  have hname := isPlainName_known "Set" (by decide)
  exact of_primary (chars_set t ▸ (hname.spellsName_one h.spells).primary rfl)

theorem dictionary (hs : ReadsBack s) (ht : ReadsBack t) : ReadsBack (.dictionary s t) :=
  of_primary (chars_dictionary s t ▸ hs.spells.dictionary ht.spells)

theorem result (hs : ReadsBack s) (ht : ReadsBack t) : ReadsBack (.result s t) := by
  have hname := isPlainName_known "Result" (by decide)
  exact of_primary (chars_result s t ▸ (hname.spellsName_two hs.spells ht.spells).primary rfl)

theorem tuple (h : List.Forall₂ Spells (ts.map chars) ts) (hlen : 2 ≤ ts.length) :
    ReadsBack (.tuple ts) := by
  have hspells := spells_tuple h
  rw [ofElements_map hlen] at hspells
  exact of_primary (chars_tuple ts ▸ hspells)

theorem closure (h : List.Forall₂ Spells (ts.map chars) ts) (hs : ReadsBack s)
    (isAsync isThrowing isEscaping : Bool) :
    ReadsBack (.closure ts isAsync isThrowing isEscaping s) where
  spells := by
    have hspells := spells_function isAsync isThrowing h hs.spells
    cases isEscaping
    · rwa [chars_closure]
    · rw [chars_closure_escaping, chars_closure]
      exact hspells.escaping
  primary := by
    rintro ⟨⟩

/-- A closure is put in parentheses before its suffix. -/
theorem optional (h : ReadsBack t) (ht : t.isOptional = false) : ReadsBack (.optional t) where
  spells := by
    cases hsuffix : t.takesSuffix with
    | true =>
      have hchars : (TypeShape.optional t).chars = t.chars ++ ['?'] := by
        rw [chars, text_optional hsuffix, String.toList_append]
        rfl
      exact hchars ▸ (h.primary hsuffix).question
    | false =>
      cases t with
      | closure ts isAsync isThrowing isEscaping s =>
        rw [chars_optional_closure]
        exact h.spells.parenthesized.question
      | optional u => cases ht
      | _ => cases hsuffix
  primary := by
    rintro ⟨⟩

end ReadsBack

mutual

/-- The text of a printable shape reads as that shape. -/
theorem readsBack {s : TypeShape} (h : s.Printable) : ReadsBack s := by
  cases s with
  | empty => exact h.elim
  | simple x => exact .simple h
  | optional t => exact (readsBack h.2).optional h.1
  | array t => exact (readsBack (s := t) h).array
  | set t => exact (readsBack (s := t) h).set
  | dictionary k v => exact (readsBack h.1).dictionary (readsBack h.2)
  | tuple ts => exact .tuple (spells_chars h.2) h.1
  | closure ts isAsync isThrowing isEscaping s =>
    exact .closure (spells_chars h.1) (readsBack h.2) isAsync isThrowing isEscaping
  | result s f => exact (readsBack h.1).result (readsBack h.2)
  | void => exact .void

theorem spells_chars {ts : List TypeShape} (h : PrintableAll ts) :
    List.Forall₂ Spells (ts.map chars) ts := by
  cases ts with
  | nil => exact .nil
  | cons t ts => exact .cons (readsBack h.1).spells (spells_chars h.2)

end

end TypeShape

/-- A variable that is declared with the text of a shape is read without faults, and has that
shape. -/
theorem declares_text {s : TypeShape} (h : s.Printable) : Declares s.text s :=
  (TypeShape.readsBack h).spells.declares

/-- A handler that is not always there. -/
theorem declares_text_handler :
    (TypeShape.optional (.closure [.tuple [.simple "Int", .void]] true true true
      (.dictionary (.simple "Int") (.optional (.simple "Int"))))).Printable ∧
    Declares "(@escaping ((Int, Void)) async throws -> [Int: Int?])?"
      (.optional (.closure [.tuple [.simple "Int", .void]] true true true
        (.dictionary (.simple "Int") (.optional (.simple "Int"))))) := by
  have hname : IsTypeName "Int" := isTypeName_of_isName 'I' "nt".toList (by decide) rfl (by decide)
  have hprintable : (TypeShape.optional (.closure [.tuple [.simple "Int", .void]] true true true
      (.dictionary (.simple "Int") (.optional (.simple "Int"))))).Printable :=
    ⟨rfl, ⟨⟨by decide, hname, trivial, trivial⟩, trivial⟩, hname, rfl, hname⟩
  exact ⟨hprintable, declares_text hprintable⟩

end SwiftOutline

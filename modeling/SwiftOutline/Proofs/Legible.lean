import SwiftOutline.Proofs.Complete
import SwiftOutline.Proofs.Shown

/-!
# SwiftOutline.Proofs.Legible

Which types of a source file are legible, so that they are told by what they are shown as.

* `TypeShape.simples` — the texts of the simple types in a shape;
* `TypeShape.legible_iff` — a shape is legible if no type is missing in it and each of these texts,
  up to the question marks at its end, is one of a simple type;
* `IsPlainText` — texts that begin with a name: paths with generic arguments, compositions of such
  with other types, and types with a prefix;
* `IsPlainText.isSimple` — all of them are texts of simple types;
* `Site.shown_alike_iff` — what this means for the types of source files without faults.

Outside are texts that begin like that of another shape: a composition that begins with a type in
parentheses or brackets, as `(A & B) & C`, a type in a set or a result, as `Set<A>.Index`, and
either of them with arguments of a number that they do not take.
-/

namespace SwiftOutline

/-! ## plain texts -/

/-- Names with a shape of their own if they have arguments. -/
def shapedNames : List (List Char) := [['S', 'e', 't'], ['R', 'e', 's', 'u', 'l', 't']]

/-- Characters with a part in the text of a shape. -/
def shapeMarks : List Char := ['(', '[', '<', ')', ']', '>', ',', ':', '-', '?', '@']

/-- Texts of types that begin with a name. Behind a blank anything may stand, since the name is then
that of the first type in a composition, or a prefix. -/
inductive IsPlainText : List Char → Prop where
  | name {c : Char} {cs : List Char} (h : Lexeme.isName c cs = true) : IsPlainText (c :: cs)
  | member {cs : List Char} {d : Char} {ds : List Char} (hcs : IsPlainText cs)
      (h : Lexeme.isName d ds = true) : IsPlainText (cs ++ '.' :: d :: ds)
  | arguments {cs : List Char} {dss : List (List Char)} (hcs : IsPlainText cs)
      (hname : cs ∉ shapedNames) (h : ∀ ds ∈ dss, Closed ds) :
      IsPlainText (cs ++ '<' :: (Grammar.commaText dss ++ ['>']))
  | spaced {cs ds : List Char} (hcs : IsPlainText cs) (h : Closed ds)
      (hlast : ds.getLast? ≠ some '?') : IsPlainText (cs ++ ' ' :: ds)

/-- The characters of a name are no brackets and no marks. -/
theorem notMem_of_isName {c : Char} {cs : List Char} (h : Lexeme.isName c cs = true) :
    ∀ d ∈ c :: cs, d ∉ shapeMarks := by
  have hmarks : ∀ m ∈ shapeMarks, Lexeme.isWordChar m = false := by
    intro m hm
    simp only [shapeMarks, List.mem_cons, List.not_mem_nil, or_false] at hm
    obtain rfl | rfl | rfl | rfl | rfl | rfl | rfl | rfl | rfl | rfl | rfl := hm <;> decide
  obtain ⟨hstart, hrest⟩ := Bool.and_eq_true_iff.1 h
  have hword : ∀ d ∈ c :: cs, Lexeme.isWordChar d = true := by
    refine List.forall_mem_cons.2 ⟨?_, fun d hd => ?_⟩
    · simp only [Unicode.startsName, Bool.or_eq_true, Bool.and_eq_true] at hstart
      simp only [Lexeme.isWordChar, Bool.or_eq_true]
      exact .inl (hstart.imp_right And.left)
    · exact Lexeme.isWordChar_of_continuesName (List.all_eq_true.1 hrest d hd)
  exact fun d hd hmark => Bool.false_ne_true ((hmarks d hmark).symm.trans (hword d hd))

/-- A text without brackets and marks is closed. -/
theorem closed_of_notMem {cs : List Char} (h : ∀ c ∈ cs, c ∉ shapeMarks) : Closed cs := by
  induction cs with
  | nil => rfl
  | cons c cs ih =>
    obtain ⟨hc, hcs⟩ := List.forall_mem_cons.1 h
    have hstep : Nesting.outside.step c = some Nesting.outside := by
      simp_all [shapeMarks, Nesting.step, Nesting.outside]
    show Nesting.outside.behind ([c] ++ cs) = some Nesting.outside
    rw [Nesting.behind_append, Nesting.behind, List.foldlM_cons, hstep]
    exact ih hcs

theorem closed_of_isName {c : Char} {cs : List Char} (h : Lexeme.isName c cs = true) :
    Closed (c :: cs) := closed_of_notMem (notMem_of_isName h)

theorem getLast?_of_isName {c : Char} {cs : List Char} (h : Lexeme.isName c cs = true) :
    (c :: cs).getLast? ≠ some '?' := fun hlast =>
  notMem_of_isName h '?' (List.mem_of_getLast? hlast) (by decide)

/-! ## what they begin with -/

/-- A text begins like that of no shape but a simple type. -/
def BeginsPlain (cs : List Char) : Prop :=
  (∀ c ∈ cs.head?, c ∉ ['[', '(', '@']) ∧ ∀ v ∈ shapedNames, ¬v ++ ['<'] <+: cs

namespace BeginsPlain
variable {cs ds : List Char} {d : Char}

/-- So does a longer text, unless what is added makes a name with arguments of a shape. -/
theorem append (h : BeginsPlain cs) (hne : cs ≠ []) (hd : d ∈ ['.', ' ', '<'])
    (hname : d = '<' → cs ∉ shapedNames) : BeginsPlain (cs ++ d :: ds) := by
  refine ⟨by rw [List.head?_append_of_ne_nil cs hne]; exact h.1, fun v hv hbegin => ?_⟩
  have hnew : v ++ ['<'] ≠ cs ++ [d] := by
    intro heq
    obtain ⟨rfl, hmark⟩ := List.append_inj' heq rfl
    exact hname (List.cons.inj hmark).1.symm hv
  have hshort : cs ++ [d] <+: cs ++ d :: ds := ⟨ds, by simp⟩
  obtain hle | hle := List.prefix_or_prefix_of_prefix hbegin hshort
  · obtain heq | hold := List.prefix_concat_iff.1 hle
    · exact hnew heq
    · exact h.2 v hv hold
  · obtain heq | hpart := List.prefix_concat_iff.1 hle
    · exact hnew heq.symm
    · have hmarks : ∀ v ∈ shapedNames, ∀ m ∈ ['.', ' ', '<'], m ∉ v := by
        simp [shapedNames]
      exact hmarks v hv d hd (hpart.subset (by simp))

theorem opening (h : BeginsPlain cs) (hvoid : cs ≠ "Void".toList) :
    Opening.ofChars cs = .name := by
  unfold Opening.ofChars
  split
  · exact absurd (h.1 _ rfl) (by decide)
  · exact absurd (h.1 _ rfl) (by decide)
  · exact absurd (h.1 _ rfl) (by decide)
  · exact absurd ⟨_, rfl⟩ (h.2 ['S', 'e', 't'] (by decide))
  · exact absurd ⟨_, rfl⟩ (h.2 ['R', 'e', 's', 'u', 'l', 't'] (by decide))
  · exact absurd rfl hvoid
  · rfl

theorem of_isName {c : Char} (h : Lexeme.isName c cs = true) : BeginsPlain (c :: cs) := by
  have hmarks := notMem_of_isName h
  refine ⟨?_, fun v _ hbegin => hmarks '<' (hbegin.subset (by simp)) (by decide)⟩
  rintro _ ⟨⟩ hc
  have hopen : ∀ m ∈ ['[', '(', '@'], m ∈ shapeMarks := by simp [shapeMarks]
  exact hmarks c List.mem_cons_self (hopen c hc)

end BeginsPlain

namespace IsPlainText
variable {cs : List Char}

theorem ne_nil (h : IsPlainText cs) : cs ≠ [] := by
  cases h <;> simp

theorem closed (h : IsPlainText cs) : Closed cs := by
  induction h with
  | name h => exact closed_of_isName h
  | member _ h ih => exact ih.append ((show Closed ['.'] from rfl).append (closed_of_isName h))
  | arguments _ _ h ih => exact ih.append (behind_commaText h 0 ['>'])
  | spaced _ h _ ih => exact ih.append ((show Closed [' '] from rfl).append h)

theorem last (h : IsPlainText cs) : cs.getLast? ≠ some '?' := by
  cases h with
  | name h => exact getLast?_of_isName h
  | member _ h => simpa [List.getLast?_append, List.getLast?_cons] using getLast?_of_isName h
  | arguments => simp [List.getLast?_append, List.getLast?_cons]
  | @spaced cs ds _ _ hlast =>
    cases hds : ds.getLast? with
    | none => simp [List.getLast?_append, List.getLast?_cons, hds]
    | some d => simpa [List.getLast?_append, List.getLast?_cons, hds] using hlast

theorem beginsPlain (h : IsPlainText cs) : BeginsPlain cs := by
  induction h with
  | name h => exact .of_isName h
  | member hcs _ ih => exact ih.append hcs.ne_nil (by decide) nofun
  | arguments hcs hname _ ih => exact ih.append hcs.ne_nil (by decide) fun _ => hname
  | spaced hcs _ _ ih => exact ih.append hcs.ne_nil (by decide) nofun

/-- A plain text is one of a simple type. -/
theorem isSimple (h : IsPlainText cs) (hvoid : cs ≠ "Void".toList) : IsSimple cs :=
  ⟨h.closed, h.ne_nil, h.last, h.beginsPlain.opening hvoid⟩

/-- A member with arguments, composed with a type in parentheses. -/
example : IsPlainText "A.B<[C]> & (D & E)".toList := by
  have hmember : IsPlainText (['A'] ++ '.' :: 'B' :: []) := .member (.name rfl) rfl
  have harguments : IsPlainText (_ ++ '<' :: (Grammar.commaText ["[C]".toList] ++ ['>'])) :=
    hmember.arguments (by decide) (by decide)
  exact harguments.spaced (by decide) (by decide)

end IsPlainText

/-! ## shapes -/

namespace TypeShape

mutual

/-- The texts of the simple types in a shape. -/
def simples : TypeShape → List String
  | simple x => [x]
  | optional t => simples t
  | array t => simples t
  | set t => simples t
  | dictionary k v => simples k ++ simples v
  | tuple ts => simplesOf ts
  | closure inputs _ _ _ output => simplesOf inputs ++ simples output
  | result s f => simples s ++ simples f
  | empty => []
  | void => []

/-- So for lists of shapes. -/
def simplesOf : List TypeShape → List String
  | [] => []
  | t :: ts => simples t ++ simplesOf ts

end

/-- The text of a simple type without the question marks at its end. -/
def unmarked (x : String) : List Char := x.toList.rdropWhile (· == '?')

mutual

/-- A shape is legible just if no type is missing and the texts of its simple types are such. -/
theorem legible_iff (s : TypeShape) :
    s.Legible ↔ s.Complete ∧ ∀ x ∈ s.simples, IsSimple (unmarked x) := by
  cases s with
  | empty => simp [Legible, Complete]
  | simple x => simp [Legible, Complete, simples, unmarked]
  | optional t => exact legible_iff t
  | array t => exact legible_iff t
  | set t => exact legible_iff t
  | dictionary k v =>
    rw [Legible, Complete, simples, List.forall_mem_append, legible_iff k, legible_iff v]
    exact and_and_and_comm
  | tuple ts => exact legibleAll_iff ts
  | closure inputs _ _ _ output =>
    rw [Legible, Complete, simples, List.forall_mem_append, legibleAll_iff inputs,
      legible_iff output]
    exact and_and_and_comm
  | result s f =>
    rw [Legible, Complete, simples, List.forall_mem_append, legible_iff s, legible_iff f]
    exact and_and_and_comm
  | void => simp [Legible, Complete, simples]

theorem legibleAll_iff (ts : List TypeShape) :
    LegibleAll ts ↔ CompleteAll ts ∧ ∀ x ∈ simplesOf ts, IsSimple (unmarked x) := by
  cases ts with
  | nil => simp [LegibleAll, CompleteAll, simplesOf]
  | cons t ts =>
    rw [LegibleAll, CompleteAll, simplesOf, List.forall_mem_append, legible_iff t,
      legibleAll_iff ts]
    exact and_and_and_comm

end

/-- The simple types of a shape have plain texts. -/
def HasPlainTexts (s : TypeShape) : Prop :=
  ∀ x ∈ s.simples, IsPlainText (unmarked x) ∧ unmarked x ≠ "Void".toList

/-- What begins like another shape is not legible, though its brackets close. -/
example : Closed "(A & B) & C".toList ∧ ¬(simple "(A & B) & C").Legible :=
  ⟨by decide, fun h => absurd (IsSimple.opening h) (by decide)⟩

end TypeShape

/-! ## source files -/

namespace Site

open TypeShape

variable {source : String} {s : Site}

/-- The types of a source file without faults are legible just if the texts of their simple types
are such. -/
theorem legible_iff_of_mem_all (hclean : (parse source).faults = [])
    (h : s ∈ all (parse source).tree) (ht : s.node.tree.isType = true) :
    (ofTree s.node.tree).Legible ↔
      ∀ x ∈ (ofTree s.node.tree).simples, IsSimple (unmarked x) :=
  (legible_iff _).trans (and_iff_right (complete_ofTree_of_mem_all hclean h ht))

/-- So they are if these texts begin with names. -/
theorem legible_of_mem_all (hclean : (parse source).faults = [])
    (h : s ∈ all (parse source).tree) (ht : s.node.tree.isType = true)
    (hplain : (ofTree s.node.tree).HasPlainTexts) : (ofTree s.node.tree).Legible :=
  (legible_iff_of_mem_all hclean h ht).2 fun x hx => (hplain x hx).1.isSimple (hplain x hx).2

/-- Two types of source files without faults, whose simple types begin with names, are shown alike
just if they are the same up to where question marks belong. -/
theorem shown_alike_iff {source' : String} {s' : Site} (hclean : (parse source).faults = [])
    (hclean' : (parse source').faults = []) (h : s ∈ all (parse source).tree)
    (h' : s' ∈ all (parse source').tree) (ht : s.node.tree.isType = true)
    (ht' : s'.node.tree.isType = true) (hplain : (ofTree s.node.tree).HasPlainTexts)
    (hplain' : (ofTree s'.node.tree).HasPlainTexts) :
    (ofTree s.node.tree).text = (ofTree s'.node.tree).text ↔
      (ofTree s.node.tree).parted = (ofTree s'.node.tree).parted := by
  rw [← String.toList_inj]
  exact chars_eq_iff (legible_of_mem_all hclean h ht hplain)
    (legible_of_mem_all hclean' h' ht' hplain')

end Site

end SwiftOutline

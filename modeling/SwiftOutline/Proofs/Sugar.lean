import SwiftOutline.Proofs.Annotation

/-!
# SwiftOutline.Proofs.Sugar

The spellings of a type. Brackets, suffixes and parentheses say the same as the names of the types
that they stand for, with or without the module that these come from.

* `IsPlainName.spellsName_one`, `IsPlainName.spellsName_two`, `Spells.parenthesized` — texts in
  angle brackets and in parentheses;
* `Spells.array_spellings`, `Spells.optional_spellings`, `Spells.dictionary_spellings`,
  `void_spellings` — all spellings of one type have one shape;
* `declares_spellings` — so have variables that are declared with them.
-/

namespace SwiftOutline

namespace Grammar

open Lexeme (lexChars)
open TypeShape (ofName? ofElements)

variable {cs ds : List Char} {s u : TypeShape}

/-! ## names -/

/-- The names of the types that have shapes of their own. -/
theorem isPlainName_known :
    ∀ x ∈ ["Optional", "Array", "Set", "Dictionary", "Result", "Void"], IsPlainName x.toList x := by
  simp only [List.forall_mem_cons, List.not_mem_nil, false_implies, implies_true, and_true]
  refine ⟨?optional, ?array, ?set, ?dictionary, ?result, ?void⟩
  case optional => exact isPlainName_of_scan 'O' "ptional".toList rfl (by decide)
  case array => exact isPlainName_of_scan 'A' "rray".toList rfl (by decide)
  case set => exact isPlainName_of_scan 'S' "et".toList rfl (by decide)
  case dictionary => exact isPlainName_of_scan 'D' "ictionary".toList rfl (by decide)
  case result => exact isPlainName_of_scan 'R' "esult".toList rfl (by decide)
  case void => exact isPlainName_of_scan 'V' "oid".toList rfl (by decide)

theorem commaText_singleton (cs : List Char) : commaText [cs] = cs := List.append_nil cs

theorem commaText_pair (cs ds : List Char) : commaText [cs, ds] = cs ++ ',' :: ' ' :: ds := by
  rw [commaText, List.flatMap_singleton]

namespace IsPlainName

variable {x : String} {names : List Char}

/-- A name with one argument. -/
theorem spellsName_one (h : IsPlainName names x) (hs : Spells cs s) :
    SpellsName (names ++ '<' :: (cs ++ ['>'])) x [s] := by
  have hname := h.spellsName_arguments (.cons hs .nil)
  rwa [commaText_singleton] at hname

/-- A name with two arguments. -/
theorem spellsName_two (h : IsPlainName names x) (hs : Spells cs s) (hu : Spells ds u) :
    SpellsName (names ++ '<' :: (cs ++ ',' :: ' ' :: (ds ++ ['>']))) x [s, u] := by
  have hname := h.spellsName_arguments (.cons hs (.cons hu .nil))
  rwa [commaText_pair, List.append_assoc] at hname

end IsPlainName

/-! ## spellings -/

theorem toList_around (x y text : String) :
    (x ++ text ++ y).toList = x.toList ++ (text.toList ++ y.toList) := by
  simp only [String.toList_append, List.append_assoc]

theorem toList_around_two (x y z first second : String) :
    (x ++ first ++ y ++ second ++ z).toList =
      x.toList ++ (first.toList ++ (y.toList ++ (second.toList ++ z.toList))) := by
  simp only [String.toList_append, List.append_assoc]

namespace Spells

variable {text first second : String}

/-- A type in parentheses is itself. -/
theorem parenthesized (h : Spells cs s) : SpellsPrimary ('(' :: (cs ++ [')'])) s := by
  have htuple := spells_tuple (.cons h .nil)
  rwa [commaText_singleton] at htuple

/-- An array of a type. -/
theorem array_spellings (h : Spells text.toList s) :
    ∀ x ∈ ["[" ++ text ++ "]", "Array<" ++ text ++ ">", "Swift.Array<" ++ text ++ ">"],
      Spells x.toList (.array s) := by
  have hname := (isPlainName_known "Array" (by decide)).spellsName_one h
  simp only [List.forall_mem_cons, List.not_mem_nil, false_implies, implies_true, and_true,
    toList_around]
  refine ⟨?brackets, ?name, ?qualified⟩
  case brackets => exact h.array.spells
  case name => exact (hname.primary rfl).spells
  case qualified => exact (hname.qualified rfl).spells

/-- An optional of a type. -/
theorem optional_spellings (h : Spells text.toList s) :
    ∀ x ∈ ["(" ++ text ++ ")?", "(" ++ text ++ ")!", "Optional<" ++ text ++ ">",
      "Swift.Optional<" ++ text ++ ">"], Spells x.toList (.optional s) := by
  have hname := (isPlainName_known "Optional" (by decide)).spellsName_one h
  have hsuffix (c : Char) : '(' :: (text.toList ++ [')']) ++ [c] =
      '(' :: (text.toList ++ [')', c]) := by
    simp only [List.cons_append, List.append_assoc, List.nil_append]
  simp only [List.forall_mem_cons, List.not_mem_nil, false_implies, implies_true, and_true,
    toList_around]
  refine ⟨?question, ?bang, ?name, ?qualified⟩
  case question =>
    have hquestion := h.parenthesized.question
    rw [hsuffix] at hquestion
    exact hquestion
  case bang =>
    have hbang := h.parenthesized.bang
    rw [hsuffix] at hbang
    exact hbang
  case name => exact (hname.primary rfl).spells
  case qualified => exact (hname.qualified rfl).spells

/-- A dictionary of two types. -/
theorem dictionary_spellings (h : Spells first.toList s) (hvalue : Spells second.toList u) :
    ∀ x ∈ ["[" ++ first ++ ": " ++ second ++ "]", "Dictionary<" ++ first ++ ", " ++ second ++ ">",
      "Swift.Dictionary<" ++ first ++ ", " ++ second ++ ">"],
      Spells x.toList (.dictionary s u) := by
  have hname := (isPlainName_known "Dictionary" (by decide)).spellsName_two h hvalue
  simp only [List.forall_mem_cons, List.not_mem_nil, false_implies, implies_true, and_true,
    toList_around_two]
  refine ⟨?brackets, ?name, ?qualified⟩
  case brackets => exact (h.dictionary hvalue).spells
  case name => exact (hname.primary rfl).spells
  case qualified => exact (hname.qualified rfl).spells

end Spells

/-- The type without values of its own. -/
theorem void_spellings : ∀ x ∈ ["()", "Void", "Swift.Void"], Spells x.toList .void := by
  have hname := (isPlainName_known "Void" (by decide)).spellsName
  simp only [List.forall_mem_cons, List.not_mem_nil, false_implies, implies_true, and_true]
  refine ⟨?parentheses, ?name, ?qualified⟩
  case parentheses => exact (spells_tuple .nil).spells
  case name => exact (hname.primary rfl).spells
  case qualified => exact (hname.qualified rfl).spells

end Grammar

open Grammar (spells_of_annotates void_spellings)

/-- Variables whose types are spelled in any of these ways have the shapes that these stand for,
and no fault is found, if the parts of the types are read without one. -/
theorem declares_spellings {text key value : String} {s k v : TypeShape} (h : Annotates text s)
    (hkey : Annotates key k) (hvalue : Annotates value v) :
    (∀ x ∈ ["[" ++ text ++ "]", "Array<" ++ text ++ ">", "Swift.Array<" ++ text ++ ">"],
      Declares x (.array s)) ∧
    (∀ x ∈ ["(" ++ text ++ ")?", "(" ++ text ++ ")!", "Optional<" ++ text ++ ">",
      "Swift.Optional<" ++ text ++ ">"], Declares x (.optional s)) ∧
    (∀ x ∈ ["[" ++ key ++ ": " ++ value ++ "]", "Dictionary<" ++ key ++ ", " ++ value ++ ">",
      "Swift.Dictionary<" ++ key ++ ", " ++ value ++ ">"], Declares x (.dictionary k v)) ∧
    Declares ("(" ++ text ++ ")") s ∧
    ∀ x ∈ ["()", "Void", "Swift.Void"], Declares x .void := by
  have htype := spells_of_annotates h
  have hdictionary := (spells_of_annotates hkey).dictionary_spellings (spells_of_annotates hvalue)
  refine ⟨?array, ?optional, ?dictionary, ?parentheses, ?void⟩
  case array => exact fun x hx => (htype.array_spellings x hx).declares
  case optional => exact fun x hx => (htype.optional_spellings x hx).declares
  case dictionary => exact fun x hx => (hdictionary x hx).declares
  case parentheses =>
    have hchars := Grammar.toList_around "(" ")" text
    exact Grammar.Spells.declares (hchars ▸ htype.parenthesized.spells)
  case void => exact fun x hx => (void_spellings x hx).declares

/-- Handlers by name, and lists of them. -/
theorem declares_spellings_handlers :
    Annotates "String" (.simple "String") ∧
      Annotates "() -> Void" (.closure [] false false false .void) ∧
      Declares "Swift.Dictionary<String, () -> Void>"
        (.dictionary (.simple "String") (.closure [] false false false .void)) ∧
      Declares "[() -> Void]" (.array (.closure [] false false false .void)) := by
  have hname := Grammar.isPlainName_of_scan 'S' "tring".toList rfl (by decide)
  have hstring : Grammar.Spells "String".toList (.simple "String") :=
    (hname.simple (by decide)).spells
  have hvoid : Grammar.Spells "Void".toList .void := void_spellings "Void" (by decide)
  have hhandler : Grammar.Spells "() -> Void".toList (.closure [] false false false .void) :=
    Grammar.spells_function false false .nil hvoid
  have hkey := hstring.annotates
  have hvalue := hhandler.annotates
  obtain ⟨harray, -, hdictionary, -⟩ := declares_spellings hvalue hkey hvalue
  exact ⟨hkey, hvalue, hdictionary _ (by decide), harray _ (by decide)⟩

end SwiftOutline

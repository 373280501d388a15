import SwiftOutline.Kind

/-!
# SwiftOutline.Lexeme

Pieces of source text with their kinds, and where such pieces lie when they are laid one
after the other.

* `Lexeme` — a kind and a text;
* `Span` — a range of bytes;
* `sizeOfAll`, `textOfAll` — the bytes and the text that a run of lexemes covers.
-/

namespace SwiftOutline

/-- A range of bytes, its end excluded. -/
structure Span where
  start : Nat
  stop : Nat
  deriving DecidableEq, Repr, Inhabited

/-- A piece of source text and its kind. -/
structure Lexeme where
  kind : Kind
  text : String
  deriving DecidableEq, Repr, Inhabited

namespace Lexeme

/-- The bytes a lexeme covers. -/
def size (l : Lexeme) : Nat := l.text.utf8ByteSize

/-- White space and comments. -/
def isTrivia (l : Lexeme) : Bool := l.kind.isTrivia

/-- Whether the text of a lexeme holds a line break. -/
def hasNewline (l : Lexeme) : Bool := l.text.toList.contains '\n'

/-- The bytes a run of lexemes covers. -/
def sizeOfAll : List Lexeme → Nat
  | [] => 0
  | l :: ls => l.size + sizeOfAll ls

/-- The text a run of lexemes covers. -/
def textOfAll (ls : List Lexeme) : String := String.join (ls.map text)

/-- The spans of lexemes laid one after the other from an offset on. -/
def spans (start : Nat) : List Lexeme → List Span
  | [] => []
  | l :: ls => ⟨start, start + l.size⟩ :: spans (start + l.size) ls

@[simp] theorem sizeOfAll_nil : sizeOfAll [] = 0 := rfl

@[simp] theorem sizeOfAll_cons (l : Lexeme) (ls : List Lexeme) :
    sizeOfAll (l :: ls) = l.size + sizeOfAll ls := rfl

@[simp] theorem length_spans (start : Nat) (ls : List Lexeme) :
    (spans start ls).length = ls.length := by
  induction ls generalizing start with
  | nil => rfl
  | cons l ls ih => simp [spans, ih]

end Lexeme

end SwiftOutline

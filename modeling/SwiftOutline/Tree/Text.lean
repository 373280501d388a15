import SwiftOutline.Tree.Query
import SwiftOutline.Unicode.Blank

/-!
# SwiftOutline.Tree.Text

The text of a tree as other parts show it.

* `normalizedText` — without trivia, with one space where two tokens need one;
* `trimmedText` — as written, without blanks at either end;
* `unescape` — a name without the backticks that escape it;
* `declaredName?` — the name that a declaration gives.
-/

namespace SwiftOutline

namespace Kind

/-- Tokens that are no marks, so that two of them need a space between them. -/
def readsAsWord : Kind → Bool
  | .openParen | .closeParen | .openBrace | .closeBrace | .openBracket | .closeBracket
  | .openAngle | .closeAngle | .semicolon | .comma | .dot | .ellipsis | .colon | .equals
  | .arrow | .question | .bang | .ampersand | .atSign | .hash | .backslash
  | .customOperator => false
  | _ => true

/-- Whether a space stands between two tokens of normalized text. -/
def needsSpace (before after : Kind) : Bool :=
  (before.readsAsWord && after.readsAsWord) ||
    (before == .closeParen && after.readsAsWord) ||
    before == .comma || before == .colon ||
    before == .ampersand || before == .arrow ||
    after == .ampersand || after == .arrow

end Kind

/-- The texts of lexemes with a space where it is needed, after a lexeme of some kind. -/
def Lexeme.spacedAfter (before : Option Kind) : List Lexeme → String
  | [] => ""
  | l :: ls =>
    let space := if before.any (·.needsSpace l.kind) then " " else ""
    space ++ l.text ++ spacedAfter (some l.kind) ls

/-- The texts of lexemes with a space where it is needed. -/
def Lexeme.spaced (ls : List Lexeme) : String := spacedAfter none ls

namespace Tree

/-- The tokens of a tree that are no trivia. -/
def allWords (t : Tree) : List Lexeme := t.tokens.filter (!·.isTrivia)

/-- The text of a tree without trivia and with even spacing. -/
def normalizedText (t : Tree) : String := Lexeme.spaced t.allWords

/-- The text of a tree without blanks at either end. -/
def trimmedText (t : Tree) : String := Unicode.trim t.text

end Tree

/-- The characters of a name without the backticks around them; without both backticks a name
stays as it is. -/
def unescapeChars : List Char → List Char
  | [] => []
  | c :: r =>
    if c == '\x60' && r.getLast? == some '\x60' then r.dropLast else c :: r

/-- A name without the backticks that escape it. -/
def unescape (s : String) : String := String.ofList (unescapeChars s.toList)

/-- The name that a declaration gives, if it gives one. -/
def Tree.declaredName? (t : Tree) : Option String :=
  (t.childOf? .name).bind fun n =>
    let text := n.normalizedText
    if text.isEmpty then none else some (unescape text)

/-- The name that a declaration gives; empty if it gives none. -/
def Tree.declaredName (t : Tree) : String := t.declaredName?.getD ""

end SwiftOutline

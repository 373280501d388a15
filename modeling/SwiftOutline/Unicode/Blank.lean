import SwiftOutline.Unicode.Range

/-!
# SwiftOutline.Unicode.Blank

The property *White_Space*, and trimming by it.

* `isBlank` — the property; it holds of all that core calls whitespace;
* `trim` — a text without blanks at either end.
-/

namespace SwiftOutline.Unicode

/-- Ranges of White_Space. -/
def blanks : List (Nat × Nat) := [
  (0x9, 0xd), (0x20, 0x20), (0x85, 0x85), (0xa0, 0xa0), (0x1680, 0x1680), (0x2000, 0x200a),
  (0x2028, 0x2029), (0x202f, 0x202f), (0x205f, 0x205f), (0x3000, 0x3000)]

/-- Whether a character has the property White_Space. -/
def isBlank (c : Char) : Bool := isIn blanks c

/-- A text without the blanks at its start. -/
def trimStart (cs : List Char) : List Char := cs.dropWhile isBlank

/-- A text without the blanks at its end. -/
def trimEnd (cs : List Char) : List Char := (cs.reverse.dropWhile isBlank).reverse

/-- A text without the blanks at either end. -/
def trim (s : String) : String := String.ofList (trimEnd (trimStart s.toList))

end SwiftOutline.Unicode

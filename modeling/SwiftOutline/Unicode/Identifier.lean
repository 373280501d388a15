import SwiftOutline.Unicode.Letter
import SwiftOutline.Unicode.Number

/-!
# SwiftOutline.Unicode.Identifier

Which letters and numbers may stand in an identifier (the properties XID_Start and
XID_Continue of Unicode 16). Almost every letter may start an identifier and almost every
letter, decimal digit and letter-like number may continue one; the exceptions are listed.

* `startsName` — XID_Start, for letters;
* `continuesName` — XID_Continue, for letters and numbers.
-/

namespace SwiftOutline.Unicode

/-- Letters that cannot start an identifier, since their compatibility form does not. -/
def lettersNotStarting : List (Nat × Nat) := [
  (0x37a, 0x37a), (0xe33, 0xe33), (0xeb3, 0xeb3), (0x2e2f, 0x2e2f), (0xfc5e, 0xfc63),
  (0xfdfa, 0xfdfb), (0xfe70, 0xfe70), (0xfe72, 0xfe72), (0xfe74, 0xfe74), (0xfe76, 0xfe76),
  (0xfe78, 0xfe78), (0xfe7a, 0xfe7a), (0xfe7c, 0xfe7c), (0xfe7e, 0xfe7e), (0xff9e, 0xff9f)]

/-- Letters that cannot stand anywhere in an identifier. -/
def lettersNotContinuing : List (Nat × Nat) := [
  (0x37a, 0x37a), (0x2e2f, 0x2e2f), (0xfc5e, 0xfc63), (0xfdfa, 0xfdfb), (0xfe70, 0xfe70),
  (0xfe72, 0xfe72), (0xfe74, 0xfe74), (0xfe76, 0xfe76), (0xfe78, 0xfe78), (0xfe7a, 0xfe7a),
  (0xfe7c, 0xfe7c), (0xfe7e, 0xfe7e)]

/-- Other Numbers that may continue an identifier: the Ethiopic digits and a Tham digit. -/
def numbersContinuing : List (Nat × Nat) := [(0x1369, 0x1371), (0x19da, 0x19da)]

/-- Whether a letter may start an identifier. -/
def startsName (c : Char) : Bool :=
  isLetter c && !isIn lettersNotStarting c

/-- Whether a letter or number may continue an identifier; so may the underscore. -/
def continuesName (c : Char) : Bool :=
  c == '_' || (isLetter c && !isIn lettersNotContinuing c) ||
    isIn decimalDigits c || isIn letterNumbers c || isIn numbersContinuing c

end SwiftOutline.Unicode

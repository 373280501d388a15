import SwiftOutline.Unicode.Unprintable

/-!
# SwiftOutline.Quoted

Texts in quotation marks, as messages show them. Quotes, backslashes and characters that do not
show by themselves are escaped: a few by a letter of their own, the others by their number in
hexadecimal.

* `quoted` — one text;
* `quotedList` — several texts in brackets.
-/

namespace SwiftOutline

/-- The escape of a character: a letter of its own, or its number. -/
def escapeOf (c : Char) : List Char :=
  match c with
  | '\x00' => ['\\', '0']
  | '\t' => ['\\', 't']
  | '\n' => ['\\', 'n']
  | '\r' => ['\\', 'r']
  | '\\' => ['\\', '\\']
  | '\x22' => ['\\', '\x22']
  | c => ['\\', 'u', '\x7b'] ++ Nat.toDigits 16 c.toNat ++ ['\x7d']

/-- A character as it stands between quotation marks. -/
def quotedChar (c : Char) : List Char :=
  if c == '\\' || c == '\x22' || Unicode.isUnprintable c then escapeOf c else [c]

/-- A text in quotation marks. -/
def quoted (s : String) : String :=
  String.ofList ('\x22' :: (s.toList.flatMap quotedChar ++ ['\x22']))

/-- Texts in brackets with commas between them. -/
def bracketed (ss : List String) : String := "[" ++ ", ".intercalate ss ++ "]"

/-- Texts in quotation marks and brackets. -/
def quotedList (ss : List String) : String := bracketed (ss.map quoted)

end SwiftOutline

import SwiftOutline.Lexeme
import SwiftOutline.Unicode.Identifier

/-!
# SwiftOutline.Lexeme.Lexer

Cutting source text into lexemes. The first character decides which family of lexemes is
tried, and `scan` says how many of the characters after it belong to the same lexeme; the
longest reading wins, and of two equally long ones a word or mark of the language wins over
the general family.

* `scan` — the kind of the lexeme that a character starts, and how much of the tail it takes;
* `lexChars`, `lex` — the lexemes of a text, with nothing left out;
* `flatMap_lexChars` — the lexemes spell the text.

A text that starts no lexeme becomes one of kind `error`, so that every character has its
place.
-/

namespace SwiftOutline.Lexeme

open Unicode

/-! ## Character classes -/

/-- Characters that separate lexemes: space, tab, line feed, carriage return, form feed. -/
def isSpace (c : Char) : Bool :=
  c == ' ' || c == '\t' || c == '\n' || c == '\r' || c == '\x0c'

/-- Characters a word may hold after its first. -/
def isWordChar (c : Char) : Bool := c == '_' || isLetter c || isNumber c

/-- Characters that join into one operator. -/
def isOperatorChar (c : Char) : Bool :=
  ['=', '-', '+', '!', '*', '%', '&', '|', '^', '~', '?'].contains c

/-- Digits of a decimal number, with the underscore that groups them. -/
def isDecimal (c : Char) : Bool := c == '_' || c.isDigit

/-- Digits of a hexadecimal number, with the underscore that groups them. -/
def isHexadecimal (c : Char) : Bool :=
  isDecimal c || ('a' ≤ c && c ≤ 'f') || ('A' ≤ c && c ≤ 'F')

/-- Digits of an octal number, with the underscore that groups them. -/
def isOctal (c : Char) : Bool := c == '_' || ('0' ≤ c && c ≤ '7')

/-- Digits of a binary number, with the underscore that groups them. -/
def isBinary (c : Char) : Bool := c == '_' || c == '0' || c == '1'

/-- How many characters of a class a text starts with. -/
def countWhile (p : Char → Bool) (cs : List Char) : Nat := (cs.takeWhile p).length

/-! ## Words -/

/-- The words that are no identifiers. -/
def words : List (String × Kind) := [
  ("true", .boolean), ("false", .boolean), ("nil", .nilLiteral),
  ("associatedtype", .kwAssociatedtype), ("case", .kwCase), ("class", .kwClass),
  ("deinit", .kwDeinit), ("enum", .kwEnum), ("extension", .kwExtension),
  ("fileprivate", .kwFileprivate), ("func", .kwFunc), ("import", .kwImport),
  ("init", .kwInit), ("inout", .kwInout), ("internal", .kwInternal), ("let", .kwLet),
  ("operator", .kwOperator), ("precedencegroup", .kwPrecedencegroup),
  ("private", .kwPrivate), ("protocol", .kwProtocol), ("public", .kwPublic),
  ("static", .kwStatic), ("struct", .kwStruct), ("subscript", .kwSubscript),
  ("typealias", .kwTypealias), ("var", .kwVar), ("as", .kwAs), ("is", .kwIs),
  ("rethrows", .kwRethrows), ("self", .kwSelfValue), ("Self", .kwSelfType),
  ("throws", .kwThrows), ("try", .kwTry), ("where", .kwWhere)]

/-- Whether a letter or underscore and the word characters after it make an identifier. -/
def isName (c : Char) (rest : List Char) : Bool :=
  (c == '_' || startsName c) && rest.all continuesName

/-- A word is taken whole: a word of the language, an identifier, or an error if one of its
characters may not stand where it does. -/
def scanWord (c : Char) (tail : List Char) : Kind × Nat :=
  let rest := tail.takeWhile isWordChar
  let kind :=
    match words.lookup (String.ofList (c :: rest)) with
    | some kind => kind
    | none => if isName c rest then .identifier else .error
  (kind, rest.length)

/-- A name between backticks, on one line and not empty. Without the second backtick all up
to the line's end is an error. -/
def scanEscapedName (tail : List Char) : Kind × Nat :=
  let n := countWhile (fun c => c != '\x60' && c != '\n') tail
  if n != 0 && (tail.drop n).head? == some '\x60' then (.identifier, n + 1) else (.error, n)

/-- A name that starts with a dollar sign. -/
def scanDollarName (tail : List Char) : Kind × Nat :=
  let n := countWhile isWordChar tail
  if n == 0 then (.error, 0) else (.identifier, n)

/-! ## Numbers -/

/-- The length of an exponent that a text starts with; without a digit it is none. -/
def exponentLength : List Char → Nat
  | [] => 0
  | e :: r =>
    if e == 'e' || e == 'E' then
      let sign := match r with
        | s :: _ => if s == '+' || s == '-' then 1 else 0
        | [] => 0
      let digits := countWhile Char.isDigit (r.drop sign)
      if digits == 0 then 0 else 1 + sign + digits
    else 0

/-- A decimal number: a fraction needs a digit right after its point. -/
def scanDecimal (tail : List Char) : Kind × Nat :=
  let whole := countWhile isDecimal tail
  match tail.drop whole with
  | '.' :: d :: r =>
    if d.isDigit then
      let fraction := countWhile isDecimal r
      (.float, whole + 2 + fraction + exponentLength (r.drop fraction))
    else (.integer, whole)
  | _ => (.integer, whole)

/-- A number written with a radix letter, or only the digits before the letter if none of
the radix follow it. -/
def scanRadix (digit : Char → Bool) (tail r : List Char) : Kind × Nat :=
  let n := countWhile digit r
  if n == 0 then scanDecimal tail else (.integer, n + 1)

/-- A number, by its first digit. -/
def scanNumber (c : Char) (tail : List Char) : Kind × Nat :=
  match c, tail with
  | '0', 'x' :: r => scanRadix isHexadecimal tail r
  | '0', 'o' :: r => scanRadix isOctal tail r
  | '0', 'b' :: r => scanRadix isBinary tail r
  | _, _ => scanDecimal tail

/-! ## Texts -/

/-- The length of the rest of a text on one line, and whether a quote closes it there. A
backslash takes the character after it along, but no line break. -/
def textLength : List Char → Bool × Nat
  | [] => (false, 0)
  | ['\\'] => (false, 0)
  | '\\' :: c :: r =>
    if c == '\n' then (false, 0)
    else
      let (closed, n) := textLength r
      (closed, n + 2)
  | c :: r =>
    if c == '\x22' then (true, 1)
    else if c == '\n' then (false, 0)
    else
      let (closed, n) := textLength r
      (closed, n + 1)

/-- The length of the rest of a text between triple quotes; one that is never closed runs to
the end. -/
def longTextLength : List Char → Nat
  | [] => 0
  | ['\\'] => 1
  | '\\' :: _ :: r => longTextLength r + 2
  | '\x22' :: '\x22' :: '\x22' :: _ => 3
  | _ :: r => longTextLength r + 1

/-- A text by the quotes it starts with; one that its line does not close is an error. -/
def scanText : List Char → Kind × Nat
  | '\x22' :: '\x22' :: r => (.string, longTextLength r + 2)
  | tail =>
    let (closed, n) := textLength tail
    (if closed then .string else .error, n)

/-! ## Comments and operators -/

/-- The length of the rest of a block comment inside `outer` further ones. Comments nest, and
one that is never closed runs to the end. -/
def commentLength (outer : Nat) : List Char → Nat
  | [] => 0
  | '/' :: '*' :: r => commentLength (outer + 1) r + 2
  | '*' :: '/' :: r =>
    match outer with
    | 0 => 2
    | outer + 1 => commentLength outer r + 2
  | _ :: r => commentLength outer r + 1

/-- A slash starts a comment or is an operator, alone or with an equals sign. -/
def scanSlash : List Char → Kind × Nat
  | '/' :: r => (.lineComment, countWhile (· != '\n') r + 1)
  | '*' :: r => (.blockComment, commentLength 0 r + 1)
  | '=' :: _ => (.customOperator, 1)
  | _ => (.customOperator, 0)

/-- A run of operator characters is one operator; some of the one-character runs are marks of
their own, and so is the arrow. -/
def scanOperator (c : Char) (tail : List Char) : Kind × Nat :=
  let n := countWhile isOperatorChar tail
  if n == 0 then
    match c with
    | '=' => (.equals, 0)
    | '?' => (.question, 0)
    | '!' => (.bang, 0)
    | '&' => (.ampersand, 0)
    | '-' => if tail.head? == some '>' then (.arrow, 1) else (.customOperator, 0)
    | _ => (.customOperator, 0)
  else (.customOperator, n)

/-- One dot or two, an ellipsis, or the operator of a half-open range. -/
def scanDot : List Char → Kind × Nat
  | '.' :: '.' :: _ => (.ellipsis, 2)
  | '.' :: '<' :: _ => (.customOperator, 2)
  | '.' :: _ => (.dot, 1)
  | _ => (.dot, 0)

/-- The directives, longest first where one starts another. -/
def directives : List (List Char × Kind) := [
  (['e', 'l', 's', 'e', 'i', 'f'], .poundElseif), (['e', 'l', 's', 'e'], .poundElse),
  (['e', 'n', 'd', 'i', 'f'], .poundEndif), (['i', 'f'], .poundIf)]

/-- A directive, or the hash sign alone. -/
def scanHash (tail : List Char) : Kind × Nat :=
  match directives.find? (·.1.isPrefixOf tail) with
  | some (word, kind) => (kind, word.length)
  | none => (.hash, 0)

/-- Marks of one character that join nothing. -/
def marks : List (Char × Kind) := [
  ('(', .openParen), (')', .closeParen), ('\x7b', .openBrace), ('\x7d', .closeBrace),
  ('[', .openBracket), (']', .closeBracket), ('<', .openAngle), ('>', .closeAngle),
  (';', .semicolon), (',', .comma), (':', .colon), ('@', .atSign), ('\\', .backslash)]

/-! ## Lexemes -/

/-- The kind of the lexeme that starts with a character, and how many characters of the tail
belong to it. -/
def scan (c : Char) (tail : List Char) : Kind × Nat :=
  if isSpace c then (.whitespace, countWhile isSpace tail)
  else if c == '_' || isLetter c then scanWord c tail
  else if c.isDigit then scanNumber c tail
  else if isOperatorChar c then scanOperator c tail
  else
    match c with
    | '/' => scanSlash tail
    | '\x22' => scanText tail
    | '\x60' => scanEscapedName tail
    | '$' => scanDollarName tail
    | '.' => scanDot tail
    | '#' => scanHash tail
    | _ => ((marks.lookup c).getD .error, 0)

/-- The lexemes of a text given by its characters. -/
def lexChars : List Char → List Lexeme
  | [] => []
  | c :: tail =>
    let (kind, n) := scan c tail
    ⟨kind, String.ofList (c :: tail.take n)⟩ :: lexChars (tail.drop n)
  termination_by cs => cs.length
  decreasing_by simp only [List.length_drop, List.length_cons]; omega

/-- The lexemes of a source text. -/
def lex (source : String) : List Lexeme := lexChars source.toList

@[simp] theorem lexChars_nil : lexChars [] = [] := by rw [lexChars]

theorem lexChars_cons (c : Char) (tail : List Char) :
    lexChars (c :: tail) =
      ⟨(scan c tail).1, String.ofList (c :: tail.take (scan c tail).2)⟩ ::
        lexChars (tail.drop (scan c tail).2) := by
  rw [lexChars]

/-- The lexemes of a text spell it out. -/
theorem flatMap_lexChars (cs : List Char) : (lexChars cs).flatMap (·.text.toList) = cs := by
  fun_induction lexChars cs with
  | case1 => rfl
  | case2 c tail kind n _ ih => simp [ih]

end SwiftOutline.Lexeme

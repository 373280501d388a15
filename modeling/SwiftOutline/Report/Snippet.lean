import SwiftOutline.Report
import SwiftOutline.Unicode.Width

/-!
# SwiftOutline.Report.Snippet

A report as text. Each diagnostic shows its message, the line it is about with carets below the
place, and its notes.

* `Line.at` — the line of a source text that holds an offset;
* `Cell` — a character of a line with the columns it fills;
* `Report.render` — the whole report; it fails if a diagnostic is about an unknown file.
-/

namespace SwiftOutline

/-! ## lines -/

/-- A line of a source text: its number from 1, the offset of its first byte, and its
characters without the line break. -/
structure Line where
  number : Nat
  start : Nat
  chars : List Char
  deriving Repr, Inhabited

namespace Line

/-- The bytes of characters. -/
def bytes : List Char → Nat
  | [] => 0
  | c :: cs => c.utf8Size + bytes cs

/-- The last of some lines that starts at an offset or before it; the first of them starts
right after the line given. -/
def findFrom (offset : Nat) (l : Line) : List (List Char) → Line
  | [] => l
  | cs :: rest =>
    let next := l.start + bytes l.chars + 1
    if offset < next then l else findFrom offset ⟨l.number + 1, next, cs⟩ rest

/-- The line that holds an offset. Right after a line break a new line starts. -/
def containing (source : String) (offset : Nat) : Line :=
  match source.toList.splitOn '\n' with
  | [] => ⟨1, 0, []⟩
  | first :: rest => findFrom offset ⟨1, 0, first⟩ rest

/-- How many of some characters end at or before an offset, the first of them starting at
`start`. -/
def countUpTo (offset start : Nat) : List Char → Nat
  | [] => 0
  | c :: cs =>
    if start + c.utf8Size ≤ offset then countUpTo offset (start + c.utf8Size) cs + 1 else 0

/-- The column of an offset in a line: characters, counted from 1. -/
def column (l : Line) (offset : Nat) : Nat := countUpTo offset l.start l.chars + 1

/-- The characters of a line that are shown: returns and null characters at the end are not. -/
def visible (l : Line) : List Char :=
  (l.chars.reverse.dropWhile fun c => c == '\r' || c == '\x00').reverse

end Line

/-! ## cells -/

/-- A character of a line, the bytes it takes, and the columns it fills. -/
structure Cell where
  char : Char
  start : Nat
  size : Nat
  columns : Nat
  deriving Repr, Inhabited

namespace Cell

/-- Tab stops stand this many columns apart. -/
def tabWidth : Nat := 4

/-- The columns that a character fills from a column on: a tab reaches to the next tab stop. -/
def columnsAt (column : Nat) (c : Char) : Nat :=
  if c == '\t' then tabWidth - column % tabWidth else Unicode.width c

/-- The cells of characters from an offset and a column on. -/
def row (start column : Nat) : List Char → List Cell
  | [] => []
  | c :: cs =>
    ⟨c, start, c.utf8Size, columnsAt column c⟩ ::
      row (start + c.utf8Size) (column + columnsAt column c) cs

/-- A cell as it is shown: a tab as blanks. -/
def shown (c : Cell) : List Char :=
  if c.char == '\t' then List.replicate c.columns ' ' else [c.char]

/-- What is shown below a cell for a place: carets where the two overlap, blanks before. -/
def mark (start stop : Nat) (c : Cell) : List Char :=
  if max start c.start < min stop (c.start + c.size) then List.replicate c.columns '^'
  else if c.start < stop then List.replicate c.columns ' '
  else []

end Cell

/-- The marks below the visible characters of a line for a place in it. An empty place has one
caret; one at the end of the line has it behind the last character. -/
def Line.marks (l : Line) (place : Span) : List Char :=
  let stop := max place.stop (place.start + 1)
  let behind : Cell := ⟨' ', l.start + bytes l.visible, 1, 1⟩
  (Cell.row l.start 0 l.visible ++ [behind]).flatMap (Cell.mark place.start stop)

/-! ## diagnostics -/

/-- The lines of a text: a line break at its end starts no further line, and a return before a
line break belongs to it. -/
def linesOf (s : String) : List String :=
  let parts := s.toList.splitOn '\n'
  let broken := parts.dropLast.map fun cs => if cs.getLast? == some '\r' then cs.dropLast else cs
  let last := (parts.getLast?.toList).filter (!·.isEmpty)
  (broken ++ last).map String.ofList

namespace Diagnostic

/-- The first line: severity, code and message. -/
def header (d : Diagnostic) : String :=
  let code :=
    match d.code with
    | some c => if c.isEmpty then "" else "[" ++ c ++ "]"
    | none => ""
  d.severity.word ++ code ++ ": " ++ d.message

/-- The lines of a note behind a margin. -/
def noteLines (margin : String) (note : String) : List String :=
  match linesOf note with
  | [] => []
  | first :: rest => (margin ++ " = " ++ first) :: rest.map (margin ++ "   " ++ ·)

/-- The lines that show a place in a file. -/
def snippet (file : SourceText) (p : Place) (margin : String) (line : Line) : List String :=
  let position := toString line.number ++ ":" ++ toString (line.column p.span.start)
  let shown := (Cell.row line.start 0 line.visible).flatMap Cell.shown
  let remark := if p.remark.isEmpty then "" else " " ++ p.remark
  [margin ++ " ┌─ " ++ file.name ++ ":" ++ position,
    margin ++ " │",
    toString line.number ++ " │ " ++ String.ofList shown,
    margin ++ " │ " ++ String.ofList (line.marks p.span) ++ remark]

/-- The lines of a diagnostic without a place. -/
def plainLines (d : Diagnostic) : List String :=
  d.header :: (d.notes.flatMap (noteLines "") ++ [""])

/-- The lines of a diagnostic that is about a place in a file. -/
def linesAt (d : Diagnostic) (file : SourceText) (p : Place) : List String :=
  let line := Line.containing file.text p.span.start
  let margin := String.ofList (List.replicate (toString line.number).length ' ')
  let gap := if d.notes.isEmpty then [] else [margin ++ " │"]
  d.header :: (snippet file p margin line ++ gap ++ d.notes.flatMap (noteLines margin) ++ [""])

end Diagnostic

/-- Why a report cannot be rendered. -/
inductive RenderError where
  /-- A diagnostic is about a file that was never added. -/
  | fileMissing
  deriving DecidableEq, Repr, Inhabited

/-- The wording of an error. -/
def RenderError.message : RenderError → String
  | fileMissing => "file missing"

namespace Report

/-- The lines of one diagnostic of a report. -/
def linesFor (r : Report) (d : Diagnostic) : Except RenderError (List String) :=
  match d.place with
  | none => .ok d.plainLines
  | some p =>
    match r.file? p.file with
    | some file => .ok (d.linesAt file p)
    | none => .error .fileMissing

/-- A report as text, each line with a line break. -/
def render (r : Report) : Except RenderError String := do
  let lines ← r.diagnostics.mapM r.linesFor
  return String.join (lines.flatten.map (· ++ "\n"))

end Report

end SwiftOutline

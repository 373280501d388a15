import SwiftOutline.Grammar.Declaration
import SwiftOutline.Lexeme.Lexer

/-!
# SwiftOutline.Parse

Reading a source file.

* `parseMarked` — the file as a marked tree: the sketch of its items laid over its lexemes,
  and what trivia is left at the end;
* `parse` — the syntax tree and the faults found on the way;
* `fileEvents` — the same as a stream of events.

Reading never fails: what fits no rule is in the tree too, and a fault says so.
-/

namespace SwiftOutline

/-- A source file's parts, with marks where faults were found. -/
def markedParts (source : String) : List Marked :=
  let lexemes := Lexeme.lex source
  let items := Grammar.fileItems (Word.ofLexemes lexemes)
  let (parts, tail) :=
    Sketch.layAll (Lexeme.sizeOfAll lexemes) items.sketches (Placed.ofLexemes 0 lexemes)
  parts ++ tail.map .token

/-- A source file as a marked tree. -/
def parseMarked (source : String) : Marked := .node .sourceFile (markedParts source)

/-- What reading a source file gives. -/
structure Parse where
  tree : Tree
  faults : List (Fault × Span)
  deriving Repr, Inhabited

/-- Read a source file. -/
def parse (source : String) : Parse :=
  let parts := markedParts source
  ⟨.node .sourceFile (Marked.treesOfAll parts), Marked.faultsOfAll parts⟩

/-- The events that build the tree of a source file and report its faults. -/
def fileEvents (source : String) : List Event := (parseMarked source).events

end SwiftOutline

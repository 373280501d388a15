import SwiftOutline.Event
import SwiftOutline.Fault

/-!
# SwiftOutline.Sketch

What the grammar sees and what it draws.

* `Word` — a lexeme that is no trivia, with what the grammar may know of the space before it;
* `Sketch` — a tree over words, with marks where something is wrong; it knows nothing of
  white space and comments;
* `Marked` — a sketch laid over the lexemes of a source: trivia in place, positions known;
* `Sketch.lay` — from the one to the other;
* `Marked.tree`, `Marked.events`, `Marked.faults` — the tree, the stream of events and the
  list of faults that a marked tree stands for.

Trivia goes before the node or word that follows it, so that a node starts with a word; the
trivia after the last word of a node belongs to what comes next.
-/

namespace SwiftOutline

/-- A lexeme as the grammar sees it. -/
structure Word where
  kind : Kind
  text : String
  /-- No trivia stands between the word and the one before it. -/
  joined : Bool
  /-- A line break stands between the word and the one before it. -/
  onNewLine : Bool
  deriving DecidableEq, Repr, Inhabited

namespace Word

/-- The words among lexemes. What came right before the lexemes: a word or trivia, and
whether that trivia held a line break. -/
def ofLexemesAfter (joined onNewLine : Bool) : List Lexeme → List Word
  | [] => []
  | l :: ls =>
    if l.isTrivia then ofLexemesAfter false (onNewLine || l.hasNewline) ls
    else ⟨l.kind, l.text, joined, onNewLine⟩ :: ofLexemesAfter true false ls

/-- The words of a source. The first one is joined to nothing. -/
def ofLexemes (ls : List Lexeme) : List Word := ofLexemesAfter false false ls

end Word

/-! ## sketches -/

/-- A tree over words. A `gap` is a place that trivia may fill though nothing follows it. -/
inductive Sketch where
  | word (w : Word)
  | node (kind : Kind) (parts : List Sketch)
  | fault (f : Fault)
  | gap
  deriving Repr, Inhabited

namespace Sketch

mutual

/-- The words of a sketch in order. -/
def words : Sketch → List Word
  | word w => [w]
  | node _ ps => wordsOfAll ps
  | fault _ => []
  | gap => []

/-- The words of a run of sketches in order. -/
def wordsOfAll : List Sketch → List Word
  | [] => []
  | s :: ss => words s ++ wordsOfAll ss

end

@[simp] theorem wordsOfAll_nil : wordsOfAll [] = [] := rfl

@[simp] theorem wordsOfAll_cons (s : Sketch) (ss : List Sketch) :
    wordsOfAll (s :: ss) = s.words ++ wordsOfAll ss := rfl

@[simp] theorem words_word (w : Word) : (word w).words = [w] := rfl

@[simp] theorem words_node (k : Kind) (ps : List Sketch) :
    (node k ps).words = wordsOfAll ps := rfl

@[simp] theorem words_fault (f : Fault) : (fault f).words = [] := rfl

@[simp] theorem words_gap : gap.words = [] := rfl

@[simp] theorem wordsOfAll_append (ss ts : List Sketch) :
    wordsOfAll (ss ++ ts) = wordsOfAll ss ++ wordsOfAll ts := by
  induction ss with
  | nil => rfl
  | cons s ss ih => simp [ih]

end Sketch

/-! ## marked trees -/

/-- A lexeme with the place it takes in the source. -/
structure Placed where
  lexeme : Lexeme
  span : Span
  deriving DecidableEq, Repr, Inhabited

namespace Placed

/-- Lexemes laid one after the other from an offset on. -/
def ofLexemes (start : Nat) : List Lexeme → List Placed
  | [] => []
  | l :: ls => ⟨l, ⟨start, start + l.size⟩⟩ :: ofLexemes (start + l.size) ls

/-- The span of the next word, or the empty span at the end of a source of a given size. -/
def nextSpan (size : Nat) (ps : List Placed) : Span :=
  match ps.find? (!·.lexeme.isTrivia) with
  | some p => p.span
  | none => ⟨size, size⟩

end Placed

/-- A syntax tree with marks where faults were found. -/
inductive Marked where
  | token (p : Placed)
  | node (kind : Kind) (parts : List Marked)
  | fault (f : Fault) (span : Span)
  deriving Repr, Inhabited

namespace Marked

/-- The trivia at the front of lexemes, as tokens, and the rest. -/
def leading (ps : List Placed) : List Marked × List Placed :=
  ((ps.takeWhile (·.lexeme.isTrivia)).map token, ps.dropWhile (·.lexeme.isTrivia))

mutual

/-- The tree below a marked tree; a fault leaves nothing. -/
def trees : Marked → List Tree
  | token p => [.token p.lexeme.kind p.lexeme.text]
  | node k ps => [.node k (treesOfAll ps)]
  | fault .. => []

/-- The trees below a run of marked trees. -/
def treesOfAll : List Marked → List Tree
  | [] => []
  | m :: ms => trees m ++ treesOfAll ms

end

mutual

/-- The faults of a marked tree in document order. -/
def faults : Marked → List (Fault × Span)
  | token _ => []
  | node _ ps => faultsOfAll ps
  | fault f s => [(f, s)]

/-- The faults of a run of marked trees in document order. -/
def faultsOfAll : List Marked → List (Fault × Span)
  | [] => []
  | m :: ms => faults m ++ faultsOfAll ms

end

mutual

/-- The events that build a marked tree. -/
def events : Marked → List Event
  | token p => [.token p.lexeme.kind p.span]
  | node k ps => .start k :: eventsOfAll ps ++ [.finish]
  | fault f s => [.error f.message (some s)]

/-- The events that build a run of marked trees. -/
def eventsOfAll : List Marked → List Event
  | [] => []
  | m :: ms => events m ++ eventsOfAll ms

end

end Marked

/-! ## laying a sketch over a source -/

namespace Sketch

mutual

/-- Lay a sketch over the lexemes that are left: its marked trees, with the trivia before
them, and the lexemes after it. A fault is placed at the next word. -/
def lay (size : Nat) : Sketch → List Placed → List Marked × List Placed
  | word _, ps =>
    match Marked.leading ps with
    | (before, []) => (before, [])
    | (before, p :: ps) => (before ++ [.token p], ps)
  | node k parts, ps =>
    let (before, ps) := Marked.leading ps
    let (inner, ps) := layAll size parts ps
    (before ++ [.node k inner], ps)
  | fault f, ps => ([.fault f (Placed.nextSpan size ps)], ps)
  | gap, ps => Marked.leading ps

/-- Lay a run of sketches over the lexemes that are left. -/
def layAll (size : Nat) : List Sketch → List Placed → List Marked × List Placed
  | [], ps => ([], ps)
  | s :: ss, ps =>
    let (first, ps) := lay size s ps
    let (others, ps) := layAll size ss ps
    (first ++ others, ps)

end

end Sketch

end SwiftOutline

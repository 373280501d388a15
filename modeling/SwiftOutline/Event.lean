import SwiftOutline.Tree

/-!
# SwiftOutline.Event

Trees as streams of events, which are easy to produce while reading from left to right.

* `Event` — a node opens, a token stands, a node closes, an error is reported;
* `openAt` — open a node around what was recorded since a mark;
* `Tree.ofEvents?` — the tree that a stream builds, if it builds one.

Building keeps the finished trees of every open node. A node that is never closed leaves no
trace: its trees count as those of the node around it. The stream must leave exactly one tree,
and that tree must be a node.
-/

namespace SwiftOutline

/-- A step in the building of a tree. -/
inductive Event where
  | start (kind : Kind)
  | token (kind : Kind) (span : Span)
  | finish
  | error (message : String) (span : Option Span)
  deriving DecidableEq, Repr, Inhabited

namespace Event

/-- Open a node where a mark was set, around all that was recorded since. A mark beyond the
end counts as the end. -/
def openAt (mark : Nat) (kind : Kind) (events : List Event) : List Event :=
  events.take mark ++ start kind :: events.drop mark

@[simp] theorem length_openAt (mark : Nat) (kind : Kind) (events : List Event) :
    (openAt mark kind events).length = events.length + 1 := by
  simp [openAt]; omega

end Event

/-! ## slices of the source -/

namespace Span

/-- The text without its first bytes, if a character ends right there. -/
def dropBytes? : Nat → List Char → Option (List Char)
  | 0, cs => some cs
  | _ + 1, [] => none
  | n + 1, c :: cs => if c.utf8Size ≤ n + 1 then dropBytes? (n + 1 - c.utf8Size) cs else none

/-- The first bytes of a text, if a character ends right after them. -/
def takeBytes? : Nat → List Char → Option (List Char)
  | 0, _ => some []
  | _ + 1, [] => none
  | n + 1, c :: cs =>
    if c.utf8Size ≤ n + 1 then (takeBytes? (n + 1 - c.utf8Size) cs).map (c :: ·) else none

/-- The part of a text that a span covers; none if the span is reversed, leaves the text or
cuts a character. -/
def slice? (source : List Char) (s : Span) : Option String :=
  if s.start ≤ s.stop then
    ((dropBytes? s.start source).bind (takeBytes? (s.stop - s.start))).map String.ofList
  else none

end Span

/-! ## building -/

/-- A tree under construction: the finished trees of the innermost open node, last one first,
and for each open node its kind and the finished trees before it. -/
structure Scaffold where
  done : List Tree
  outer : List (Kind × List Tree)
  deriving Inhabited

namespace Scaffold

/-- Nothing is built yet. -/
def empty : Scaffold := ⟨[], []⟩

/-- One event's effect on a scaffold; closing fails when no node is open. A span that is no
part of the source gives a token without text. -/
def step? (source : List Char) (s : Scaffold) : Event → Option Scaffold
  | .start k => some ⟨[], (k, s.done) :: s.outer⟩
  | .token k span => some ⟨.token k ((span.slice? source).getD "") :: s.done, s.outer⟩
  | .finish =>
    match s.outer with
    | [] => none
    | (k, before) :: outer => some ⟨.node k s.done.reverse :: before, outer⟩
  | .error .. => some s

/-- Every finished tree, last one first, whether its node was closed or not. -/
def all (s : Scaffold) : List Tree := s.done ++ s.outer.flatMap (·.2)

/-- The tree on a scaffold: the only one there, and a node. -/
def tree? (s : Scaffold) : Option Tree :=
  match s.all with
  | [.node k cs] => some (.node k cs)
  | _ => none

end Scaffold

/-- The tree that a stream of events builds over a source text, if it builds one. -/
def Tree.ofEvents? (source : String) (events : List Event) : Option Tree :=
  (events.foldlM (Scaffold.step? source.toList) .empty).bind Scaffold.tree?

end SwiftOutline

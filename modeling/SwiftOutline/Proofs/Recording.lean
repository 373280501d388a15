import SwiftOutline.Proofs.Cursor
import SwiftOutline.Proofs.Lossless
import SwiftOutline.Proofs.Shifted

/-!
# SwiftOutline.Proofs.Recording

Trees and streams of events are inverse to each other.

* `Tree.walk` — the events of a walk over a tree, each token with the bytes it takes in the text;
* `foldlM_filter_isError` — reported errors build nothing, wherever they stand;
* `Tree.record` — the same walk by a recorder that opens some nodes late, at a mark set where
  they begin, once all that is below them is recorded;
* `record_eq` — the recorder adds the events of the walk to those it has, whichever nodes it opens
  late. Nodes below are opened at marks that are no smaller, so a mark still counts the events
  that were there when it was set;
* `Tree.renumbered` — a tree whose kinds are stored as numbers and read back.

A place in a tree is the list of child indices that lead there from the root.
-/

namespace SwiftOutline

/-! ## walks -/

/-- Whether an event reports an error. -/
def Event.isError : Event → Bool
  | .error .. => true
  | _ => false

namespace Tree

mutual

/-- The events of a walk over a tree that starts at an offset of a text. -/
def walk (start : Nat) : Tree → List Event
  | node k cs => .start k :: walkAll start cs ++ [.finish]
  | token k s => [.token k ⟨start, start + s.utf8ByteSize⟩]

/-- The events of a walk over trees laid one after the other. -/
def walkAll (start : Nat) : List Tree → List Event
  | [] => []
  | t :: ts => walk start t ++ walkAll (start + t.size) ts

end

mutual

/-- A tree with the place that each of its tokens takes from an offset on. -/
def marked (start : Nat) : Tree → Marked
  | node k cs => .node k (markedAll start cs)
  | token k s => .token ⟨⟨k, s⟩, ⟨start, start + s.utf8ByteSize⟩⟩

/-- Trees laid one after the other, with the places of their tokens. -/
def markedAll (start : Nat) : List Tree → List Marked
  | [] => []
  | t :: ts => marked start t :: markedAll (start + t.size) ts

end

mutual

theorem events_marked (start : Nat) (t : Tree) : (t.marked start).events = t.walk start := by
  cases t with
  | node k cs => rw [marked, Marked.events, walk, eventsOfAll_markedAll start cs]
  | token k s => rfl

/-- A walk emits the events of the tree with its places. -/
theorem eventsOfAll_markedAll (start : Nat) (ts : List Tree) :
    Marked.eventsOfAll (markedAll start ts) = walkAll start ts := by
  cases ts with
  | nil => rfl
  | cons t ts =>
    rw [markedAll, Marked.eventsOfAll, walkAll, events_marked start t, eventsOfAll_markedAll _ ts]

end

mutual

theorem trees_marked (start : Nat) (t : Tree) : (t.marked start).trees = [t] := by
  cases t with
  | node k cs => rw [marked, Marked.trees, treesOfAll_markedAll start cs]
  | token k s => rfl

theorem treesOfAll_markedAll (start : Nat) (ts : List Tree) :
    Marked.treesOfAll (markedAll start ts) = ts := by
  cases ts with
  | nil => rfl
  | cons t ts =>
    rw [markedAll, Marked.treesOfAll, trees_marked start t, treesOfAll_markedAll _ ts,
      List.singleton_append]

end

mutual

theorem placed_marked (start : Nat) (t : Tree) :
    (t.marked start).placed = Placed.ofLexemes start t.tokens := by
  cases t with
  | node k cs => exact placedOfAll_markedAll start cs
  | token k s => rfl

/-- The tokens of trees laid one after the other take the places of their lexemes. -/
theorem placedOfAll_markedAll (start : Nat) (ts : List Tree) :
    Marked.placedOfAll (markedAll start ts) = Placed.ofLexemes start (tokensOfAll ts) := by
  cases ts with
  | nil => rfl
  | cons t ts =>
    rw [markedAll, Marked.placedOfAll, tokensOfAll, Placed.ofLexemes_append, placed_marked start t,
      placedOfAll_markedAll _ ts, size_eq]

end

end Tree

/-! ## building -/

/-- Reported errors build nothing. -/
theorem Scaffold.foldlM_filter_isError (source : List Char) (events : List Event)
    (s : Scaffold) :
    (events.filter (!·.isError)).foldlM (step? source) s = events.foldlM (step? source) s := by
  induction events generalizing s with
  | nil => rfl
  | cons e events ih =>
    cases e with
    | error message span =>
      rw [List.filter_cons_of_neg (by simp [Event.isError]), ih]
      rfl
    | start k =>
      rw [List.filter_cons_of_pos rfl, List.foldlM_cons, List.foldlM_cons]
      exact bind_congr fun s => ih s
    | token k span =>
      rw [List.filter_cons_of_pos rfl, List.foldlM_cons, List.foldlM_cons]
      exact bind_congr fun s => ih s
    | finish =>
      rw [List.filter_cons_of_pos rfl, List.foldlM_cons, List.foldlM_cons]
      exact bind_congr fun s => ih s

/-- The events of a walk over a tree build it, with any errors reported in between. -/
theorem Tree.ofEvents?_of_walk {k : Kind} {cs : List Tree} {events : List Event}
    (h : events.filter (!·.isError) = (node k cs).walk 0) :
    ofEvents? (node k cs).text events = some (node k cs) := by
  have hslice : ∀ p ∈ ((node k cs).marked 0).placed,
      p.span.slice? (node k cs).text.toList = some p.lexeme.text := by
    intro p hp
    rw [placed_marked] at hp
    rw [text, Lexeme.toList_textOfAll]
    exact Placed.slice?_of_mem_ofLexemes [] hp
  have hfold := Marked.foldlM_events _ hslice .empty
  rw [ofEvents?, ← Scaffold.foldlM_filter_isError, h, ← events_marked, hfold, trees_marked]
  rfl

/-! ## recording -/

namespace Tree

mutual

/-- The events of a recorder that walks over a tree. A node at a late place is opened at the mark
where it begins, just before it closes. -/
def record (late : List Nat → Bool) (place : List Nat) (start : Nat) (events : List Event) :
    Tree → List Event
  | node k cs =>
    if late place then
      let mark := events.length
      Event.openAt mark k (recordAll late place 0 start events cs) ++ [.finish]
    else recordAll late place 0 start (events ++ [.start k]) cs ++ [.finish]
  | token k s => events ++ [.token k ⟨start, start + s.utf8ByteSize⟩]

/-- The events of a recorder that walks over the children of a node, from the n-th on. -/
def recordAll (late : List Nat → Bool) (place : List Nat) (n start : Nat)
    (events : List Event) : List Tree → List Event
  | [] => events
  | t :: ts =>
    recordAll late place (n + 1) (start + t.size) (record late (place ++ [n]) start events t) ts

end

variable (late : List Nat → Bool)

mutual

/-- A recorder adds the events of the walk to those it has. -/
theorem record_eq (place : List Nat) (start : Nat) (events : List Event) (t : Tree) :
    record late place start events t = events ++ walk start t := by
  cases t with
  | token k s => rfl
  | node k cs =>
    rw [record, recordAll_eq place 0 start events cs,
      recordAll_eq place 0 start (events ++ [Event.start k]) cs, walk]
    cases late place with
    | false => simp
    | true =>
      -- The mark is the number of events before the node, so they stay in front of its start.
      simp [Event.openAt]

theorem recordAll_eq (place : List Nat) (n start : Nat) (events : List Event) (ts : List Tree) :
    recordAll late place n start events ts = events ++ walkAll start ts := by
  cases ts with
  | nil => simp [recordAll, walkAll]
  | cons t ts =>
    rw [recordAll, record_eq (place ++ [n]) start events t,
      recordAll_eq place (n + 1) _ _ ts, walkAll, List.append_assoc]

end

/-! ## kinds as numbers -/

mutual

/-- A tree whose kinds are stored as numbers and read back. -/
def renumbered : Tree → Tree
  | node k cs => .node (.ofNumber k.number) (renumberedAll cs)
  | token k s => .token (.ofNumber k.number) s

/-- Trees whose kinds are stored as numbers and read back. -/
def renumberedAll : List Tree → List Tree
  | [] => []
  | t :: ts => renumbered t :: renumberedAll ts

end

mutual

/-- Numbers keep every kind. -/
@[simp] theorem renumbered_eq (t : Tree) : t.renumbered = t := by
  cases t with
  | node k cs => rw [renumbered, Kind.ofNumber_number, renumberedAll_eq cs]
  | token k s => rw [renumbered, Kind.ofNumber_number]

theorem renumberedAll_eq (ts : List Tree) : renumberedAll ts = ts := by
  cases ts with
  | nil => rfl
  | cons t ts => rw [renumberedAll, renumbered_eq t, renumberedAll_eq ts]

end

/-! ## trees and streams -/

/-- Trees and streams of events are inverse to each other. The events of a walk over a tree build
that tree over its text, with its kinds stored as numbers, wherever errors are reported in between;
and a recorder has the same events, whichever nodes it opens late. -/
theorem ofEvents?_walk_and_record (k : Kind) (cs : List Tree) :
    (∀ events : List Event, events.filter (!·.isError) = (node k cs).walk 0 →
      (ofEvents? (node k cs).text events).map renumbered = some (node k cs)) ∧
    ∀ late : List Nat → Bool, (node k cs).record late [] 0 [] = (node k cs).walk 0 := by
  refine ⟨fun events h => ?_, fun late => ?_⟩
  · rw [ofEvents?_of_walk h, Option.map_some, renumbered_eq]
  · rw [record_eq, List.nil_append]

/-- A stream with two errors, one before the root opens and one inside it. -/
theorem ofEvents?_walk_with_errors :
    (ofEvents? "a?"
      [.error "early" none, .start .sourceFile, .start .typeOptional, .token .identifier ⟨0, 1⟩,
        .error "late" (some ⟨1, 2⟩), .token .question ⟨1, 2⟩, .finish, .finish]).map renumbered =
      some (node .sourceFile
        [node .typeOptional [token .identifier "a", token .question "?"]]) :=
  (ofEvents?_walk_and_record .sourceFile
    [node .typeOptional [token .identifier "a", token .question "?"]]).1 _ (by decide)

end Tree

end SwiftOutline

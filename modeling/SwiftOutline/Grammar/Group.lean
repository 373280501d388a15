import SwiftOutline.Grammar.Rule

/-!
# SwiftOutline.Grammar.Group

Groups in brackets. Only the number of open brackets counts, not their shape, and a closer
too many leaves the depth at zero.

* `groupLength` — how many words a group measures, without taking it;
* `group` — the rule that takes a group.
-/

namespace SwiftOutline.Grammar

/-- The bracket depth after a word. -/
def depthAfter (depth : Nat) (k : Kind) : Nat :=
  if k.isOpener then depth + 1 else if k.isCloser then depth - 1 else depth

/-- The words up to where the depth is back at zero, from a given depth. -/
def groupLengthFrom (depth : Nat) : List Word → Nat
  | [] => 0
  | w :: r =>
    match depthAfter depth w.kind with
    | 0 => 1
    | d + 1 => groupLengthFrom (d + 1) r + 1

/-- The words of the group that stands next; a word that opens nothing is its own group. -/
def groupLength (ws : List Word) : Nat := groupLengthFrom 0 ws

/-- Take words until the depth is back at zero, from a given depth. -/
def groupFrom (depth : Nat) : (ws : List Word) → Parsed ws
  | [] => .done []
  | w :: r =>
    match depthAfter depth w.kind with
    | 0 => .take w r
    | d + 1 => .cons w (groupFrom (d + 1) r)

/-- Take a group. -/
def group {n : Nat} : Rule n := fun ws _ => groupFrom 0 ws

theorem advances_group {n : Nat} : Rule.Advances atWord (group : Rule n) := fun ws _ h => by
  cases ws with
  | nil => simp [atWord] at h
  | cons w r =>
    unfold group groupFrom
    split
    · exact Nat.lt_succ_self _
    · exact Nat.lt_succ_of_le (Parsed.length_rest_le (groupFrom _ r))

end SwiftOutline.Grammar

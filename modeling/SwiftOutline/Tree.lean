import SwiftOutline.Lexeme

/-!
# SwiftOutline.Tree

Syntax trees: nodes with a kind over tokens with a kind and a text, white space and comments
included, so that a tree spells the source it was read from.

* `tokens`, `text`, `size` — what a tree spells, and how many bytes that is;
* `lines` — the tree as a list in preorder, each entry with its depth.
-/

namespace SwiftOutline

/-- A syntax tree. -/
inductive Tree where
  | node (kind : Kind) (children : List Tree)
  | token (kind : Kind) (text : String)
  deriving Repr, Inhabited

namespace Tree

/-- The kind of the root. -/
def kind : Tree → Kind
  | node k _ => k
  | token k _ => k

/-- Whether the root is a node. -/
def isNode : Tree → Bool
  | node .. => true
  | token .. => false

/-- What stands directly below the root. -/
def children : Tree → List Tree
  | node _ cs => cs
  | token .. => []

/-! ## what a tree spells -/

mutual

/-- The tokens of a tree in document order. -/
def tokens : Tree → List Lexeme
  | node _ cs => tokensOfAll cs
  | token k s => [⟨k, s⟩]

/-- The tokens of a run of trees in document order. -/
def tokensOfAll : List Tree → List Lexeme
  | [] => []
  | t :: ts => tokens t ++ tokensOfAll ts

end

/-- The text that a tree spells. -/
def text (t : Tree) : String := Lexeme.textOfAll t.tokens

mutual

/-- The bytes of the text that a tree spells. -/
def size : Tree → Nat
  | node _ cs => sizeOfAll cs
  | token _ s => s.utf8ByteSize

/-- The bytes of the text that a run of trees spells. -/
def sizeOfAll : List Tree → Nat
  | [] => 0
  | t :: ts => size t + sizeOfAll ts

end

theorem tokensOfAll_append (ts us : List Tree) :
    tokensOfAll (ts ++ us) = tokensOfAll ts ++ tokensOfAll us := by
  induction ts with
  | nil => rfl
  | cons t ts ih => simp [tokensOfAll, ih]

/-! ## preorder -/

/-- An entry of a tree written out in preorder; a token shows its text. -/
structure Line where
  depth : Nat
  kind : Kind
  text? : Option String
  deriving DecidableEq, Repr

mutual

/-- A tree in preorder, its root at the given depth. -/
def lines (depth : Nat) : Tree → List Line
  | node k cs => ⟨depth, k, none⟩ :: linesOfAll (depth + 1) cs
  | token k s => [⟨depth, k, some s⟩]

/-- A run of trees in preorder, their roots at the given depth. -/
def linesOfAll (depth : Nat) : List Tree → List Line
  | [] => []
  | t :: ts => lines depth t ++ linesOfAll depth ts

end

end Tree

end SwiftOutline

import SwiftOutline.Tree

/-!
# SwiftOutline.Tree.Query

Looking for things directly below the root of a tree.

* `childOf?`, `childrenOf` — nodes of a kind;
* `type?`, `typeChildren` — nodes that are types;
* `words`, `keyword?` — tokens that are no trivia.
-/

namespace SwiftOutline.Tree

/-- Whether a tree is a node of a kind. -/
def isNodeOf (k : Kind) (t : Tree) : Bool := t.isNode && t.kind == k

/-- Whether a tree is a token of a kind. -/
def isTokenOf (k : Kind) (t : Tree) : Bool := !t.isNode && t.kind == k

/-- Whether a tree is a token that is no trivia. -/
def isWord (t : Tree) : Bool := !t.isNode && !t.kind.isTrivia

/-- Whether a tree is a type. -/
def isType (t : Tree) : Bool := t.isNode && t.kind.isType

/-- The text of a token; a node has none of its own. -/
def ownText : Tree → String
  | node .. => ""
  | token _ s => s

/-- The first child node of a kind. -/
def childOf? (k : Kind) (t : Tree) : Option Tree := t.children.find? (isNodeOf k)

/-- The child nodes of a kind. -/
def childrenOf (k : Kind) (t : Tree) : List Tree := t.children.filter (isNodeOf k)

/-- Whether a token of a kind stands directly below. -/
def hasToken (k : Kind) (t : Tree) : Bool := t.children.any (isTokenOf k)

/-- The first child node that is a type. -/
def type? (t : Tree) : Option Tree := t.children.find? isType

/-- The child nodes that are types. -/
def typeChildren (t : Tree) : List Tree := t.children.filter isType

/-- The tokens directly below that are no trivia. -/
def words (t : Tree) : List Lexeme :=
  (t.children.filter isWord).map fun c => ⟨c.kind, c.ownText⟩

/-- The first token directly below a declaration, which is its keyword: attributes and
modifiers are nodes. -/
def keyword? (t : Tree) : Option String := t.words.head?.map (·.text)

/-- The text of the first token directly below; empty if there is none. -/
def keyword (t : Tree) : String := t.keyword?.getD ""

end SwiftOutline.Tree

import SwiftOutline.Tree.Text

/-!
# SwiftOutline.Modifier

Modifiers of declarations, such as `public` or `private(set)`, and the summary that a
declaration keeps of them.

* `Modifier` — one modifier as written;
* `Modifiers` — names with details, in the order of their first occurrence. A name that
  occurs again keeps its place and takes the new detail.
-/

namespace SwiftOutline

/-- A modifier and the detail in its parentheses. -/
structure Modifier where
  name : String
  detail : Option String
  deriving DecidableEq, Repr, Inhabited

namespace Modifier

/-- What stands between the outermost parentheses of a text. -/
def stripParens (s : String) : String :=
  let inner := (s.toList.dropWhile (· == '(')).reverse.dropWhile (· == ')')
  Unicode.trim (String.ofList inner.reverse)

/-- A modifier as its node has it. -/
def ofNode (t : Tree) : Modifier where
  name := t.keyword
  detail := (t.childOf? .modifierDetail).map fun d => stripParens d.normalizedText

/-- A modifier as it is shown. -/
def text (m : Modifier) : String :=
  match m.detail with
  | some detail => m.name ++ "(" ++ detail ++ ")"
  | none => m.name

end Modifier

/-- The modifiers of a declaration by name. -/
structure Modifiers where
  toList : List Modifier
  deriving DecidableEq, Repr, Inhabited

namespace Modifiers

/-- No modifiers. -/
def empty : Modifiers := ⟨[]⟩

/-- Put a modifier into a list of them: over the one of its name, or at the end. -/
def insertInto (m : Modifier) : List Modifier → List Modifier
  | [] => [m]
  | x :: xs => if x.name = m.name then m :: xs else x :: insertInto m xs

/-- Put a modifier in. -/
def insert (ms : Modifiers) (m : Modifier) : Modifiers := ⟨insertInto m ms.toList⟩

/-- The summary of a list of modifiers. -/
def ofList (ms : List Modifier) : Modifiers := ms.foldl insert empty

/-- The modifiers of a declaration as written, in order. -/
def written (t : Tree) : List Modifier :=
  match t.childOf? .modifierList with
  | some list => (list.childrenOf .modifier).map Modifier.ofNode
  | none => []

/-- The modifiers of a declaration. -/
def ofDeclaration (t : Tree) : Modifiers := ofList (written t)

/-- The names, in order. -/
def names (ms : Modifiers) : List String := ms.toList.map (·.name)

/-- Whether a modifier of a name is there. -/
def contains (ms : Modifiers) (name : String) : Bool := ms.names.contains name

/-- The detail of the modifier of a name, if it is there and has one. -/
def detail? (ms : Modifiers) (name : String) : Option String :=
  (ms.toList.find? (·.name == name)).bind (·.detail)

/-- Whether some modifier has a given detail. -/
def anyWithDetail (ms : Modifiers) (detail : String) : Bool :=
  ms.toList.any (·.detail == some detail)

/-- How many names there are. -/
def size (ms : Modifiers) : Nat := ms.toList.length

end Modifiers

end SwiftOutline

import SwiftOutline.Proofs.Look

/-!
# SwiftOutline.Proofs.Lossless

Reading a source file never fails and loses nothing.

* `depthAfter?`, `expressionWords?` — the words of an expression with a bracket depth that may
  not fall below zero: it never does (`expressionWords?_eq`), since a closing bracket outside
  all others ends the expression;
* `tokens_parse` — the tokens of the tree are the lexemes of the source;
* `parse_lossless` — what the tree spells, and that neither its reading by index nor its
  building from events fails.
-/

namespace SwiftOutline

/-! ## bracket depth -/

namespace Grammar

/-- The bracket depth after a word; none if it would fall below zero. -/
def depthAfter? (depth : Nat) (k : Kind) : Option Nat :=
  if k.isOpener then some (depth + 1)
  else if k.isCloser then if depth = 0 then none else some (depth - 1)
  else some depth

/-- The words of an expression from a given bracket depth on; none if the depth would fall
below zero. -/
def expressionWords? (accessorsFollow : Bool) (depth : Nat) (begun : Bool) :
    (ws : List Word) → Option (Parsed ws)
  | [] => some (.done [])
  | w :: r =>
    if depth == 0 && endsExpression accessorsFollow begun (w :: r) then some (.done (w :: r))
    else (depthAfter? depth w.kind).bind fun d =>
      (expressionWords? accessorsFollow d true r).map (.cons w)

/-- A closing bracket ends an expression outside all brackets. -/
theorem endsExpression_of_isCloser {accessorsFollow begun : Bool} {w : Word} {r : List Word}
    (h : w.kind.isCloser = true) : endsExpression accessorsFollow begun (w :: r) = true := by
  have hbrace : at? .openBrace (w :: r) = false := by
    cases hk : w.kind <;> simp_all [at?, kind?, Kind.isCloser]
  have hends : atAny expressionEnds (w :: r) = true := by
    cases hk : w.kind <;> simp_all [atAny, kind?, expressionEnds, Kind.isCloser]
  rw [endsExpression, hbrace, hends]
  rfl

/-- A word that does not end an expression leaves a bracket depth. -/
theorem depthAfter?_eq {accessorsFollow begun : Bool} {depth : Nat} {w : Word} {r : List Word}
    (h : ¬(depth == 0 && endsExpression accessorsFollow begun (w :: r)) = true) :
    depthAfter? depth w.kind = some (depthAfter depth w.kind) := by
  rw [depthAfter?, depthAfter]
  by_cases hopen : w.kind.isOpener = true
  · rw [if_pos hopen, if_pos hopen]
  · rw [if_neg hopen, if_neg hopen]
    by_cases hclose : w.kind.isCloser = true
    · have hdepth : depth ≠ 0 := by
        rintro rfl
        exact h (by rw [endsExpression_of_isCloser hclose]; rfl)
      rw [if_pos hclose, if_pos hclose, if_neg hdepth]
    · rw [if_neg hclose, if_neg hclose]

/-- The bracket depth in an expression never falls below zero. -/
theorem expressionWords?_eq (accessorsFollow : Bool) (depth : Nat) (begun : Bool)
    (ws : List Word) :
    expressionWords? accessorsFollow depth begun ws =
      some (expressionWords accessorsFollow depth begun ws) := by
  induction ws generalizing depth begun with
  | nil => rfl
  | cons w r ih =>
    rw [expressionWords?, expressionWords]
    by_cases h : (depth == 0 && endsExpression accessorsFollow begun (w :: r)) = true
    · rw [if_pos h, if_pos h]
    · rw [if_neg h, if_neg h, depthAfter?_eq h, Option.bind_some, ih, Option.map_some]

end Grammar

/-! ## source files -/

theorem treesOfAll_markedParts (source : String) :
    (parse source).tree = .node .sourceFile (Marked.treesOfAll (markedParts source)) := rfl

/-- The tokens of a source file's tree are its lexemes. -/
theorem tokens_parse (source : String) : (parse source).tree.tokens = Lexeme.lex source := by
  rw [treesOfAll_markedParts, Tree.tokens, Marked.tokens_treesOfAll, placedOfAll_markedParts,
    Placed.map_lexeme_ofLexemes]

theorem Lexeme.toList_textOfAll (ls : List Lexeme) :
    (textOfAll ls).toList = ls.flatMap (·.text.toList) := by
  rw [textOfAll, String.toList_join, List.flatMap_map]

/-- The tree of a source file spells the source. -/
theorem text_parse (source : String) : (parse source).tree.text = source := by
  rw [Tree.text, tokens_parse, ← String.toList_inj, Lexeme.toList_textOfAll, Lexeme.lex,
    Lexeme.flatMap_lexChars]

/-- A source file is read without loss and without failure. Its tree is one node around the
lexemes of the source, each of which is the slice of the source that its span covers, so that
the tree spells the source. The events build that tree. The cursor that records them, whenever
nodes are opened, never leaves its lexemes, and from every place it reaches

* every look succeeds and sees the words that are left;
* the sketch of any of those words is drawn, which takes it to the words after them.

The bracket depth of an expression never falls below zero. -/
theorem parse_lossless (source : String) :
    (∃ parts, (parse source).tree = .node .sourceFile parts) ∧
      (parse source).tree.tokens = Lexeme.lex source ∧
      (parse source).tree.text = source ∧
      (∀ p ∈ Cursor.lexemes source, p.span.slice? source.toList = some p.lexeme.text) ∧
      Tree.ofEvents? source (fileEvents source) = some (parse source).tree ∧
      (∀ opening, Cursor.run? source opening = some (fileEvents source)) ∧
      Cursor.At source .start [] (Cursor.lexemes source) ∧
      (∀ c front rest, Cursor.At source c front rest →
        Cursor.Looks source c ∧
          ∀ opening ss ws, Sketch.wordsOfAll ss ++ ws = Cursor.left source c →
            ∃ c' front' rest', Cursor.playAll? source opening none ss c = some c' ∧
              Cursor.At source c' front' rest' ∧ Cursor.left source c' = ws) ∧
      ∀ accessorsFollow ws, Grammar.expressionWords? accessorsFollow 0 false ws =
        some (Grammar.expressionWords accessorsFollow 0 false ws) := by
  refine ⟨⟨_, treesOfAll_markedParts source⟩, tokens_parse source, text_parse source,
    fun p hp => Cursor.slice?_of_mem_lexemes hp, ofEvents?_fileEvents source,
    fun opening => Cursor.run?_eq opening source, ⟨rfl, rfl, rfl⟩, ?_, ?_⟩
  · intro c front rest h
    refine ⟨Cursor.looks_of_le h.position_le, ?_⟩
    intro opening ss ws hw
    exact Cursor.playAll?_left opening h hw
  · intro accessorsFollow ws
    exact Grammar.expressionWords?_eq accessorsFollow 0 false ws

end SwiftOutline

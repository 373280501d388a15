import SwiftOutline.Proofs.Annotation
import SwiftOutline.Proofs.Respaced

/-!
# SwiftOutline.Proofs.Wrapped

A value that is written on one line, and the same value wrapped over several lines.

* `Word.cuts` — the words that break off a value before them: those on a new line that neither go on
  with the line before nor open a brace;
* `wordsOfAll_expressionWords` — line breaks outside brackets leave of a value the words before the
  first one that cuts;
* `Wraps` — other blanks, with line breaks in them or not, stand for blanks outside brackets;
* `value?_constantOf` — the value in the source that declares a constant;
* `value_of_wraps` — what is left of a value when it is wrapped.
-/

namespace SwiftOutline

open Lexeme (lexChars lexChars_lexeme charsOf charsOf_append charsOf_lexChars Respaced)

/-- A source that declares a constant. -/
def constantOf (value : String) : String := "let a = " ++ value

/-- The value of the first variable or constant that a source file declares. -/
def Tree.value? (file : Tree) : Option Tree :=
  (file.childOf? .variableDecl).bind fun d => (d.childOf? .patternBindingList).bind fun l =>
    (l.childOf? .patternBinding).bind fun b =>
      (b.childOf? .initializer).bind (·.childOf? .expression)

namespace Word

/-- A word without the line break before it. -/
def flat (w : Word) : Word := { w with onNewLine := false }

/-- Whether a word breaks off a value before it: on a new line it neither goes on with the line
before, by what it is itself, nor opens a brace. -/
def cuts (w : Word) : Bool :=
  w.onNewLine && !Grammar.continuesLine [w] && w.kind != .openBrace

theorem cuts_eq_false {w : Word} (h : w.onNewLine = false) : w.cuts = false := by simp [cuts, h]

end Word

namespace Grammar

open Word (flat)

/-! ## looking ahead -/

theorem kind?_flat (ws : List Word) : kind? (ws.map flat) = kind? ws := by cases ws <;> rfl

theorem at?_flat (k : Kind) (ws : List Word) : at? k (ws.map flat) = at? k ws := by
  rw [at?, kind?_flat, at?]

theorem atAny_flat (ks : List Kind) (ws : List Word) : atAny ks (ws.map flat) = atAny ks ws := by
  rw [atAny, kind?_flat, atAny]

theorem atName_flat (names : List String) (ws : List Word) :
    atName names (ws.map flat) = atName names ws := by cases ws <;> rfl

theorem groupLengthFrom_flat (depth : Nat) (ws : List Word) :
    groupLengthFrom depth (ws.map flat) = groupLengthFrom depth ws := by
  induction ws generalizing depth with
  | nil => rfl
  | cons w r ih =>
    have hkind : w.flat.kind = w.kind := rfl
    rw [List.map_cons, groupLengthFrom, groupLengthFrom, hkind]
    split
    · rfl
    · rw [ih]

theorem skipArguments_flat (ws : List Word) :
    skipArguments (ws.map flat) = (skipArguments ws).map flat := by
  have hjoined : atJoinedParen (ws.map flat) = atJoinedParen ws := by cases ws <;> rfl
  rw [skipArguments, skipArguments, hjoined, groupLength, groupLengthFrom_flat, groupLength]
  split
  · rw [List.map_drop]
  · rfl

theorem skipAccessorModifiers_flat (ws : List Word) :
    skipAccessorModifiers (ws.map flat) = (skipAccessorModifiers ws).map flat := by
  fun_induction skipAccessorModifiers ws with
  | case1 => rw [List.map_nil, skipAccessorModifiers]
  | case2 w r hw ih =>
    have hsign : w.flat.kind = .atSign := hw
    rw [List.map_cons, skipAccessorModifiers, if_pos hsign, ← List.map_tail, skipArguments_flat, ih]
  | case3 w r hw hname ih =>
    have hsign : ¬w.flat.kind = .atSign := hw
    have hname' : atName accessorModifierNames (w.flat :: r.map flat) = true := hname
    rw [List.map_cons, skipAccessorModifiers, if_neg hsign, if_pos hname', ih]
  | case4 w r hw hname =>
    have hsign : ¬w.flat.kind = .atSign := hw
    have hname' : ¬atName accessorModifierNames (w.flat :: r.map flat) = true := hname
    rw [List.map_cons, skipAccessorModifiers, if_neg hsign, if_neg hname']

/-- Whether an accessor stands next does not depend on line breaks. -/
theorem atAccessor_flat (ws : List Word) : atAccessor (ws.map flat) = atAccessor ws := by
  induction hlen : ws.length using Nat.strongRecOn generalizing ws with
  | ind l ih =>
    subst hlen
    have hle := length_skipAccessorModifiers_le ws
    rw [atAccessor_eq, atAccessor_eq, skipAccessorModifiers_flat]
    cases hs : skipAccessorModifiers ws with
    | nil => rfl
    | cons w r =>
      rw [hs] at hle
      have hname : atName accessorNames (w.flat :: r.map flat) =
        atName accessorNames (w :: r) := rfl
      simp only [List.map_cons, hname, atAny_flat, at?_flat, atName_flat, ih r.length hle r rfl]

/-- Line breaks end an expression before a word that cuts, and do nothing else. -/
theorem endsExpression_eq (accessorsFollow begun : Bool) (w : Word) (r : List Word) :
    endsExpression accessorsFollow begun (w :: r) =
      (endsExpression accessorsFollow begun ((w :: r).map flat) || begun && w.cuts) := by
  have hblock : atAccessorBlock ((w :: r).map flat) = atAccessorBlock (w :: r) := by
    rw [atAccessorBlock, at?_flat, ← List.map_tail, atAccessor_flat, atAccessorBlock]
  have hline : startsLine begun ((w :: r).map flat) = false := by
    rw [startsLine, List.map_cons, List.head?_cons, Option.any_some]
    simp [flat]
  have hstarts : startsLine begun (w :: r) = (begun && w.onNewLine && !continuesLine [w]) := rfl
  rw [endsExpression, endsExpression, at?_flat, hblock, atAny_flat, hline, hstarts, Word.cuts]
  cases hbrace : at? .openBrace (w :: r) with
  | true =>
    have hw : w.kind = .openBrace := by simpa [at?, kind?] using hbrace
    simp [hw]
  | false =>
    have hw : w.kind ≠ .openBrace := by simpa [at?, kind?] using hbrace
    have hne : (w.kind != .openBrace) = true := by simpa using hw
    simp [hne, Bool.and_assoc]

/-! ## the words of a value -/

/-- Line breaks stand outside brackets only. -/
def BrokenOutside : Nat → List Word → Prop
  | _, [] => True
  | depth, w :: r => (depth ≠ 0 → w.onNewLine = false) ∧ BrokenOutside (depthAfter depth w.kind) r

theorem expressionWords_cons {accessorsFollow begun : Bool} {depth : Nat} {w : Word} {r : List Word}
    (h : (depth == 0 && endsExpression accessorsFollow begun (w :: r)) = false) :
    expressionWords accessorsFollow depth begun (w :: r) =
      .cons w (expressionWords accessorsFollow (depthAfter depth w.kind) true r) := by
  rw [expressionWords, h, if_neg Bool.false_ne_true]

/-- If without line breaks a value takes all words, with them it takes those before the first one
that cuts. -/
theorem wordsOfAll_expressionWords (accessorsFollow : Bool) {depth : Nat} {begun : Bool}
    {ws : List Word} (hbroken : BrokenOutside depth ws)
    (hbegun : begun = false → ∀ w ∈ ws.head?, w.onNewLine = false)
    (hrest : (expressionWords accessorsFollow depth begun (ws.map flat)).rest = []) :
    Sketch.wordsOfAll (expressionWords accessorsFollow depth begun ws).sketches =
      ws.takeWhile (!·.cuts) := by
  induction ws generalizing depth begun with
  | nil => rfl
  | cons w r ih =>
    obtain ⟨hdepth, hbroken⟩ := hbroken
    have hends := endsExpression_eq accessorsFollow begun w r
    rw [List.map_cons, expressionWords] at hrest
    split at hrest
    · simp at hrest
    next hgoes =>
    cases hcuts : w.cuts with
    | false =>
      have hnot : (depth == 0 && endsExpression accessorsFollow begun (w :: r)) = false := by
        rw [hends, hcuts, Bool.and_false, Bool.or_false]
        exact Bool.eq_false_iff.2 hgoes
      rw [expressionWords_cons hnot, List.takeWhile_cons_of_pos (by simp [hcuts]),
        ← ih hbroken (by simp) hrest]
      rfl
    | true =>
      -- such a word stands on a new line: outside brackets, and not first
      have hline : w.onNewLine ≠ false := fun hsame =>
        Bool.false_ne_true ((Word.cuts_eq_false hsame).symm.trans hcuts)
      obtain rfl : depth = 0 := by_contra fun hne => hline (hdepth hne)
      obtain rfl : begun = true := Bool.eq_true_of_not_eq_false fun hfirst =>
        hline (hbegun hfirst w rfl)
      rw [expressionWords, hends, hcuts, Bool.and_self, Bool.or_true,
        List.takeWhile_cons_of_neg (by simp [hcuts])]
      rfl

/-! ## wrapping -/

/-- From a bracket depth on, other blanks stand for blanks outside brackets. -/
inductive WrapsFrom : Nat → List Lexeme → List Lexeme → Prop
  | nil (depth : Nat) : WrapsFrom depth [] []
  | keep {depth : Nat} {ls ls' : List Lexeme} (l : Lexeme) :
      WrapsFrom (depthAfter depth l.kind) ls ls' → WrapsFrom depth (l :: ls) (l :: ls')
  | blank {l l' : Lexeme} {ls ls' : List Lexeme} :
      l.IsBlank → l'.IsBlank → WrapsFrom 0 ls ls' → WrapsFrom 0 (l :: ls) (l' :: ls')

variable {depth : Nat} {ls ls' : List Lexeme}

theorem WrapsFrom.respaced (h : WrapsFrom depth ls ls') : List.Forall₂ Respaced ls ls' := by
  induction h with
  | nil => exact .nil
  | keep l _ ih => exact .cons (.inl rfl) ih
  | blank hl hl' _ ih => exact .cons (.inr ⟨hl, hl'⟩) ih

theorem depthAfter_of_isTrivia {k : Kind} (hk : k.isTrivia = true) :
    depthAfter depth k = depth := by
  cases k <;> simp_all [Kind.isTrivia, depthAfter, Kind.isOpener, Kind.isCloser]

/-- The words stay the same but for line breaks before them, -/
theorem WrapsFrom.map_flat (h : WrapsFrom depth ls ls') (hline : ∀ l ∈ ls, l.hasNewline = false)
    (joined onNewLine : Bool) : (Word.ofLexemesAfter joined onNewLine ls').map flat =
      Word.ofLexemesAfter joined false ls := by
  induction h generalizing joined onNewLine with
  | nil => rfl
  | keep l _ ih =>
    obtain ⟨hl, hls⟩ := List.forall_mem_cons.1 hline
    rw [Word.ofLexemesAfter, Word.ofLexemesAfter, hl, Bool.or_false, Bool.or_false]
    split
    · exact ih hls _ _
    · exact congrArg _ (ih hls _ _)
  | blank hl hl' _ ih =>
    obtain ⟨hnone, hls⟩ := List.forall_mem_cons.1 hline
    rw [Word.ofLexemesAfter, Word.ofLexemesAfter, if_pos hl.isTrivia, if_pos hl'.isTrivia, hnone]
    exact ih hls _ _

/-- and these stand outside brackets. -/
theorem WrapsFrom.brokenOutside (h : WrapsFrom depth ls ls')
    (hline : ∀ l ∈ ls, l.hasNewline = false) (joined : Bool) {onNewLine : Bool}
    (hdepth : depth ≠ 0 → onNewLine = false) :
    BrokenOutside depth (Word.ofLexemesAfter joined onNewLine ls') := by
  induction h generalizing joined onNewLine with
  | nil => exact True.intro
  | keep l _ ih =>
    obtain ⟨hl, hls⟩ := List.forall_mem_cons.1 hline
    rw [Word.ofLexemesAfter, hl, Bool.or_false]
    split
    · next htrivia =>
      rw [depthAfter_of_isTrivia htrivia] at ih
      exact ih hls _ hdepth
    · exact ⟨hdepth, ih hls _ (fun _ => rfl)⟩
  | blank hl hl' _ ih =>
    obtain ⟨-, hls⟩ := List.forall_mem_cons.1 hline
    rw [Word.ofLexemesAfter, if_pos hl'.isTrivia]
    exact ih hls _ (fun h => absurd rfl h)

/-! ## the source -/

/-- The keyword of the declaration. -/
def letWord : Word := ⟨.kwLet, "let", false, false⟩

/-- The name of the constant. -/
def constantWord : Word := ⟨.identifier, "a", false, false⟩

/-- The sign before the value. -/
def equalsWord : Word := ⟨.equals, "=", false, false⟩

theorem lex_constantOf (value : String) :
    Lexeme.lex (constantOf value) =
      ⟨.kwLet, "let"⟩ :: ⟨.whitespace, " "⟩ :: ⟨.identifier, "a"⟩ :: ⟨.whitespace, " "⟩ ::
        ⟨.equals, "="⟩ :: lexChars (' ' :: value.toList) := by
  have hchars : (constantOf value).toList =
      'l' :: ("et".toList ++ ' ' :: 'a' :: ' ' :: '=' :: ' ' :: value.toList) := by
    rw [constantOf, String.toList_append]
    rfl
  have hlet : lexChars ('l' :: ("et".toList ++ ' ' :: 'a' :: ' ' :: '=' :: ' ' :: value.toList)) =
      ⟨.kwLet, "let"⟩ :: lexChars (' ' :: 'a' :: ' ' :: '=' :: ' ' :: value.toList) :=
    lexChars_lexeme "et".toList rfl
  have hspace : lexChars (' ' :: 'a' :: ' ' :: '=' :: ' ' :: value.toList) =
      ⟨.whitespace, " "⟩ :: lexChars ('a' :: ' ' :: '=' :: ' ' :: value.toList) :=
    lexChars_lexeme [] rfl
  have hname : lexChars ('a' :: ' ' :: '=' :: ' ' :: value.toList) =
      ⟨.identifier, "a"⟩ :: lexChars (' ' :: '=' :: ' ' :: value.toList) := lexChars_lexeme [] rfl
  have hspace' : lexChars (' ' :: '=' :: ' ' :: value.toList) =
      ⟨.whitespace, " "⟩ :: lexChars ('=' :: ' ' :: value.toList) := lexChars_lexeme [] rfl
  have hequals : lexChars ('=' :: ' ' :: value.toList) =
      ⟨.equals, "="⟩ :: lexChars (' ' :: value.toList) := lexChars_lexeme [] rfl
  rw [Lexeme.lex, hchars, hlet, hspace, hname, hspace', hequals]

theorem ofLexemes_constantOf (value : String) :
    Word.ofLexemes (Lexeme.lex (constantOf value)) =
      letWord :: constantWord :: equalsWord :: Word.ofLexemes (Lexeme.lex value) := by
  have hvalue : Word.ofLexemes (Lexeme.lex value) = wordsOf false value.toList := rfl
  rw [lex_constantOf, hvalue, ← wordsOf_space true]
  rfl

/-- What stands in a value. -/
def valueParts (ws : List Word) : Parsed ws :=
  if ws.isEmpty || endsExpression true false ws then .mark (.fault .noExpression) rfl ws
  else expressionWords true 0 false ws

/-- The sketch of a constant with a value and what else stands there. -/
def constantSketch (value binding list : List Sketch) : Sketch :=
  .node .variableDecl [.word letWord, .node .patternBindingList
    (.node .patternBinding (.node .identifierPattern [.word constantWord] ::
      .node .initializer [.word equalsWord, .node .expression value] :: binding) :: list)]

theorem sketches_constant (ws : List Word) :
    ∃ binding list items, (fileItems (letWord :: constantWord :: equalsWord :: ws)).sketches =
      constantSketch (valueParts ws).sketches binding list :: items := by
  have hother : atOther [] (letWord :: constantWord :: equalsWord :: ws) = true := rfl
  have hitem {n : Nat} (inside : List Kind → Rule n) (h) : ∃ binding list,
      (item inside [] (letWord :: constantWord :: equalsWord :: ws) h).sketches =
        [constantSketch (valueParts ws).sketches binding list] := by
    rw [item_binding (.inr rfl)]
    exact ⟨_, _, rfl⟩
  rw [fileItems, itemsFrom, dif_pos hother]
  obtain ⟨binding, list, heq⟩ := hitem (fun stop r _ => itemsFrom stop r) (Nat.lt_succ_self _)
  exact ⟨binding, list, _, congrArg (· ++ _) heq⟩

/-! ## the value -/

theorem value?_bare (t : Tree) : t.bare.value? = t.value?.map Tree.bare := by
  simp only [Tree.value?, Tree.childOf?_bare, Option.bind_map, Option.map_bind, Function.comp_def]

/-- Without trivia, the value is what stands in it. -/
theorem bare_value {value : String} {v : Tree}
    (h : (parse (constantOf value)).tree.value? = some v) : v.bare = .node .expression
      (Sketch.treesOfAll (valueParts (Word.ofLexemes (Lexeme.lex value))).sketches) := by
  obtain ⟨binding, list, items, hsketches⟩ :=
    sketches_constant (Word.ofLexemes (Lexeme.lex value))
  have hbare := value?_bare (parse (constantOf value)).tree
  rw [h, bare_parse, fileSketch, ofLexemes_constantOf, hsketches] at hbare
  exact (Option.some.inj hbare).symm

/-- The words of the value are those that stand in it. -/
theorem allWords_value {value : String} {v : Tree}
    (h : (parse (constantOf value)).tree.value? = some v) :
    v.allWords = (Sketch.wordsOfAll
      (valueParts (Word.ofLexemes (Lexeme.lex value))).sketches).map Word.lexeme := by
  rw [← Tree.allWords_bare, bare_value h, Tree.allWords, Tree.tokens, Sketch.tokens_treesOfAll,
    List.filter_eq_self]
  intro l hl
  obtain ⟨w, hw, rfl⟩ := List.mem_map.1 hl
  have hmem : w ∈ Word.ofLexemes (Lexeme.lex value) :=
    (valueParts (Word.ofLexemes (Lexeme.lex value))).covers ▸ List.mem_append_left _ hw
  rw [(Word.mem_of_mem_ofLexemes hmem).2]
  rfl

/-- The lexemes from the value on. -/
def placedValue (value : String) : List Placed :=
  (Marked.leading (Placed.ofLexemes 7 (lexChars (' ' :: value.toList)))).2

/-- What is laid over them, and what of them is left. -/
def laidValue (value : String) : List Marked × List Placed :=
  Sketch.layAll (Lexeme.sizeOfAll (Lexeme.lex (constantOf value)))
    (valueParts (Word.ofLexemes (Lexeme.lex value))).sketches (placedValue value)

/-- No node stands in leading trivia. -/
theorem find?_leading (k : Kind) (ps : List Placed) :
    (Marked.treesOfAll (Marked.leading ps).1).find? (Tree.isNodeOf k) = none := by
  rw [Marked.leading]
  induction ps.takeWhile (·.lexeme.isTrivia) with
  | nil => rfl
  | cons p ps ih => exact ih

theorem value?_constantOf (value : String) : (parse (constantOf value)).tree.value? =
    some (.node .expression (Marked.treesOfAll (laidValue value).1)) := by
  obtain ⟨binding, list, items, hsketches⟩ :=
    sketches_constant (Word.ofLexemes (Lexeme.lex value))
  have hplaced : Placed.ofLexemes 0 (Lexeme.lex (constantOf value)) =
      ⟨⟨.kwLet, "let"⟩, ⟨0, 3⟩⟩ :: ⟨⟨.whitespace, " "⟩, ⟨3, 4⟩⟩ :: ⟨⟨.identifier, "a"⟩, ⟨4, 5⟩⟩ ::
        ⟨⟨.whitespace, " "⟩, ⟨5, 6⟩⟩ :: ⟨⟨.equals, "="⟩, ⟨6, 7⟩⟩ ::
          Placed.ofLexemes 7 (lexChars (' ' :: value.toList)) := by
    rw [lex_constantOf]
    rfl
  have hfile : fileSketch (constantOf value) =
      constantSketch (valueParts (Word.ofLexemes (Lexeme.lex value))).sketches binding list ::
        items := by
    rw [fileSketch, ofLexemes_constantOf]
    exact hsketches
  show Tree.value? (.node .sourceFile (Marked.treesOfAll (markedParts (constantOf value)))) = _
  rw [markedParts_eq, hfile, hplaced]
  show (Marked.treesOfAll (Sketch.layAll _ [.node .expression _] _).1).find?
    (Tree.isNodeOf .expression) = _
  rw [Sketch.layAll_cons, Sketch.lay_node, Marked.treesOfAll_append, Marked.treesOfAll_append,
    List.append_assoc, List.find?_append, find?_leading, Option.none_or]
  rfl

/-! ## values on one line -/

/-- A text on one line that is all of the value of a constant, which is read without faults. -/
structure IsValue (text : String) : Prop where
  line : '\n' ∉ text.toList
  clean : (parse (constantOf text)).faults = []
  covered : ∃ v, (parse (constantOf text)).tree.value? = some v ∧ v.text = text

/-- Without faults, a value is of at least one word. -/
theorem valueParts_of_clean {ws : List Word} (h : Sketch.CleanAll (valueParts ws).sketches) :
    ws ≠ [] ∧ valueParts ws = expressionWords true 0 false ws := by
  unfold valueParts at h ⊢
  split at h
  · exact h.1.elim
  next hsome =>
  rw [if_neg hsome]
  exact ⟨by rintro rfl; exact hsome rfl, rfl⟩

theorem lexemes_placedValue (value : String) : (placedValue value).map (·.lexeme) =
    (lexChars (' ' :: value.toList)).dropWhile (·.isTrivia) := by
  conv_rhs => rw [← Placed.map_lexeme_ofLexemes 7 (lexChars (' ' :: value.toList))]
  rw [List.dropWhile_map]
  rfl

theorem lexemes_laidValue (value : String) :
    (Marked.placedOfAll (laidValue value).1).map (·.lexeme) ++
      (laidValue value).2.map (·.lexeme) =
        (lexChars (' ' :: value.toList)).dropWhile (·.isTrivia) := by
  rw [← List.map_append, laidValue, Sketch.placed_layAll, lexemes_placedValue]

theorem map_lexeme_placedValue (value : String) :
    (Placed.words (placedValue value)).map (·.lexeme) =
      (Word.ofLexemes (Lexeme.lex value)).map Word.lexeme := by
  have hvalue : Word.ofLexemes (Lexeme.lex value) = wordsOf false value.toList := rfl
  rw [hvalue, ← wordsOf_space true, wordsOf, Word.map_lexeme_ofLexemesAfter, placedValue,
    Marked.words_leading, Placed.map_lexeme_words, Placed.map_lexeme_ofLexemes]

theorem toList_text_ne_nil {cs : List Char} {l : Lexeme} (h : l ∈ lexChars cs) :
    l.text.toList ≠ [] := by
  fun_induction lexChars cs with
  | case1 => cases h
  | case2 c tail kind n _ ih =>
    obtain rfl | h := List.mem_cons.1 h
    · simp
    · exact ih h

theorem charsOf_eq_nil {cs : List Char} {ls : List Lexeme} (hls : ls ⊆ lexChars cs)
    (h : charsOf ls = []) : ls = [] := by
  cases ls with
  | nil => rfl
  | cons l ls =>
    have hnil : l.text.toList = [] := (List.append_eq_nil_iff.1 h).1
    exact absurd hnil (toList_text_ne_nil (hls List.mem_cons_self))

/-- If trivia is but one space in front of a text, the text does not start with trivia. -/
theorem isTrivia_head?_lexChars {cs : List Char}
    (h : (charsOf ((lexChars (' ' :: cs)).takeWhile (·.isTrivia))).length ≤ 1) :
    ∀ l ∈ (lexChars cs).head?, l.isTrivia = false := by
  rw [lexChars_of_isSpace rfl, List.takeWhile_cons_of_pos rfl] at h
  generalize Lexeme.countWhile Lexeme.isSpace cs = n at h
  obtain ⟨htake, hnone⟩ : cs.take n = [] ∧
      charsOf ((lexChars (cs.drop n)).takeWhile (·.isTrivia)) = [] := by
    rw [← List.append_eq_nil_iff, ← List.length_eq_zero_iff]
    simpa [charsOf] using h
  have hdrop : cs.drop n = cs := by
    have happend := List.take_append_drop n cs
    rwa [htake] at happend
  rw [hdrop] at hnone
  have hnil := charsOf_eq_nil (List.takeWhile_subset _) hnone
  intro l hl
  obtain ⟨ls, hcons⟩ := List.head?_eq_some_iff.1 (Option.mem_def.1 hl)
  by_contra htrivia
  rw [hcons, List.takeWhile_cons_of_pos (by simpa using htrivia)] at hnil
  cases hnil

namespace IsValue

variable {text : String} (h : IsValue text)

include h

theorem cleanAll : Sketch.CleanAll (valueParts (Word.ofLexemes (Lexeme.lex text))).sketches := by
  obtain ⟨binding, list, items, hsketches⟩ := sketches_constant (Word.ofLexemes (Lexeme.lex text))
  have hfile := cleanAll_fileSketch h.clean
  rw [fileSketch, ofLexemes_constantOf, hsketches] at hfile
  exact hfile.1.2.1.1.2.1.2.1

/-- One space stands in front of the value, and nothing behind it. -/
theorem length_around :
    (charsOf ((lexChars (' ' :: text.toList)).takeWhile (·.isTrivia))).length +
      (charsOf ((laidValue text).2.map (·.lexeme))).length = 1 := by
  obtain ⟨v, hv, htext⟩ := h.covered
  obtain rfl := Option.some.inj ((value?_constantOf text).symm.trans hv)
  have hinside : charsOf ((Marked.placedOfAll (laidValue text).1).map (·.lexeme)) =
      text.toList := by
    rw [← Marked.tokens_treesOfAll]
    exact (Tree.toList_text _).symm.trans (congrArg String.toList htext)
  have hlaid := congrArg charsOf (lexemes_laidValue text)
  rw [charsOf_append, hinside] at hlaid
  have hall := charsOf_lexChars (' ' :: text.toList)
  rw [← List.takeWhile_append_dropWhile (p := (·.isTrivia)) (l := lexChars (' ' :: text.toList)),
    charsOf_append, ← hlaid] at hall
  have hlength := congrArg List.length hall
  simp only [List.length_append, List.length_cons] at hlength
  omega

/-- The value starts with a word, -/
theorem exists_word : ∃ l ls, Lexeme.lex text = l :: ls ∧ l.isTrivia = false := by
  have haround := h.length_around
  have hwords := (valueParts_of_clean h.cleanAll).1
  have hhead : ∀ l ∈ (Lexeme.lex text).head?, l.isTrivia = false :=
    isTrivia_head?_lexChars (by omega)
  cases hlex : Lexeme.lex text with
  | nil => exact absurd (by rw [hlex]; rfl) hwords
  | cons l ls => exact ⟨l, ls, rfl, hhead l (by rw [hlex]; rfl)⟩

/-- and takes all words. -/
theorem rest_eq_nil :
    (expressionWords true 0 false (Word.ofLexemes (Lexeme.lex text))).rest = [] := by
  have haround := h.length_around
  have hfirst : 0 < (charsOf ((lexChars (' ' :: text.toList)).takeWhile (·.isTrivia))).length := by
    rw [lexChars_of_isSpace rfl, List.takeWhile_cons_of_pos rfl]
    simp [charsOf]
  have hnone : charsOf ((laidValue text).2.map (·.lexeme)) = [] := by
    rw [← List.length_eq_zero_iff]
    omega
  have hsub : (laidValue text).2.map (·.lexeme) ⊆ lexChars (' ' :: text.toList) := by
    have hdrop := List.dropWhile_subset (·.isTrivia) (l := lexChars (' ' :: text.toList))
    rw [← lexemes_laidValue] at hdrop
    exact List.Subset.trans (List.subset_append_right _ _) hdrop
  have hwords := Parsed.map_lexeme_layAll (valueParts (Word.ofLexemes (Lexeme.lex text)))
    (Lexeme.sizeOfAll (Lexeme.lex (constantOf text))) (map_lexeme_placedValue text)
  rw [← laidValue, List.map_eq_nil_iff.1 (charsOf_eq_nil hsub hnone)] at hwords
  rw [← (valueParts_of_clean h.cleanAll).2]
  exact List.map_eq_nil_iff.1 hwords.symm

end IsValue

/-! ## values on several lines -/

/-- Other blanks stand for blanks outside brackets. -/
def Wraps (text text' : String) : Prop :=
  ∃ ls, WrapsFrom 0 (Lexeme.lex text) ls ∧ text'.toList = charsOf ls

variable {text text' : String}

theorem hasNewline_of_mem_lex (hline : '\n' ∉ text.toList) :
    ∀ l ∈ Lexeme.lex text, l.hasNewline = false := by
  intro l hl
  rw [Lexeme.hasNewline, Bool.eq_false_iff]
  intro hmem
  refine hline ?_
  rw [← charsOf_lexChars text.toList]
  exact List.mem_flatMap.2 ⟨l, hl, List.contains_iff_mem.1 hmem⟩

/-- The lexemes of a wrapped text are those of the text, with the other blanks. -/
theorem Wraps.wrapsFrom (hline : '\n' ∉ text.toList) (h : Wraps text text') :
    WrapsFrom 0 (Lexeme.lex text) (Lexeme.lex text') := by
  obtain ⟨ls, hls, htext'⟩ := h
  rw [Lexeme.lex.eq_1 text', htext', Lexeme.lexChars_respaced hline hls.respaced]
  exact hls

/-- Where words start a value without line breaks before them, they do so with line breaks. -/
theorem valueParts_of_flat {ws : List Word}
    (h : Sketch.CleanAll (valueParts (ws.map flat)).sketches) :
    valueParts ws = expressionWords true 0 false ws := by
  unfold valueParts at h ⊢
  split at h
  · exact h.1.elim
  next hsome =>
  cases ws with
  | nil => exact absurd rfl hsome
  | cons w r =>
    have hends := endsExpression_eq true false w r
    rw [Bool.false_and, Bool.or_false] at hends
    rw [hends]
    exact if_neg hsome

/-- The words of a wrapped text, without the line breaks before them, are those of the text. -/
theorem map_flat_wrapped (hline : '\n' ∉ text.toList) (h : Wraps text text') :
    (Word.ofLexemes (Lexeme.lex text')).map flat = Word.ofLexemes (Lexeme.lex text) :=
  (h.wrapsFrom hline).map_flat (hasNewline_of_mem_lex hline) false false

/-- A value on one line is of all its words. -/
theorem wordsOfAll_value (h : IsValue text) :
    Sketch.wordsOfAll (valueParts (Word.ofLexemes (Lexeme.lex text))).sketches =
      Word.ofLexemes (Lexeme.lex text) := by
  have hcovers := (expressionWords true 0 false (Word.ofLexemes (Lexeme.lex text))).covers
  rw [h.rest_eq_nil, List.append_nil] at hcovers
  rw [(valueParts_of_clean h.cleanAll).2, hcovers]

/-- A wrapped value is of the words before the first one that cuts. -/
theorem wordsOfAll_wrapped (h : IsValue text) (hwraps : Wraps text text') :
    Sketch.wordsOfAll (valueParts (Word.ofLexemes (Lexeme.lex text'))).sketches =
      (Word.ofLexemes (Lexeme.lex text')).takeWhile (!·.cuts) := by
  have hfrom := hwraps.wrapsFrom h.line
  have hbroken := hfrom.brokenOutside (hasNewline_of_mem_lex h.line) false fun _ => rfl
  have hfirst : ∀ w ∈ (Word.ofLexemes (Lexeme.lex text')).head?, w.onNewLine = false := by
    obtain ⟨l, ls, hlex, hword⟩ := h.exists_word
    rw [hlex] at hfrom
    generalize Lexeme.lex text' = ls' at hfrom
    cases hfrom with
    | keep =>
      rw [Word.ofLexemes, Word.ofLexemesAfter, hword, if_neg Bool.false_ne_true]
      rintro w ⟨⟩
      rfl
    | blank hblank => exact absurd hblank.isTrivia (by simp [hword])
  have hclean := h.cleanAll
  have hrest := h.rest_eq_nil
  rw [← map_flat_wrapped h.line hwraps] at hclean hrest
  rw [valueParts_of_flat hclean]
  exact wordsOfAll_expressionWords true hbroken (fun _ => hfirst) hrest

end Grammar

open Grammar (IsValue Wraps)

/-- A value on one line, and what is left of it with other blanks, and line breaks, outside its
brackets. It ends before the first word on a new line that neither goes on with the line before by
itself nor opens a brace, whatever stands at the end of that line. So it stays whole exactly if
there is no such word. -/
theorem value_of_wraps {text text' : String} (h : IsValue text) (hwraps : Wraps text text') :
    ∃ v v', (parse (constantOf text)).tree.value? = some v ∧
      (parse (constantOf text')).tree.value? = some v' ∧
      v'.allWords = ((Word.ofLexemes (Lexeme.lex text')).takeWhile (!·.cuts)).map Word.lexeme ∧
      (v'.allWords = v.allWords ↔
        ∀ w ∈ Word.ofLexemes (Lexeme.lex text'), w.cuts = false) := by
  have hvalue := Grammar.value?_constantOf text
  have hvalue' := Grammar.value?_constantOf text'
  refine ⟨_, _, hvalue, hvalue', ?_, ?_⟩
  · rw [Grammar.allWords_value hvalue', Grammar.wordsOfAll_wrapped h hwraps]
  · have hwords : (Word.ofLexemes (Lexeme.lex text)).map Word.lexeme =
        (Word.ofLexemes (Lexeme.lex text')).map Word.lexeme := by
      rw [← Grammar.map_flat_wrapped h.line hwraps, List.map_map]
      rfl
    have hfront : (Word.ofLexemes (Lexeme.lex text')).takeWhile (!·.cuts) <+:
      Word.ofLexemes (Lexeme.lex text') := List.takeWhile_prefix _
    have hall := List.takeWhile_eq_self_iff (p := (!·.cuts))
      (l := Word.ofLexemes (Lexeme.lex text'))
    rw [Grammar.allWords_value hvalue, Grammar.allWords_value hvalue',
      Grammar.wordsOfAll_wrapped h hwraps, Grammar.wordsOfAll_value h, hwords]
    constructor
    · intro heq
      have hlength := congrArg List.length heq
      rw [List.length_map, List.length_map] at hlength
      simpa using hall.1 (hfront.eq_of_length hlength)
    · intro hcuts
      rw [hall.2 (by simpa using hcuts)]

theorem isValue_of_eq {text : String} (hline : '\n' ∉ text.toList)
    (hclean : (parse (constantOf text)).faults = [])
    (hcovered : (parse (constantOf text)).tree.value?.map Tree.text = some text) : IsValue text :=
  ⟨hline, hclean, Option.map_eq_some_iff.1 hcovered⟩

theorem isValue_sum : IsValue "b + c" :=
  isValue_of_eq (by decide) (by decide +kernel) (by decide +kernel)

theorem wraps_sum : Wraps "b + c" "b +\n    c" := by
  refine ⟨[⟨.identifier, "b"⟩, ⟨.whitespace, " "⟩, ⟨.customOperator, "+"⟩,
    ⟨.whitespace, "\n    "⟩, ⟨.identifier, "c"⟩], ?_, by decide⟩
  have hlex : Lexeme.lex "b + c" = [⟨.identifier, "b"⟩, ⟨.whitespace, " "⟩, ⟨.customOperator, "+"⟩,
    ⟨.whitespace, " "⟩, ⟨.identifier, "c"⟩] := by decide +kernel
  rw [hlex]
  exact .keep _ (.keep _ (.keep _ (.blank (Lexeme.isBlank_of_all (by decide) (by decide))
    (Lexeme.isBlank_of_all (by decide) (by decide)) (.keep _ (.nil _)))))

/-- A sum that is broken behind its sign ends with the sign. -/
theorem value_of_wraps_sum :
    IsValue "b + c" ∧ Wraps "b + c" "b +\n    c" ∧
      ∃ v, (parse (constantOf "b +\n    c")).tree.value? = some v ∧
        v.allWords = [⟨.identifier, "b"⟩, ⟨.customOperator, "+"⟩] := by
  obtain ⟨-, v, -, hv, hwords, -⟩ := value_of_wraps isValue_sum wraps_sum
  exact ⟨isValue_sum, wraps_sum, v, hv, hwords.trans (by decide +kernel)⟩

theorem isValue_ternary : IsValue "b ? c : d" :=
  isValue_of_eq (by decide) (by decide +kernel) (by decide +kernel)

theorem wraps_ternary : Wraps "b ? c : d" "b\n    ? c\n    : d" := by
  refine ⟨[⟨.identifier, "b"⟩, ⟨.whitespace, "\n    "⟩, ⟨.question, "?"⟩, ⟨.whitespace, " "⟩,
    ⟨.identifier, "c"⟩, ⟨.whitespace, "\n    "⟩, ⟨.colon, ":"⟩, ⟨.whitespace, " "⟩,
    ⟨.identifier, "d"⟩], ?_, by decide⟩
  have hlex : Lexeme.lex "b ? c : d" = [⟨.identifier, "b"⟩, ⟨.whitespace, " "⟩, ⟨.question, "?"⟩,
    ⟨.whitespace, " "⟩, ⟨.identifier, "c"⟩, ⟨.whitespace, " "⟩, ⟨.colon, ":"⟩, ⟨.whitespace, " "⟩,
    ⟨.identifier, "d"⟩] := by decide +kernel
  have hspace := Lexeme.isBlank_of_all (s := " ") (by decide) (by decide)
  have hbreak := Lexeme.isBlank_of_all (s := "\n    ") (by decide) (by decide)
  rw [hlex]
  exact .keep _ (.blank hspace hbreak (.keep _ (.keep _ (.keep _ (.blank hspace hbreak
    (.keep _ (.keep _ (.keep _ (.nil _)))))))))

/-- A choice that is broken before both its signs goes on with the question mark but ends before the
colon. -/
theorem value_ternary_cut :
    IsValue "b ? c : d" ∧ Wraps "b ? c : d" "b\n    ? c\n    : d" ∧
      (parse (constantOf "b\n    ? c\n    : d")).tree.value?.map Tree.text = some "b\n    ? c" ∧
      (parse (constantOf "b\n    ? c\n    : d")).tree.value?.map Tree.allWords ≠
        (parse (constantOf "b ? c : d")).tree.value?.map Tree.allWords :=
  ⟨isValue_ternary, wraps_ternary, by decide +kernel, by decide +kernel⟩

end SwiftOutline

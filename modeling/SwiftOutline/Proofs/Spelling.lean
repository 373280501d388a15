import SwiftOutline.Proofs.Phrase
import SwiftOutline.Proofs.Seam
import SwiftOutline.TypeShape

/-!
# SwiftOutline.Proofs.Spelling

Words and texts that read as types of a shape.

* `Denotes`, `DenotesPrimary` — words that read as a type of a shape, one lemma for every way to put
  a type together of others;
* `wordsOf` — the words of a text; behind a mark and before an edge a text has words of its own
  (`wordsOf_mark`, `wordsOf_append`);
* `Spells`, `SpellsPrimary` — texts whose words read as a type of a shape, with a last word that
  nothing behind it joins.
-/

namespace SwiftOutline

open Grammar

namespace TypeShape

/-! ## trees of words -/

@[simp] theorem typesIn_word (w : Word) (ts : List Tree) : typesIn (w.tree :: ts) = typesIn ts := by
  rw [typesIn]
  rfl

theorem typesIn_type {t : Tree} (h : t.isType = true) (ts : List Tree) :
    typesIn (t :: ts) = ofTree t :: typesIn ts := by rw [typesIn, if_pos h]

theorem typesIn_other {k : Kind} (hk : k.isType = false) (cs ts : List Tree) :
    typesIn (.node k cs :: ts) = typesIn ts := by
  rw [typesIn, Tree.isType, Tree.kind, hk, Bool.and_false, if_neg Bool.false_ne_true]

@[simp] theorem elementsIn_word (w : Word) (ts : List Tree) :
    elementsIn (w.tree :: ts) = elementsIn ts := by
  rw [Word.tree, elementsIn]
  simp

@[simp] theorem argumentsIn_word (w : Word) (ts : List Tree) :
    argumentsIn (w.tree :: ts) = argumentsIn ts := by
  rw [Word.tree, argumentsIn]
  simp

theorem argumentsIn_clause (cs ts : List Tree) :
    argumentsIn (.node .genericArgumentClause cs :: ts) = typesIn cs := by rw [argumentsIn]

@[simp] theorem segmentsIn_word (w : Word) (ts : List Tree) :
    segmentsIn (w.tree :: ts) = segmentsIn ts := by
  rw [Word.tree, segmentsIn]
  simp

theorem segmentsIn_segment (cs ts : List Tree) :
    segmentsIn (.node .typePathSegment cs :: ts) =
      ((Tree.node .typePathSegment cs).keyword, argumentsIn cs) :: segmentsIn ts := by
  rw [segmentsIn]

theorem elementsIn_element {t : Tree} (h : t.isType = true) (ts : List Tree) :
    elementsIn (.node .typeTupleElement [t] :: ts) = ⟨ofTree t, false, false⟩ :: elementsIn ts := by
  cases t with
  | token => cases h
  | node k cs =>
    rw [elementsIn, typesIn_type h]
    rfl

theorem typesIn_separatedTrees {ts : List Tree} (h : ∀ t ∈ ts, t.isType = true) (us : List Tree) :
    typesIn (separatedTrees ts ++ us) = ts.map ofTree ++ typesIn us := by
  have hmore {ts : List Tree} (h : ∀ t ∈ ts, t.isType = true) :
      typesIn ((ts.flatMap fun u => [comma.tree, u]) ++ us) = ts.map ofTree ++ typesIn us := by
    induction ts with
    | nil => rfl
    | cons t ts ih =>
      have ⟨ht, hts⟩ := List.forall_mem_cons.1 h
      simp [typesIn_type ht, ih hts]
  cases ts with
  | nil => rfl
  | cons t ts =>
    have ⟨ht, hts⟩ := List.forall_mem_cons.1 h
    simp [separatedTrees, typesIn_type ht, hmore hts]

theorem elementsIn_separatedTrees {ts : List Tree} (h : ∀ t ∈ ts, t.isType = true)
    (us : List Tree) :
    elementsIn (separatedTrees (ts.map fun t => .node .typeTupleElement [t]) ++ us) =
      (ts.map fun t => ⟨ofTree t, false, false⟩) ++ elementsIn us := by
  have hmore {ts : List Tree} (h : ∀ t ∈ ts, t.isType = true) :
      elementsIn (((ts.map fun t => .node .typeTupleElement [t]).flatMap
          fun u => [comma.tree, u]) ++ us) =
        (ts.map fun t => ⟨ofTree t, false, false⟩) ++ elementsIn us := by
    induction ts with
    | nil => rfl
    | cons t ts ih =>
      have ⟨ht, hts⟩ := List.forall_mem_cons.1 h
      simp [elementsIn_element ht, ih hts]
  cases ts with
  | nil => rfl
  | cons t ts =>
    have ⟨ht, hts⟩ := List.forall_mem_cons.1 h
    simp [separatedTrees, elementsIn_element ht, hmore hts]

end TypeShape

/-! ## words -/

namespace Grammar

open TypeShape

/-- Words that read as a type of a shape. -/
def Denotes (ws : List Word) (s : TypeShape) : Prop := ∃ t, IsType ws t ∧ ofTree t = s

/-- Words that read as a type of a shape, which a suffix may follow. -/
def DenotesPrimary (ws : List Word) (s : TypeShape) : Prop := ∃ t, IsPrimary ws t ∧ ofTree t = s

variable {ws us : List Word} {s : TypeShape} {wss : List (List Word)} {ss : List TypeShape}
  {w m d o c : Word}

theorem DenotesPrimary.denotes (h : DenotesPrimary ws s) : Denotes ws s := by
  obtain ⟨t, ht, hs⟩ := h
  exact ⟨t, ht.toType, hs⟩

/-- Phrases that read as types of some shapes have trees of these shapes. -/
theorem exists_trees (h : List.Forall₂ Denotes wss ss) :
    ∃ ts, List.Forall₂ IsType wss ts ∧ (∀ t ∈ ts, t.isType = true) ∧ ts.map ofTree = ss := by
  induction h with
  | nil => exact ⟨[], .nil, by simp, rfl⟩
  | cons hfirst _ ih =>
    obtain ⟨t, ht, rfl⟩ := hfirst
    obtain ⟨ts, hts, htypes, rfl⟩ := ih
    exact ⟨t :: ts, .cons ht hts, List.forall_mem_cons.2 ⟨ht.isType, htypes⟩, rfl⟩

/-! ### paths -/

/-- A name of a path for what some shapes make of it. -/
def NamesWith (ws : List Word) (name : String) (ss : List TypeShape) : Prop :=
  ∃ cs, IsSegment ws (.node .typePathSegment cs) ∧
    (Tree.node .typePathSegment cs).keyword = name ∧ argumentsIn cs = ss

theorem keyword_segment {w : Word} (hw : w.kind.isTrivia = false) (ts : List Tree) :
    (Tree.node .typePathSegment (w.tree :: ts)).keyword = w.text := by
  simp [Tree.keyword, Tree.keyword?, Tree.words, Tree.children, Word.tree, Tree.isWord, Tree.isNode,
    Tree.kind, Tree.ownText, hw]

theorem namesWith_nil (hk : w.kind = .identifier) (hw : isPrefix w = false) :
    NamesWith [w] w.text [] := by
  refine ⟨_, isSegment_name hk hw, keyword_segment (by rw [hk]; rfl) _, ?_⟩
  rw [argumentsIn_word, argumentsIn]

theorem namesWith_arguments (hk : w.kind = .identifier) (hw : isPrefix w = false)
    (ho : o.kind = .openAngle) (hc : c.kind = .closeAngle) (h : List.Forall₂ Denotes wss ss) :
    NamesWith (w :: o :: (separated wss ++ [c])) w.text ss := by
  obtain ⟨ts, hts, htypes, rfl⟩ := exists_trees h
  refine ⟨_, isSegment_arguments hk hw ho hc hts, keyword_segment (by rw [hk]; rfl) _, ?_⟩
  rw [argumentsIn_word, argumentsIn_clause, typesIn_word, typesIn_separatedTrees htypes,
    typesIn_word, typesIn, List.append_nil]

/-- A name that is known, with its arguments. -/
theorem NamesWith.denotes {name : String} (h : NamesWith ws name ss)
    (hs : ofName? name ss = some s) : DenotesPrimary ws s := by
  obtain ⟨cs, hsegment, rfl, rfl⟩ := h
  refine ⟨_, hsegment.path, ?_⟩
  rw [ofTree, segmentsIn_segment, segmentsIn, ofPath, hs, Option.getD_some]

/-- A name that is known behind the module it comes from. -/
theorem NamesWith.denotes_qualified {name : String} (h : NamesWith ws name ss)
    (hs : ofName? name ss = some s) (hm : m.kind = .identifier) (hmodule : m.text = "Swift")
    (hd : d.kind = .dot) : DenotesPrimary (m :: d :: ws) s := by
  obtain ⟨cs, hsegment, rfl, rfl⟩ := h
  have hprefix : isPrefix m = false := by simp [isPrefix, hm, hmodule, ownershipNames]
  have hkeyword := keyword_segment (w := m) (by rw [hm]; rfl) []
  refine ⟨_, hsegment.qualified hm hprefix hd, ?_⟩
  rw [ofTree, segmentsIn_segment, segmentsIn_word, segmentsIn_segment, segmentsIn, ofPath, hkeyword,
    hmodule, if_pos (by simp), hs, Option.getD_some]

/-- A name that is not known. -/
theorem denotes_name (hk : w.kind = .identifier) (hw : isPrefix w = false)
    (hvoid : w.text ≠ "Void") : DenotesPrimary [w] (.simple w.text) := by
  obtain ⟨cs, hsegment, hname, hnil⟩ := namesWith_nil hk hw
  refine ⟨_, (isSegment_name hk hw).path, ?_⟩
  have hunknown : ofName? w.text [] = none := by
    unfold ofName?
    split
    case h_6 => exact absurd ‹_› hvoid
    all_goals first | rfl | contradiction
  have htext : (Tree.node .typePath [.node .typePathSegment [w.tree]]).normalizedText = w.text := by
    simp [Tree.normalizedText, Tree.allWords, Tree.tokens, Tree.tokensOfAll, Word.tree, hk,
      Lexeme.isTrivia, Kind.isTrivia, Lexeme.spaced, Lexeme.spacedAfter]
  rw [ofTree, segmentsIn_segment, segmentsIn, ofPath, keyword_segment (by rw [hk]; rfl),
    argumentsIn_word, argumentsIn, hunknown, htext, Option.getD_none]

/-! ### suffixes and brackets -/

theorem DenotesPrimary.suffixed (h : DenotesPrimary ws s) (hw : w.kind = .question ∨ w.kind = .bang)
    (hjoined : w.joined = true) : Denotes (ws ++ [w]) (.optional s) := by
  obtain ⟨t, ht, rfl⟩ := h
  have htree {k : Kind} (hk : k = .typeOptional ∨ k = .typeImplicitlyUnwrapped) :
      ofTree (.node k [t, w.tree]) = .optional (ofTree t) := by
    obtain rfl | rfl := hk <;> rw [ofTree, typesIn_type ht.isType] <;> rfl
  obtain hw | hw := hw
  · have hk : suffixKind? [w] = some .typeOptional := by
      simp [suffixKind?, isJoined, at?, kind?, hw, hjoined]
    exact ⟨_, ht.suffixed hk rfl, htree (.inl rfl)⟩
  · have hk : suffixKind? [w] = some .typeImplicitlyUnwrapped := by
      simp [suffixKind?, isJoined, at?, kind?, hw, hjoined]
    exact ⟨_, ht.suffixed hk rfl, htree (.inr rfl)⟩

theorem Denotes.array (h : Denotes ws s) (ho : o.kind = .openBracket)
    (hc : c.kind = .closeBracket) : DenotesPrimary (o :: (ws ++ [c])) (.array s) := by
  obtain ⟨t, ht, rfl⟩ := h
  refine ⟨_, ht.array ho hc, ?_⟩
  rw [ofTree, typesIn_word, typesIn_type ht.isType]
  rfl

theorem Denotes.dictionary {u : TypeShape} (h : Denotes ws s) (hvalue : Denotes us u)
    (ho : o.kind = .openBracket) (hd : d.kind = .colon) (hc : c.kind = .closeBracket) :
    DenotesPrimary (o :: (ws ++ d :: (us ++ [c]))) (.dictionary s u) := by
  obtain ⟨t, ht, rfl⟩ := h
  obtain ⟨v, hv, rfl⟩ := hvalue
  refine ⟨_, ht.dictionary hv ho hd hc, ?_⟩
  rw [ofTree, typesIn_word, typesIn_type ht.isType, typesIn_word, typesIn_type hv.isType]
  rfl

/-! ### tuples and functions -/

theorem elementsIn_tupleTree {ts : List Tree} (h : ∀ t ∈ ts, t.isType = true) (o c : Word) :
    elementsIn (tupleTree o c ts).children = ts.map fun t => ⟨ofTree t, false, false⟩ := by
  rw [tupleTree, Tree.children, elementsIn_word, elementsIn_separatedTrees h, elementsIn_word,
    elementsIn, List.append_nil]

theorem denotes_tuple (h : List.Forall₂ Denotes wss ss) (ho : o.kind = .openParen)
    (hc : c.kind = .closeParen) :
    DenotesPrimary (o :: (separated wss ++ [c]))
      (ofElements (ss.map fun s => ⟨s, false, false⟩)) := by
  obtain ⟨ts, hts, htypes, rfl⟩ := exists_trees h
  refine ⟨_, IsType.tuple hts ho hc, ?_⟩
  have helements := elementsIn_tupleTree htypes o c
  rw [tupleTree, Tree.children] at helements
  rw [tupleTree, ofTree, helements, List.map_map]
  rfl

/-- The words for effects before an arrow. -/
def effectWords (isAsync isThrowing : Bool) : List Word :=
  (if isAsync then [⟨.identifier, "async", false, false⟩] else []) ++
    if isThrowing then [⟨.kwThrows, "throws", false, false⟩] else []

theorem isNodeOf_of_isType {t : Tree} {k : Kind} (ht : t.isType = true) (hk : k.isType = false) :
    t.isNodeOf k = false := by
  cases t with
  | token => cases ht
  | node j cs =>
    have hj : j ≠ k := by
      rintro rfl
      exact Bool.false_ne_true (hk.symm.trans ht)
    simp [Tree.isNodeOf, Tree.kind, hj]

theorem ofParent_typeFunction (o c a : Word) (ts : List Tree) {t : Tree} (ht : t.isType = true)
    (isAsync isThrowing : Bool) :
    let effects := Effects.ofParent (.node .typeFunction
      (tupleTree o c ts :: (effectTrees (effectWords isAsync isThrowing) ++ [a.tree, t])))
    effects.isAsync = isAsync ∧ effects.isThrowing = isThrowing := by
  have hnone : t.isNodeOf .effectSpecifiers = false := isNodeOf_of_isType ht rfl
  cases isAsync <;> cases isThrowing
  · have hchild : (Tree.node .typeFunction [tupleTree o c ts, a.tree, t]).childOf?
        .effectSpecifiers = none := by
      rw [Tree.childOf?, Tree.children, List.find?_cons_of_neg Bool.false_ne_true,
        List.find?_cons_of_neg Bool.false_ne_true, List.find?_cons_of_neg (by simp [hnone]),
        List.find?_nil]
    show (Effects.ofParent (.node .typeFunction [tupleTree o c ts, a.tree, t])).isAsync = false ∧
      (Effects.ofParent (.node .typeFunction [tupleTree o c ts, a.tree, t])).isThrowing = false
    rw [Effects.ofParent, hchild]
    exact ⟨rfl, rfl⟩
  all_goals exact ⟨rfl, rfl⟩

theorem denotes_function {isAsync isThrowing : Bool} {a : Word} (h : List.Forall₂ Denotes wss ss)
    (hout : Denotes ws s) (ho : o.kind = .openParen) (hc : c.kind = .closeParen)
    (ha : a.kind = .arrow) :
    Denotes (o :: (separated wss ++ c :: (effectWords isAsync isThrowing ++ a :: ws)))
      (.closure ss isAsync isThrowing false s) := by
  obtain ⟨ts, hts, htypes, rfl⟩ := exists_trees h
  obtain ⟨t, ht, rfl⟩ := hout
  have hes : ∀ e ∈ effectWords isAsync isThrowing, atEffect [e] = true := by
    cases isAsync <;> cases isThrowing <;> simp [effectWords, atEffect, atAny, atName, kind?]
  refine ⟨_, IsType.function hts ht ho hc hes ha, ?_⟩
  obtain ⟨hasync, hthrowing⟩ := ofParent_typeFunction o c a ts ht.isType isAsync isThrowing
  have hinputs (us : List Tree) : (inputsIn (tupleTree o c ts :: us)).map Element.value =
      ts.map ofTree := by
    have helements := elementsIn_tupleTree htypes o c
    rw [tupleTree, Tree.children] at helements
    rw [tupleTree, inputsIn, helements, List.map_map]
    rfl
  have htypesIn (es : List Word) :
      (typesIn (tupleTree o c ts :: (effectTrees es ++ [a.tree, t]))).tail = [ofTree t] := by
    rw [typesIn_type rfl, List.tail_cons]
    unfold effectTrees
    split
    · rw [List.nil_append, typesIn_word, typesIn_type ht.isType, typesIn]
    · rw [List.cons_append, typesIn_other rfl, List.nil_append, typesIn_word,
        typesIn_type ht.isType, typesIn]
  rw [ofTree, hinputs, htypesIn, hasync, hthrowing]
  rfl

theorem Denotes.escaping {isAsync isThrowing isEscaping : Bool} {e : Word} {r : List Word}
    (h : Denotes (o :: r) (.closure ss isAsync isThrowing isEscaping s)) (hm : m.kind = .atSign)
    (he : e = ⟨.identifier, "escaping", true, false⟩) (ho : o.kind = .openParen)
    (hjoined : o.joined = false) :
    Denotes (m :: e :: o :: r) (.closure ss isAsync isThrowing true s) := by
  obtain ⟨t, ht, hs⟩ := h
  refine ⟨_, ht.attributed hm ho hjoined, ?_⟩
  have hnone : t.isNodeOf .attributeList = false := isNodeOf_of_isType ht.isType rfl
  have htypes (us : List Tree) : typesIn [.node .attributeList us, t] = [ofTree t] := by
    rw [typesIn_other rfl, typesIn_type ht.isType, typesIn]
  have hescaping : TypeShape.isEscaping (.node .typeAttributed
      [.node .attributeList [attributeTree m e], t]) = true := by
    have hlists (u : Tree) (hu : u.isNodeOf .attributeList = true) :
        (Tree.node .typeAttributed [u, t]).childrenOf .attributeList = [u] := by
      simp [Tree.childrenOf, Tree.children, hu, hnone]
    rw [TypeShape.isEscaping, hlists _ rfl, he]
    rfl
  rw [ofTree, htypes, hescaping, first, List.head?_cons, Option.getD_some, hs]
  rfl

/-! ## texts -/

section

open Lexeme

variable {cs ds : List Char} {d : Char}

/-- The words of a text. The first one is joined or not, as what stands before the text has it. -/
def wordsOf (joined : Bool) (cs : List Char) : List Word :=
  Word.ofLexemesAfter joined false (lexChars cs)

@[simp] theorem wordsOf_nil (joined : Bool) : wordsOf joined [] = [] := by
  rw [wordsOf, lexChars_nil]
  rfl

/-- The word of a lexeme, and the words behind it. -/
theorem wordsOf_lexeme {c : Char} {k : Kind} (front : List Char) {cs : List Char}
    (h : scan c (front ++ cs) = (k, front.length)) (hk : k.isTrivia = false) (joined : Bool) :
    wordsOf joined (c :: (front ++ cs)) =
      ⟨k, String.ofList (c :: front), joined, false⟩ :: wordsOf true cs := by
  rw [wordsOf, lexChars_lexeme front h, Word.ofLexemesAfter, Lexeme.isTrivia, hk,
    if_neg Bool.false_ne_true, wordsOf]

/-- A mark that goes on with nothing is a word. -/
theorem wordsOf_mark {c : Char} {k : Kind} (h : scan c cs = (k, 0)) (hk : k.isTrivia = false)
    (joined : Bool) :
    wordsOf joined (c :: cs) = ⟨k, String.ofList [c], joined, false⟩ :: wordsOf true cs :=
  wordsOf_lexeme [] h hk joined

theorem lexChars_of_isSpace {c : Char} (hc : isSpace c = true) (cs : List Char) :
    lexChars (c :: cs) =
      ⟨.whitespace, String.ofList (c :: cs.take (countWhile isSpace cs))⟩ ::
        lexChars (cs.drop (countWhile isSpace cs)) := by
  rw [lexChars_cons, scan_of_isSpace hc]

/-- Spaces behind a space are one with it. -/
theorem drop_countWhile_isSpace {c : Char} (cs : List Char) :
    (isSpace c = true ∧ (c :: cs).drop (countWhile isSpace (c :: cs)) =
        cs.drop (countWhile isSpace cs)) ∨
      (isSpace c = false ∧ countWhile isSpace (c :: cs) = 0) := by
  cases hc : isSpace c <;> simp [countWhile, hc]

theorem ofLexemesAfter_whitespace (joined onNewLine : Bool) (text : List Char) (ls : List Lexeme) :
    Word.ofLexemesAfter joined onNewLine (⟨.whitespace, String.ofList text⟩ :: ls) =
      Word.ofLexemesAfter false (onNewLine || text.contains '\n') ls := by
  rw [Word.ofLexemesAfter, Lexeme.hasNewline, String.toList_ofList]
  rfl

/-- Behind a space a word is joined to nothing. -/
theorem wordsOf_space (joined : Bool) (cs : List Char) :
    wordsOf joined (' ' :: cs) = wordsOf false cs := by
  rw [wordsOf, lexChars_of_isSpace rfl, ofLexemesAfter_whitespace]
  cases cs with
  | nil => rfl
  | cons c cs =>
    obtain ⟨hc, hdrop⟩ | ⟨hc, hzero⟩ := drop_countWhile_isSpace (c := c) cs
    · rw [hdrop, wordsOf, lexChars_of_isSpace hc, ofLexemesAfter_whitespace]
      simp [countWhile, hc]
    · simp [hzero, wordsOf]

/-! ### the last word -/

/-- Kinds of words that nothing behind them joins. -/
def firmEnds : List Kind :=
  [.identifier, .kwSelfType, .kwClass, .kwProtocol, .closeParen, .closeBracket, .closeAngle]

/-- Kinds of words that a type ends with. -/
def typeEnds : List Kind := .question :: .bang :: firmEnds

/-- A text ends with a lexeme of some kinds. -/
def EndsIn (ks : List Kind) (cs : List Char) : Prop :=
  ∃ l, (lexChars cs).getLast? = some l ∧ l.kind ∈ ks

theorem EndsIn.mono {ks ls : List Kind} (h : EndsIn ks cs) (hsub : ks ⊆ ls) : EndsIn ls cs := by
  obtain ⟨l, hl, hk⟩ := h
  exact ⟨l, hl, hsub hk⟩

/-- Where a character starts, a text and what is behind it are cut apart. -/
def Apart (cs : List Char) (d : Char) : Prop :=
  d ∈ edges ∧ ∃ l, (lexChars cs).getLast? = some l ∧ StopsBefore d l.kind

theorem EndsIn.apart_of_firm (h : EndsIn firmEnds cs) (hd : d ∈ edges) : Apart cs d := by
  obtain ⟨l, hl, hk⟩ := h
  have hsub : firmEnds ⊆ [.identifier, .kwSelfType, .kwClass, .kwProtocol, .closeParen,
    .closeBracket, .closeAngle, .colon] := by decide
  exact ⟨hd, l, hl, .inl (hsub hk)⟩

theorem EndsIn.apart (h : EndsIn typeEnds cs) (hd : d ∈ edges) (hnone : isOperatorChar d = false) :
    Apart cs d := by
  obtain ⟨l, hl, hk⟩ := h
  obtain hk | hk := (List.mem_append (s := [Kind.question, .bang])).1 hk
  · exact ⟨hd, l, hl, .inr ⟨hk, hnone⟩⟩
  · exact EndsIn.apart_of_firm ⟨l, hl, hk⟩ hd

theorem Apart.lexChars_append (h : Apart cs d) (ds : List Char) :
    lexChars (cs ++ d :: ds) = lexChars cs ++ lexChars (d :: ds) := by
  obtain ⟨hd, l, hl, hstop⟩ := h
  refine lexChars_seam ds hd fun m hm => ?_
  obtain rfl : l = m := Option.some.inj (hl.symm.trans hm)
  exact hstop

theorem Apart.wordsOf_append (h : Apart cs d) (joined : Bool) (ds : List Char) :
    wordsOf joined (cs ++ d :: ds) = wordsOf joined cs ++ wordsOf true (d :: ds) := by
  rw [wordsOf, h.lexChars_append]
  obtain ⟨hd, l, hl, hstop⟩ := h
  obtain ⟨front, hfront⟩ := List.getLast?_eq_some_iff.1 hl
  have hword : l.isTrivia = false := by
    have hopen := hstop.not_mem
    unfold Lexeme.isTrivia
    cases hk : l.kind <;> simp [hk, openKinds, Kind.isTrivia] at hopen ⊢
  rw [hfront, List.append_assoc, List.singleton_append, Word.ofLexemesAfter_word _ _ _ _ _ hword,
    wordsOf, hfront]
  rfl

theorem EndsIn.append {ks : List Kind} (h : EndsIn ks (d :: ds)) (hcs : Apart cs d) :
    EndsIn ks (cs ++ d :: ds) := by
  obtain ⟨l, hl, hk⟩ := h
  exact ⟨l, by rw [hcs.lexChars_append, List.getLast?_append, hl]; rfl, hk⟩

theorem EndsIn.lexeme {ks : List Kind} {c : Char} {k : Kind} (h : EndsIn ks cs) (front : List Char)
    (hscan : scan c (front ++ cs) = (k, front.length)) : EndsIn ks (c :: (front ++ cs)) := by
  obtain ⟨l, hl, hk⟩ := h
  refine ⟨l, ?_, hk⟩
  rw [lexChars_lexeme front hscan, List.getLast?_cons, hl]
  rfl

theorem EndsIn.mark {ks : List Kind} {c : Char} {k : Kind} (h : EndsIn ks cs)
    (hscan : scan c cs = (k, 0)) : EndsIn ks (c :: cs) := h.lexeme [] hscan

theorem EndsIn.space {ks : List Kind} (h : EndsIn ks cs) : EndsIn ks (' ' :: cs) := by
  obtain ⟨l, hl, hk⟩ := h
  rw [EndsIn, lexChars_of_isSpace rfl, List.getLast?_cons]
  cases cs with
  | nil => simp at hl
  | cons c cs =>
    obtain ⟨hc, hdrop⟩ | ⟨hc, hzero⟩ := drop_countWhile_isSpace (c := c) cs
    · rw [lexChars_of_isSpace hc, List.getLast?_cons] at hl
      rw [hdrop]
      cases hlast : (lexChars (cs.drop (countWhile isSpace cs))).getLast? with
      | none =>
        rw [hlast] at hl
        cases hl
        exact ⟨_, rfl, hk⟩
      | some m =>
        rw [hlast] at hl
        cases hl
        exact ⟨_, rfl, hk⟩
    · rw [hzero, List.drop_zero, hl]
      exact ⟨l, rfl, hk⟩

theorem endsIn_mark {ks : List Kind} {c : Char} {k : Kind} (hscan : scan c [] = (k, 0))
    (hk : k ∈ ks) : EndsIn ks [c] := by
  refine ⟨⟨k, String.ofList [c]⟩, ?_, hk⟩
  have hlex : lexChars [c] = ⟨k, String.ofList [c]⟩ :: lexChars [] := lexChars_lexeme [] hscan
  rw [hlex, lexChars_nil]
  rfl

/-! ### texts of types -/

/-- A text that reads as a type of a shape. -/
structure Spells (cs : List Char) (s : TypeShape) : Prop where
  ends : EndsIn typeEnds cs
  denotes (joined : Bool) : Denotes (wordsOf joined cs) s

/-- A text that reads as a type of a shape, which a suffix may follow. -/
structure SpellsPrimary (cs : List Char) (s : TypeShape) : Prop where
  ends : EndsIn firmEnds cs
  denotes (joined : Bool) : DenotesPrimary (wordsOf joined cs) s

theorem SpellsPrimary.spells (h : SpellsPrimary cs s) : Spells cs s where
  ends := h.ends.mono (by decide)
  denotes joined := (h.denotes joined).denotes

/-- A closing mark of one character behind a text. -/
theorem wordsOf_close {k : Kind} (h : Apart cs d) (hscan : scan d [] = (k, 0))
    (hk : k.isTrivia = false) (joined : Bool) :
    wordsOf joined (cs ++ [d]) = wordsOf joined cs ++ [⟨k, String.ofList [d], true, false⟩] := by
  rw [h.wordsOf_append, wordsOf_mark hscan hk, wordsOf_nil]

theorem SpellsPrimary.question (h : SpellsPrimary cs s) : Spells (cs ++ ['?']) (.optional s) where
  ends := (endsIn_mark rfl (by decide)).append (h.ends.apart_of_firm (by decide))
  denotes joined := by
    rw [wordsOf_close (h.ends.apart_of_firm (by decide)) rfl rfl]
    exact (h.denotes joined).suffixed (.inl rfl) rfl

theorem SpellsPrimary.bang (h : SpellsPrimary cs s) : Spells (cs ++ ['!']) (.optional s) where
  ends := (endsIn_mark rfl (by decide)).append (h.ends.apart_of_firm (by decide))
  denotes joined := by
    rw [wordsOf_close (h.ends.apart_of_firm (by decide)) rfl rfl]
    exact (h.denotes joined).suffixed (.inr rfl) rfl

theorem Spells.array (h : Spells cs s) : SpellsPrimary ('[' :: (cs ++ [']'])) (.array s) where
  ends := ((endsIn_mark rfl (by decide)).append (h.ends.apart (by decide) rfl)).mark rfl
  denotes joined := by
    rw [wordsOf_mark rfl rfl, wordsOf_close (h.ends.apart (by decide) rfl) rfl rfl]
    exact (h.denotes true).array rfl rfl

theorem Spells.dictionary {u : TypeShape} (h : Spells cs s) (hvalue : Spells ds u) :
    SpellsPrimary ('[' :: (cs ++ ':' :: ' ' :: (ds ++ [']']))) (.dictionary s u) where
  ends := by
    have hmark : EndsIn firmEnds [']'] := endsIn_mark rfl (by decide)
    have hend := hmark.append (hvalue.ends.apart (by decide) rfl)
    exact ((hend.space.mark rfl).append (h.ends.apart (by decide) rfl)).mark rfl
  denotes joined := by
    rw [wordsOf_mark rfl rfl, (h.ends.apart (by decide) rfl).wordsOf_append, wordsOf_mark rfl rfl,
      wordsOf_space, wordsOf_close (hvalue.ends.apart (by decide) rfl) rfl rfl]
    exact (h.denotes true).dictionary (hvalue.denotes false) rfl rfl rfl

/-! ### lists -/

/-- Texts with a comma and a space between them. -/
def commaText : List (List Char) → List Char
  | [] => []
  | cs :: css => cs ++ css.flatMap (',' :: ' ' :: ·)

section

variable {css : List (List Char)} (es : List Char) (hd : d ∈ edges)
  (hnone : isOperatorChar d = false)

include hd hnone

/-- Behind an element of a list in brackets stands a mark. -/
theorem exists_commas_eq (css : List (List Char)) :
    ∃ e rest, css.flatMap (',' :: ' ' :: ·) ++ d :: es = e :: rest ∧ e ∈ edges ∧
      isOperatorChar e = false := by
  cases css with
  | nil => exact ⟨d, es, rfl, hd, hnone⟩
  | cons cs css => exact ⟨',', _, rfl, by decide, rfl⟩

theorem wordsOf_commas (h : List.Forall₂ Spells css ss) :
    ∃ wss, wordsOf true (css.flatMap (',' :: ' ' :: ·) ++ d :: es) =
        wss.flatMap (comma :: ·) ++ wordsOf true (d :: es) ∧ List.Forall₂ Denotes wss ss := by
  induction h with
  | nil => exact ⟨[], rfl, .nil⟩
  | @cons cs s css ss hfirst _ ih =>
    obtain ⟨wss, hwords, hwss⟩ := ih
    obtain ⟨e, rest, heq, he, hoperator⟩ := exists_commas_eq es hd hnone css
    refine ⟨wordsOf false cs :: wss, ?_, .cons (hfirst.denotes false) hwss⟩
    rw [List.flatMap_cons, List.append_assoc, heq, List.cons_append, List.cons_append,
      wordsOf_mark rfl rfl, wordsOf_space, (hfirst.ends.apart he hoperator).wordsOf_append, ← heq,
      hwords, List.flatMap_cons, List.cons_append, ← List.append_assoc]
    rfl

/-- A list of types in brackets has the words of its types, up to the closing mark. -/
theorem wordsOf_commaText (h : List.Forall₂ Spells css ss) :
    ∃ wss, wordsOf true (commaText css ++ d :: es) = separated wss ++ wordsOf true (d :: es) ∧
      List.Forall₂ Denotes wss ss := by
  cases h with
  | nil => exact ⟨[], rfl, .nil⟩
  | @cons cs s css ss hfirst hothers =>
    obtain ⟨wss, hwords, hwss⟩ := wordsOf_commas es hd hnone hothers
    obtain ⟨e, rest, heq, he, hoperator⟩ := exists_commas_eq es hd hnone css
    refine ⟨wordsOf true cs :: wss, ?_, .cons (hfirst.denotes true) hwss⟩
    rw [commaText, List.append_assoc, heq, (hfirst.ends.apart he hoperator).wordsOf_append, ← heq,
      hwords, separated, List.append_assoc]

theorem endsIn_commas {ks : List Kind} (h : List.Forall₂ Spells css ss)
    (hend : EndsIn ks (d :: es)) : EndsIn ks (css.flatMap (',' :: ' ' :: ·) ++ d :: es) := by
  induction h with
  | nil => exact hend
  | @cons cs s css ss hfirst _ ih =>
    obtain ⟨e, rest, heq, he, hoperator⟩ := exists_commas_eq es hd hnone css
    rw [List.flatMap_cons, List.cons_append, List.cons_append, List.append_assoc]
    rw [heq] at ih ⊢
    exact (ih.append (hfirst.ends.apart he hoperator)).space.mark rfl

theorem endsIn_commaText {ks : List Kind} (h : List.Forall₂ Spells css ss)
    (hend : EndsIn ks (d :: es)) : EndsIn ks (commaText css ++ d :: es) := by
  cases h with
  | nil => exact hend
  | @cons cs s css ss hfirst hothers =>
    have hmore := endsIn_commas es hd hnone hothers hend
    obtain ⟨e, rest, heq, he, hoperator⟩ := exists_commas_eq es hd hnone css
    rw [commaText, List.append_assoc]
    rw [heq] at hmore ⊢
    exact hmore.append (hfirst.ends.apart he hoperator)

end

/-! ### paths, tuples and functions -/

/-- A text that reads as a name of a path with arguments of some shapes. -/
structure SpellsName (cs : List Char) (name : String) (ss : List TypeShape) : Prop where
  ends : EndsIn firmEnds cs
  head : cs.head? ≠ some '.'
  names (joined : Bool) : NamesWith (wordsOf joined cs) name ss

/-- A text of one identifier. -/
theorem wordsOf_identifier {x : String} (h : lexChars cs = [⟨.identifier, x⟩]) (joined : Bool) :
    wordsOf joined cs = [⟨.identifier, x, joined, false⟩] := by
  rw [wordsOf, h]
  rfl

/-- A name that is no prefix of a type. -/
structure IsPlainName (cs : List Char) (x : String) : Prop where
  lex : lexChars cs = [⟨.identifier, x⟩]
  plain : x ∉ "some" :: "any" :: ownershipNames

/-- A text that is cut as one identifier is a plain name, unless it is a prefix of types. -/
theorem isPlainName_of_scan (c : Char) (cs : List Char)
    (h : scan c cs = (.identifier, cs.length))
    (hplain : String.ofList (c :: cs) ∉ "some" :: "any" :: ownershipNames) :
    IsPlainName (c :: cs) (String.ofList (c :: cs)) where
  lex := by
    have hlex := lexChars_lexeme (c := c) cs (by rwa [List.append_nil])
    rwa [List.append_nil, Lexeme.lexChars_nil] at hlex
  plain := hplain

namespace IsPlainName

variable {x : String} {css : List (List Char)}

theorem ends (h : IsPlainName cs x) : EndsIn firmEnds cs :=
  ⟨⟨.identifier, x⟩, by rw [h.lex]; rfl, by simp [firmEnds]⟩

theorem exists_cons (h : IsPlainName cs x) : ∃ c r, cs = c :: r ∧ c ≠ '.' := by
  cases cs with
  | nil =>
    have hlex := h.lex
    simp at hlex
  | cons c r =>
    refine ⟨c, r, rfl, ?_⟩
    rintro rfl
    -- what a dot starts is never a name
    have hlex := h.lex
    rw [lexChars_cons] at hlex
    have hkind : (scan '.' r).1 = .identifier := congrArg Lexeme.kind (List.cons.inj hlex).1
    have hdot : (scan '.' r).1 ∈ openKinds := kind_scanDot
    rw [hkind] at hdot
    simp [openKinds] at hdot

theorem isPrefix_eq (h : IsPlainName cs x) (joined : Bool) :
    isPrefix ⟨.identifier, x, joined, false⟩ = false := by
  have hplain := h.plain
  simpa [isPrefix] using hplain

theorem spellsName (h : IsPlainName cs x) : SpellsName cs x [] where
  ends := h.ends
  head := by
    obtain ⟨c, r, rfl, hc⟩ := h.exists_cons
    simpa using hc
  names joined := by
    rw [wordsOf_identifier h.lex]
    exact namesWith_nil rfl (h.isPrefix_eq joined)

theorem spellsName_arguments (h : IsPlainName cs x) (hargs : List.Forall₂ Spells css ss) :
    SpellsName (cs ++ '<' :: (commaText css ++ ['>'])) x ss where
  ends := ((endsIn_commaText [] (by decide) rfl hargs (endsIn_mark rfl (by decide))).mark
    rfl).append (h.ends.apart_of_firm (by decide))
  head := by
    obtain ⟨c, r, rfl, hc⟩ := h.exists_cons
    simpa using hc
  names joined := by
    obtain ⟨wss, hwords, hwss⟩ := wordsOf_commaText (d := '>') [] (by decide) rfl hargs
    rw [(h.ends.apart_of_firm (by decide)).wordsOf_append, wordsOf_identifier h.lex,
      wordsOf_mark rfl rfl, hwords, wordsOf_mark rfl rfl, wordsOf_nil]
    exact namesWith_arguments rfl (h.isPrefix_eq joined) rfl rfl hwss

theorem simple (h : IsPlainName cs x) (hvoid : x ≠ "Void") : SpellsPrimary cs (.simple x) where
  ends := h.ends
  denotes joined := by
    rw [wordsOf_identifier h.lex]
    exact denotes_name (w := ⟨.identifier, x, joined, false⟩) rfl (h.isPrefix_eq joined) hvoid

end IsPlainName

namespace SpellsName

variable {name : String}

theorem primary (h : SpellsName cs name ss) (hs : ofName? name ss = some s) :
    SpellsPrimary cs s where
  ends := h.ends
  denotes joined := (h.names joined).denotes hs

theorem scan_dot (h : SpellsName cs name ss) : scan '.' cs = (.dot, 0) := by
  have hhead := h.head
  cases cs with
  | nil => rfl
  | cons c r =>
    show scanDot (c :: r) = _
    unfold scanDot
    split <;> simp_all

/-- A name with the module it comes from. -/
theorem qualified (h : SpellsName cs name ss) (hs : ofName? name ss = some s) :
    SpellsPrimary ("Swift.".toList ++ cs) s where
  ends := (h.ends.mark h.scan_dot).lexeme "wift".toList rfl
  denotes joined := by
    have hwords : wordsOf joined ("Swift.".toList ++ cs) =
        ⟨.identifier, "Swift", joined, false⟩ :: ⟨.dot, ".", true, false⟩ :: wordsOf true cs :=
      (wordsOf_lexeme (c := 'S') "wift".toList rfl rfl joined).trans
        (congrArg _ (wordsOf_mark h.scan_dot rfl true))
    rw [hwords]
    exact (h.names true).denotes_qualified hs rfl rfl rfl

end SpellsName

theorem spells_tuple {css : List (List Char)} (h : List.Forall₂ Spells css ss) :
    SpellsPrimary ('(' :: (commaText css ++ [')']))
      (ofElements (ss.map fun s => ⟨s, false, false⟩)) where
  ends := (endsIn_commaText [] (by decide) rfl h (endsIn_mark rfl (by decide))).mark rfl
  denotes joined := by
    obtain ⟨wss, hwords, hwss⟩ := wordsOf_commaText (d := ')') [] (by decide) rfl h
    rw [wordsOf_mark rfl rfl, hwords, wordsOf_mark rfl rfl, wordsOf_nil]
    exact denotes_tuple hwss rfl rfl

/-- The effects of a function as they are shown, each behind a space. -/
def effectText (isAsync isThrowing : Bool) : List Char :=
  (if isAsync then " async".toList else []) ++ if isThrowing then " throws".toList else []

/-- The arrow of a function and what stands behind it, each behind a space. -/
def arrowText (cs : List Char) : List Char := ' ' :: '-' :: '>' :: ' ' :: cs

theorem wordsOf_arrowText (joined : Bool) (cs : List Char) :
    wordsOf joined (arrowText cs) = ⟨.arrow, "->", false, false⟩ :: wordsOf false cs := by
  have hmark : wordsOf false ('-' :: (['>'] ++ ' ' :: cs)) =
      ⟨.arrow, "->", false, false⟩ :: wordsOf true (' ' :: cs) := wordsOf_lexeme ['>'] rfl rfl false
  rw [wordsOf_space] at hmark
  exact (wordsOf_space joined _).trans hmark

theorem wordsOf_effectText (isAsync isThrowing : Bool) (cs : List Char) :
    wordsOf true (effectText isAsync isThrowing ++ arrowText cs) =
      effectWords isAsync isThrowing ++ ⟨.arrow, "->", false, false⟩ :: wordsOf false cs := by
  have hasync (r : List Char) : wordsOf true (" async".toList ++ ' ' :: r) =
      ⟨.identifier, "async", false, false⟩ :: wordsOf true (' ' :: r) :=
    (wordsOf_space true _).trans (wordsOf_lexeme (c := 'a') "sync".toList rfl rfl false)
  have hthrows (r : List Char) : wordsOf true (" throws".toList ++ ' ' :: r) =
      ⟨.kwThrows, "throws", false, false⟩ :: wordsOf true (' ' :: r) :=
    (wordsOf_space true _).trans (wordsOf_lexeme (c := 't') "hrows".toList rfl rfl false)
  have harrow := wordsOf_arrowText true cs
  cases isAsync <;> cases isThrowing
  · exact harrow
  · exact (hthrows _).trans (congrArg _ harrow)
  · exact (hasync _).trans (congrArg _ harrow)
  · exact (hasync _).trans (congrArg _ ((hthrows _).trans (congrArg _ harrow)))

theorem endsIn_effectText {ks : List Kind} (h : EndsIn ks cs) (isAsync isThrowing : Bool) :
    EndsIn ks (effectText isAsync isThrowing ++ arrowText cs) := by
  have hasync {r : List Char} (hr : EndsIn ks (' ' :: r)) :
      EndsIn ks (" async".toList ++ ' ' :: r) := (hr.lexeme (c := 'a') "sync".toList rfl).space
  have hthrows {r : List Char} (hr : EndsIn ks (' ' :: r)) :
      EndsIn ks (" throws".toList ++ ' ' :: r) := (hr.lexeme (c := 't') "hrows".toList rfl).space
  have harrow : EndsIn ks (arrowText cs) := (h.space.lexeme (c := '-') ['>'] rfl).space
  cases isAsync <;> cases isThrowing
  · exact harrow
  · exact hthrows harrow
  · exact hasync harrow
  · exact hasync (hthrows harrow)

theorem spells_function {css : List (List Char)} (isAsync isThrowing : Bool)
    (h : List.Forall₂ Spells css ss) (hout : Spells ds s) :
    Spells ('(' :: (commaText css ++ ')' :: (effectText isAsync isThrowing ++ arrowText ds)))
      (.closure ss isAsync isThrowing false s) where
  ends := by
    have hend := (endsIn_effectText hout.ends isAsync isThrowing).mark (c := ')') rfl
    exact (endsIn_commaText _ (by decide) rfl h hend).mark rfl
  denotes joined := by
    obtain ⟨wss, hwords, hwss⟩ := wordsOf_commaText (d := ')') _ (by decide) rfl h
    rw [wordsOf_mark rfl rfl, hwords, wordsOf_mark rfl rfl, wordsOf_effectText]
    exact denotes_function hwss (hout.denotes false) rfl rfl rfl

theorem Spells.escaping {isAsync isThrowing isEscaping : Bool}
    (h : Spells ('(' :: cs) (.closure ss isAsync isThrowing isEscaping s)) :
    Spells ("@escaping ".toList ++ '(' :: cs) (.closure ss isAsync isThrowing true s) where
  ends := (h.ends.space.lexeme (c := 'e') "scaping".toList rfl).mark (c := '@') rfl
  denotes joined := by
    have hparen (joined : Bool) : wordsOf joined ('(' :: cs) =
        ⟨.openParen, "(", joined, false⟩ :: wordsOf true cs := wordsOf_mark rfl rfl joined
    have hname : wordsOf true ('e' :: ("scaping".toList ++ ' ' :: '(' :: cs)) =
        ⟨.identifier, "escaping", true, false⟩ :: wordsOf true (' ' :: '(' :: cs) :=
      wordsOf_lexeme "scaping".toList rfl rfl true
    have hsign : wordsOf joined ('@' :: 'e' :: ("scaping".toList ++ ' ' :: '(' :: cs)) =
        ⟨.atSign, "@", joined, false⟩ ::
          wordsOf true ('e' :: ("scaping".toList ++ ' ' :: '(' :: cs)) :=
      wordsOf_mark rfl rfl joined
    have hinner := h.denotes false
    rw [hparen] at hinner
    rw [hname, wordsOf_space, hparen] at hsign
    show Denotes (wordsOf joined ('@' :: 'e' :: ("scaping".toList ++ ' ' :: '(' :: cs))) _
    rw [hsign]
    exact hinner.escaping rfl rfl rfl rfl

end

end Grammar

end SwiftOutline

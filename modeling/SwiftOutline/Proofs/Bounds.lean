import SwiftOutline.Proofs.Extent

/-!
# SwiftOutline.Proofs.Bounds

Where statements and values begin and end, word by word.

* `StatementBounds` — the words that a statement may start with, go on with and end before;
  `Whole.bounds` — a whole statement has these bounds;
* `statements_bounded` — so has every statement of every source file, but for a closing bracket by
  itself;
* `ExpressionBounds` — the words that a value may go on with and end before; no closing bracket of
  it is without an opening one;
* `NestedLaw.boundedExpressions`, `local_boundedExpressions` — the rule for values gives them these
  bounds, from one word to the next (`endsWithin_expressionWords`);
* `expressions_bounded` — so has every value of every source file.
-/

namespace SwiftOutline

open Grammar

/-! ## statements -/

/-- The bounds of a statement inside a scope that some kinds of words end. Brackets of all kinds are
counted together, and the bounds are told of the words outside all of them. -/
structure StatementBounds (stop : List Kind) (taken behind : List Word) : Prop where
  first : ∃ w r, taken = w :: r ∧ w.kind.isCloser = false ∧ w.kind ≠ .semicolon
  others : ∀ pre w post, taken = pre ++ w :: post → pre ≠ [] → depthFrom 0 pre = 0 →
    w.kind ≠ .closeBrace ∧ w.kind ∉ stop ∧
      (w.onNewLine = true → continuesLine [w] = true) ∧ (w.kind = .semicolon → post = [])
  maximal : (∃ pre w, taken = pre ++ [w] ∧ depthFrom 0 pre = 0 ∧ w.kind = .semicolon) ∨
    behind = [] ∨ ∃ w r, behind = w :: r ∧
      (w.kind = .closeBrace ∨ w.kind ∈ stop ∨ w.onNewLine = true ∧ continuesLine [w] = false)
  level : depthFrom 0 taken = 0 ∨ behind = []

theorem depthFrom_concat (pre : List Word) (w : Word) :
    depthFrom 0 (pre ++ [w]) = depthAfter (depthFrom 0 pre) w.kind := by
  rw [depthFrom, List.foldl_append]
  rfl

/-- A semicolon changes no depth. -/
theorem depthFrom_concat_semicolon (pre : List Word) {w : Word} (hw : w.kind = .semicolon) :
    depthFrom 0 (pre ++ [w]) = depthFrom 0 pre := by
  rw [depthFrom_concat, hw]
  rfl

/-- A word that ends a scope, or a line of its own. -/
theorem endsBefore_iff {ends : List Kind} {w : Word} {r : List Word} :
    (atAny ends (w :: r) || startsLine true (w :: r)) = true ↔
      w.kind ∈ ends ∨ w.onNewLine = true ∧ continuesLine [w] = false := by
  have hline : continuesLine (w :: r) = continuesLine [w] := rfl
  simp [atAny, kind?, startsLine, hline]

/-- A whole statement that starts with no closing bracket and no semicolon has its bounds. -/
theorem Whole.bounds {around : Kind} {stop : List Kind} {taken behind : List Word}
    (h : Whole around.ends taken behind) (hstop : EndsScope around stop)
    (hsemicolon : at? .semicolon taken = false) (hcloser : atCloser taken = false) :
    StatementBounds stop taken behind := by
  obtain ⟨hne, ⟨w, rfl, hw⟩ | hends⟩ := h
  · simp [atCloser, kind?, hw] at hcloser
  refine ⟨?_, fun pre w post htaken hpre hdepth => ?_, ?_, ?_⟩
  · obtain ⟨w, r, rfl⟩ := List.exists_cons_of_ne_nil hne
    exact ⟨w, r, rfl, by simpa [atCloser, kind?] using hcloser,
      by simpa [at?, kind?] using hsemicolon⟩
  · -- the statement does not end before the word, and ends behind it if that is a semicolon
    have hbefore : ¬EndsBetween around.ends 0 pre (w :: post ++ behind) :=
      fun h => List.cons_ne_nil _ _ ((hends pre (w :: post) htaken hpre).2 h)
    have hnone : ¬((atAny around.ends (w :: post ++ behind) ||
        startsLine true (w :: post ++ behind)) = true) :=
      fun h => hbefore (.inr ⟨hdepth, .inr h⟩)
    rw [List.cons_append, endsBefore_iff, hstop] at hnone
    refine ⟨fun hw => hnone (.inl (.inr hw)), fun hw => hnone (.inl (.inl hw)), fun hline => ?_,
      fun hw => ?_⟩
    · by_contra hcontinues
      exact hnone (.inr ⟨hline, by simpa using hcontinues⟩)
    · refine (hends (pre ++ [w]) post (by simp [htaken]) (by simp)).2 (.inr ⟨?_, .inl ?_⟩)
      · rw [depthFrom_concat_semicolon pre hw, hdepth]
      · simp [hw]
  · obtain hnil | ⟨hdepth, hlast | hbehind⟩ := (hends taken [] (by simp) hne).1 rfl
    · exact .inr (.inl hnil)
    · obtain ⟨w, hw, hkind⟩ := (Option.any_eq_true ..).1 hlast
      obtain ⟨pre, rfl⟩ := List.getLast?_eq_some_iff.1 hw
      rw [beq_iff_eq] at hkind
      rw [depthFrom_concat_semicolon pre hkind] at hdepth
      exact .inl ⟨pre, w, rfl, hdepth, hkind⟩
    · cases behind with
      | nil => exact .inr (.inl rfl)
      | cons w r =>
        rw [List.nil_append, endsBefore_iff, hstop] at hbehind
        exact .inr (.inr ⟨w, r, rfl, by tauto⟩)
  · obtain hnil | ⟨hdepth, -⟩ := (hends taken [] (by simp) hne).1 rfl
    · exact .inr hnil
    · exact .inl hdepth

/-- Statements start with no semicolon, and go on after the first word only if that is no closing
bracket. -/
def Law.startedStatements : Law := fun _ k ps _ =>
  k = .statement → at? .semicolon (Sketch.wordsOfAll ps) = false ∧
    (atCloser (Sketch.wordsOfAll ps) = true →
      ∃ w, Sketch.wordsOfAll ps = [w] ∧ w.kind.isCloser = true)

theorem scoped_startedStatements : Law.startedStatements.Scoped where
  free hk _ _ _ _ h := absurd h hk
  accessor _ _ _ _ _ _ h := nomatch h
  statement := by
    intro n around stop ws h _ hother hsemicolon ps hps _
    cases ws with
    | nil => cases hother
    | cons w r =>
      have hcovers := (statement stop (w :: r) h).covers
      rw [hps, Sketch.wordsOfAll_cons, Sketch.words_node, Sketch.wordsOfAll_nil, List.append_nil]
        at hcovers
      cases hwords : Sketch.wordsOfAll ps with
      | nil => exact ⟨rfl, nofun⟩
      | cons v us =>
        rw [hwords] at hcovers
        obtain ⟨rfl, -⟩ := List.cons_eq_cons.1 hcovers
        refine ⟨hsemicolon, fun hcloser => ⟨v, ?_, by simpa [atCloser, kind?] using hcloser⟩⟩
        have hnext : atCloser (v :: r) = true := hcloser
        obtain rfl : _ = ps := (Sketch.node.inj (List.cons.inj hps).1).2
        rw [← hwords]
        unfold Rule.ifAt
        rw [if_pos hnext]
        rfl

/-- The words that end the scope inside some nodes are those that end the innermost of them. -/
theorem Tree.endsScope_stops (above : List Extent) :
    EndsScope (Tree.kindAround above) (stops (above.map (·.tree.kind))) := by
  have hends := SwiftOutline.endsScope_stops (above.map (Extent.frame []))
  rwa [kindAround_map_frame, List.map_map] at hends

/-- Every statement of every source file holds a word. It is a closing bracket by itself, or it has
its bounds: outside all brackets none of its words but the first ends the scope around it, starts a
line that does not go on with the one before it, or has a word behind it if it is a semicolon. It
goes on as far as it may, and has a bracket open at its end only at the end of the file. -/
theorem statements_bounded (source : String) :
    let words := Word.ofLexemes (Lexeme.lex source)
    ∀ e ∈ fileNests source, e.tree.kind = .statement →
      (e.taken words).map Word.lexeme = e.tree.tokens.filter (!·.isTrivia) ∧
        ((∃ w, e.taken words = [w] ∧ w.kind.isCloser = true) ∨
          StatementBounds (stops (e.above.map (·.tree.kind))) (e.taken words)
            (e.behind words)) := by
  intro words e he hk
  refine ⟨(scoped_wholeStatements.framed.of_mem_fileNests he).map_lexeme_taken, ?_⟩
  obtain ⟨parts, -, htaken, hwhole⟩ := scoped_wholeStatements.of_mem_fileNests he
  obtain ⟨parts', -, htaken', hstart⟩ := scoped_startedStatements.of_mem_fileNests he
  obtain ⟨hsemicolon, hcloser⟩ := hstart hk
  rw [htaken'] at hsemicolon hcloser
  by_cases hat : atCloser (e.taken words) = true
  · exact .inl (hcloser hat)
  · exact .inr (Whole.bounds (htaken ▸ hwhole hk) (Tree.endsScope_stops e.above) hsemicolon
      (Bool.not_eq_true _ ▸ hat))

/-- The bounds of a statement over two lines that a semicolon ends. -/
theorem statements_bounded_semicolon :
    let source := "if a \x7b ; \x7d\nelse \x7b\x7d; b"
    let words := Word.ofLexemes (Lexeme.lex source)
    ∃ e ∈ fileNests source, e.tree.kind = .statement ∧ (e.taken words).length = 9 ∧
      StatementBounds (stops (e.above.map (·.tree.kind))) (e.taken words) (e.behind words) := by
  intro source words
  have hany : ((fileNests source).any fun e => e.tree.kind == .statement &&
      (e.taken words).length == 9) = true := by decide +kernel
  obtain ⟨e, he, hall⟩ := List.any_eq_true.1 hany
  rw [Bool.and_eq_true, beq_iff_eq, beq_iff_eq] at hall
  obtain ⟨hk, hlength⟩ := hall
  refine ⟨e, he, hk, hlength, ?_⟩
  obtain ⟨-, ⟨w, hw, -⟩ | hbounds⟩ := statements_bounded source e he hk
  · have hone : (e.taken words).length = 1 := congrArg List.length hw
    rw [hlength] at hone
    cases hone
  · exact hbounds

/-! ## values -/

/-- The number of opening brackets among some words. -/
def openers (ws : List Word) : Nat := ws.countP (·.kind.isOpener)

/-- The number of closing brackets among some words. -/
def closers (ws : List Word) : Nat := ws.countP (·.kind.isCloser)

theorem openers_append (ws vs : List Word) : openers (ws ++ vs) = openers ws + openers vs :=
  List.countP_append

theorem closers_append (ws vs : List Word) : closers (ws ++ vs) = closers ws + closers vs :=
  List.countP_append

theorem openers_cons (w : Word) (ws : List Word) : openers (w :: ws) = openers [w] + openers ws :=
  openers_append [w] ws

theorem closers_cons (w : Word) (ws : List Word) : closers (w :: ws) = closers [w] + closers ws :=
  closers_append [w] ws

/-- The bounds of a value, before accessors or not. No closing bracket of it is without an opening
one, and its other bounds are told of the words outside all brackets. -/
structure ExpressionBounds (accessorsFollow : Bool) (taken behind : List Word) : Prop where
  nested : ∀ pre post, taken = pre ++ post → closers pre ≤ openers pre
  ends : ∀ pre w post, taken = pre ++ w :: post → closers pre = openers pre →
    w.kind ∉ expressionEnds ∧
      (w.kind = .openBrace → accessorsFollow = true →
        atAccessorBlock (w :: post ++ behind) = false) ∧
      (w.kind ≠ .openBrace → pre ≠ [] → w.onNewLine = true → continuesLine [w] = true)
  maximal : behind = [] ∨ ∃ w r, behind = w :: r ∧
    (w.kind ∈ expressionEnds ∨
      w.kind = .openBrace ∧ accessorsFollow = true ∧ atAccessorBlock behind = true ∨
      w.kind ≠ .openBrace ∧ taken ≠ [] ∧ w.onNewLine = true ∧ continuesLine [w] = false)
  level : closers taken = openers taken ∨ behind = []

/-- Whether a value ends after some of its words and before the words behind them: at the end or,
outside all brackets, before a word that ends it. -/
def EndsWithin (accessorsFollow begun : Bool) (depth : Nat) (taken behind : List Word) : Prop :=
  behind = [] ∨ closers taken = depth + openers taken ∧
    endsExpression accessorsFollow (begun || !taken.isEmpty) behind = true

namespace Grammar

/-- What ends a value: its own kinds of words, the brace of accessors, a line of its own. -/
theorem endsExpression_cons_iff {accessorsFollow begun : Bool} {w : Word} {r : List Word} :
    endsExpression accessorsFollow begun (w :: r) = true ↔ w.kind ∈ expressionEnds ∨
      w.kind = .openBrace ∧ accessorsFollow = true ∧ atAccessorBlock (w :: r) = true ∨
      w.kind ≠ .openBrace ∧ begun = true ∧ w.onNewLine = true ∧ continuesLine [w] = false := by
  have hline : continuesLine (w :: r) = continuesLine [w] := rfl
  unfold endsExpression
  by_cases hbrace : w.kind = .openBrace
  · simp [at?, kind?, hbrace, expressionEnds]
  · simp [at?, atAny, kind?, hbrace, startsLine, hline, and_assoc]

/-- Inside brackets, and at an opening one, the depth counts the brackets that are open. -/
theorem depthAfter_add_closers {depth : Nat} {w : Word}
    (h : w.kind.isCloser = true → depth ≠ 0) :
    depthAfter depth w.kind + closers [w] = depth + openers [w] := by
  unfold depthAfter closers openers
  by_cases hopener : w.kind.isOpener = true
  · simp [hopener, Kind.isCloser_eq_false_of_isOpener hopener]
  · by_cases hcloser : w.kind.isCloser = true
    · have := h hcloser
      simp [hopener, hcloser]
      omega
    · simp [hopener, hcloser]

/-- The words of a value from a given bracket depth on: brackets that it closes were open, and it
ends before the words that are left and after no smaller part of its words. -/
theorem endsWithin_expressionWords (accessorsFollow : Bool) (depth : Nat) (begun : Bool)
    (ws pre post : List Word)
    (h : Sketch.wordsOfAll (expressionWords accessorsFollow depth begun ws).sketches =
      pre ++ post) :
    closers pre ≤ depth + openers pre ∧
      (post = [] ↔ EndsWithin accessorsFollow begun depth pre
        (post ++ (expressionWords accessorsFollow depth begun ws).rest)) := by
  induction ws generalizing depth begun pre with
  | nil =>
    obtain ⟨rfl, rfl⟩ := List.append_eq_nil_iff.1 h.symm
    exact ⟨Nat.zero_le _, iff_of_true rfl (.inl rfl)⟩
  | cons w r ih =>
    have hcovers := (expressionWords accessorsFollow depth begun (w :: r)).covers
    rw [h, List.append_assoc] at hcovers
    generalize hrest : (expressionWords accessorsFollow depth begun (w :: r)).rest = rest
      at hcovers ⊢
    unfold expressionWords at h hrest
    by_cases hbreak : (depth == 0 && endsExpression accessorsFollow begun (w :: r)) = true
    · -- a word that ends the value is none of it
      rw [if_pos hbreak] at h
      obtain ⟨rfl, rfl⟩ := List.append_eq_nil_iff.1 h.symm
      rw [Bool.and_eq_true, beq_iff_eq, ← hcovers] at hbreak
      obtain ⟨rfl, hends⟩ := hbreak
      exact ⟨Nat.zero_le _, iff_of_true rfl (.inr ⟨rfl, by simpa using hends⟩)⟩
    · rw [if_neg hbreak] at h hrest
      cases pre with
      | nil =>
        rw [List.nil_append] at h hcovers
        refine ⟨Nat.zero_le _, iff_of_false ?_ ?_⟩
        · rintro rfl
          simp [Parsed.cons] at h
        · rw [hcovers]
          rintro (hnil | ⟨hlevel, hends⟩)
          · cases hnil
          · refine hbreak ?_
            simp [closers, openers] at hlevel hends
            simp [← hlevel, hends]
      | cons v pre =>
        obtain ⟨rfl, hcovers⟩ := List.cons_eq_cons.1 hcovers
        subst hrest
        obtain ⟨hle, hiff⟩ := ih _ _ pre (List.cons_injective h)
        have hcloser : v.kind.isCloser = true → depth ≠ 0 := by
          rintro hv rfl
          simp [endsExpression_of_isCloser hv] at hbreak
        have hdepth := depthAfter_add_closers hcloser
        have hclosers := closers_cons v pre
        have hopeners := openers_cons v pre
        refine ⟨by omega, hiff.trans (or_congr_right (and_congr ?_ (by simp)))⟩
        omega

/-- The words of a value have its bounds. -/
theorem expressionBounds_expressionWords (accessorsFollow : Bool) (ws : List Word) :
    ExpressionBounds accessorsFollow
      (Sketch.wordsOfAll (expressionWords accessorsFollow 0 false ws).sketches)
      (expressionWords accessorsFollow 0 false ws).rest := by
  have hall := endsWithin_expressionWords accessorsFollow 0 false ws
  generalize Sketch.wordsOfAll (expressionWords accessorsFollow 0 false ws).sketches = taken
    at hall ⊢
  generalize (expressionWords accessorsFollow 0 false ws).rest = behind at hall ⊢
  have hend := (hall taken [] (by simp)).2.1 rfl
  rw [List.nil_append] at hend
  refine ⟨fun pre post htaken => ?_, fun pre w post htaken hlevel => ?_, ?_, ?_⟩
  · simpa using (hall pre post htaken).1
  · -- a word that belongs to the value does not end it
    have hbefore : ¬EndsWithin accessorsFollow false 0 pre (w :: post ++ behind) :=
      fun h => List.cons_ne_nil _ _ ((hall pre (w :: post) htaken).2.2 h)
    have hnone : ¬endsExpression accessorsFollow (false || !pre.isEmpty)
        (w :: (post ++ behind)) = true :=
      fun h => hbefore (.inr ⟨by simpa using hlevel, h⟩)
    rw [endsExpression_cons_iff] at hnone
    refine ⟨fun hw => hnone (.inl hw), fun hw hfollow => ?_, fun hw hpre hline => ?_⟩
    · by_contra haccessors
      exact hnone (.inr (.inl ⟨hw, hfollow, by simpa using haccessors⟩))
    · by_contra hcontinues
      exact hnone (.inr (.inr ⟨hw, by simpa using hpre, hline, by simpa using hcontinues⟩))
  · obtain hnil | ⟨-, hends⟩ := hend
    · exact .inl hnil
    · cases behind with
      | nil => exact .inl rfl
      | cons w r =>
        rw [endsExpression_cons_iff] at hends
        exact .inr ⟨w, r, rfl, by simpa using hends⟩
  · obtain hnil | ⟨hlevel, -⟩ := hend
    · exact .inr hnil
    · exact .inl (by simpa using hlevel)

theorem expressionBounds_expression {n : Nat} (accessorsFollow : Bool) {ws : List Word}
    (h : ws.length < n) {ps : List Sketch}
    (hps : (expression accessorsFollow ws h).sketches = [.node .expression ps]) :
    ExpressionBounds accessorsFollow (Sketch.wordsOfAll ps)
      (expression accessorsFollow ws h).rest := by
  obtain rfl : _ = ps := (Sketch.node.inj (List.cons.inj hps).1).2
  have hbounds := expressionBounds_expressionWords accessorsFollow ws
  show ExpressionBounds _ _ (Rule.ifAt _ _ _ ws h).rest
  unfold Rule.ifAt
  split
  · next hnone =>
    -- there is no value where it would end before its first word
    have hdone : expressionWords accessorsFollow 0 false ws = .done ws := by
      cases ws with
      | nil => rfl
      | cons w r =>
        rw [expressionWords, if_pos (by simpa using hnone)]
    rw [hdone] at hbounds
    exact hbounds
  · exact hbounds

end Grammar

/-- Values have their bounds; those of bindings stand before accessors. -/
def NestedLaw.boundedExpressions : NestedLaw := fun above k ps rest =>
  k = .expression → ∃ behind owner outer, above = ⟨.initializer, behind⟩ :: owner :: outer ∧
    ExpressionBounds (owner.kind == .patternBinding) (Sketch.wordsOfAll ps) rest

theorem Grammar.local_boundedExpressions : NestedLaw.boundedExpressions.Local := by
  refine .about rfl (by decide) fun hmade => ?_
  cases hmade with
  | expression h behind owner outer hps =>
    exact ⟨behind, owner, outer, rfl, expressionBounds_expression _ h hps⟩

/-- Every value of every source file stands in an initializer, and has its bounds. No closing
bracket of it is without an opening one. Outside all brackets none of its words ends a value or
starts a line that does not go on with the one before it, and none opens accessors if the value is
that of a binding. It goes on as far as it may, and has a bracket open at its end only at the end of
the file. -/
theorem expressions_bounded (source : String) :
    let words := Word.ofLexemes (Lexeme.lex source)
    ∀ e ∈ fileNests source, e.tree.kind = .expression →
      (e.taken words).map Word.lexeme = e.tree.tokens.filter (!·.isTrivia) ∧
        ∃ clause owner outer, e.above = clause :: owner :: outer ∧
          clause.tree.kind = .initializer ∧
          ExpressionBounds (owner.tree.kind == .patternBinding) (e.taken words)
            (e.behind words) := by
  intro words e he hk
  have hkeeping := local_boundedExpressions.of_mem_fileNests he
  refine ⟨hkeeping.map_lexeme_taken, ?_⟩
  obtain ⟨parts, -, htaken, hlaw⟩ := hkeeping
  obtain ⟨behind, owner, outer, habove, hbounds⟩ := hlaw hk
  obtain ⟨clause, frames, he', hclause, hframes⟩ := List.map_eq_cons_iff.1 habove
  obtain ⟨around, outer', rfl, rfl, -⟩ := List.map_eq_cons_iff.1 hframes
  refine ⟨clause, around, outer', he', congrArg Frame.kind hclause, ?_⟩
  rwa [htaken] at hbounds

/-- The bounds of the value of a variable, in front of its accessors. -/
theorem expressions_bounded_accessors :
    let source := "var a = b(c \x7b\n d \x7d) \x7b get \x7b 0 \x7d \x7d"
    let words := Word.ofLexemes (Lexeme.lex source)
    ∃ e ∈ fileNests source, e.tree.kind = .expression ∧ (e.taken words).length = 7 ∧
      atAccessorBlock (e.behind words) = true ∧ ∃ clause owner outer,
        e.above = clause :: owner :: outer ∧ clause.tree.kind = .initializer ∧
          ExpressionBounds (owner.tree.kind == .patternBinding) (e.taken words)
            (e.behind words) := by
  intro source words
  have hany : ((fileNests source).any fun e => e.tree.kind == .expression &&
      ((e.taken words).length == 7 && atAccessorBlock (e.behind words))) = true := by
    decide +kernel
  obtain ⟨e, he, hall⟩ := List.any_eq_true.1 hany
  simp only [Bool.and_eq_true, beq_iff_eq] at hall
  obtain ⟨hk, hlength, haccessors⟩ := hall
  exact ⟨e, he, hk, hlength, haccessors, (expressions_bounded source e he hk).2⟩

end SwiftOutline

import SwiftOutline.Proofs.Alone
import SwiftOutline.Proofs.Appended
import SwiftOutline.Proofs.Extent
import SwiftOutline.Proofs.Respaced

/-!
# SwiftOutline.Proofs.Call

A call on a line of its own, in front of the keyword of a declaration.

* `matched` — whether brackets match; `Inside` — words before each of which a bracket is open, as
  matched ones in parentheses are (`inside_of_matched`);
* `groupLengthFrom_of_inside`, `statementWords_of_inside` — a group and a statement take such words;
* `CallWords` — the words of a call; it announces what stands behind it only if its name is a
  modifier (`CallWords.atDeclaration`), and is a statement of its own if it announces nothing
  (`CallWords.itemsFrom`);
* `Sketch.laidTrees` — the trees of sketches laid over lexemes, and of the lexemes behind them; they
  are the same farther on (`Sketch.laidTrees_shifted`);
* `IsCall` — a text that is a name with arguments in parentheses, in which brackets match;
* `parse_call_iff` — it is a statement in front of the trees of the declaration behind it exactly if
  it is no modifier of that.
-/

namespace SwiftOutline

open Grammar

/-! ## brackets -/

/-- The closing bracket of an opening one. -/
def Kind.closer? : Kind → Option Kind
  | .openParen => some .closeParen
  | .openBracket => some .closeBracket
  | .openBrace => some .closeBrace
  | _ => none

/-- Whether the brackets among some kinds match, where some closing ones are still to come for
brackets that were opened before, innermost first. -/
def matched : List Kind → List Kind → Bool
  | closers, [] => closers.isEmpty
  | closers, k :: ks =>
    match k.closer? with
    | some closer => matched (closer :: closers) ks
    | none =>
      if k.isCloser then closers.head? == some k && matched closers.tail ks
      else matched closers ks

/-- Words before each of which a bracket is open, from a given depth on. -/
def Inside : Nat → List Word → Prop
  | _, [] => True
  | depth, w :: r => depth ≠ 0 ∧ Inside (depthAfter depth w.kind) r

theorem depthFrom_cons (depth : Nat) (w : Word) (r : List Word) :
    depthFrom depth (w :: r) = depthFrom (depthAfter depth w.kind) r := rfl

/-- Trivia is no bracket. -/
theorem matched_filter (closers : List Kind) (ls : List Lexeme) :
    matched closers ((ls.filter (!·.isTrivia)).map (·.kind)) =
      matched closers (ls.map (·.kind)) := by
  induction ls generalizing closers with
  | nil => rfl
  | cons l ls ih =>
    by_cases hl : l.isTrivia = true
    · have hnone : l.kind.closer? = none ∧ l.kind.isCloser = false := by
        have htrivia : l.kind.isTrivia = true := hl
        revert htrivia
        cases l.kind <;> decide
      rw [List.filter_cons_of_neg (by simpa using hl), ih, List.map_cons, matched, hnone.1]
      simp [hnone.2]
    · rw [List.filter_cons_of_pos (by simpa using hl), List.map_cons, List.map_cons, matched,
        matched]
      split
      · exact ih _
      · rw [ih, ih]

/-- Inside an open bracket, words whose brackets match stay inside it. -/
theorem inside_of_matched {closers : List Kind} {ws vs : List Word}
    (h : matched closers (ws.map (·.kind)) = true) (hvs : Inside 1 vs) :
    Inside (closers.length + 1) (ws ++ vs) ∧
      depthFrom (closers.length + 1) (ws ++ vs) = depthFrom 1 vs := by
  induction ws generalizing closers with
  | nil =>
    obtain rfl : closers = [] := by simpa [matched] using h
    exact ⟨hvs, rfl⟩
  | cons w ws ih =>
    rw [List.map_cons, matched] at h
    rw [List.cons_append, Inside, depthFrom_cons]
    have hcloser : w.kind.closer?.isSome = w.kind.isOpener := by cases w.kind <;> rfl
    -- an opener pushes its closer, a closer pops it, other words leave the depth as it is
    split at h
    · next closer hc =>
      have hdepth : depthAfter (closers.length + 1) w.kind = (closer :: closers).length + 1 := by
        rw [hc] at hcloser
        rw [depthAfter, ← hcloser]
        rfl
      rw [hdepth]
      exact ⟨⟨Nat.succ_ne_zero _, (ih h).1⟩, (ih h).2⟩
    · next hc =>
      rw [hc] at hcloser
      split at h
      · next hclose =>
        obtain ⟨hhead, hrest⟩ := Bool.and_eq_true_iff.1 h
        cases closers with
        | nil => cases hhead
        | cons c closers =>
          have hdepth : depthAfter ((c :: closers).length + 1) w.kind = closers.length + 1 := by
            rw [depthAfter, ← hcloser, hclose]
            rfl
          rw [hdepth]
          exact ⟨⟨Nat.succ_ne_zero _, (ih hrest).1⟩, (ih hrest).2⟩
      · next hclose =>
        have hdepth : depthAfter (closers.length + 1) w.kind = closers.length + 1 := by
          rw [depthAfter, ← hcloser, if_neg hclose]
          rfl
        rw [hdepth]
        exact ⟨⟨Nat.succ_ne_zero _, (ih h).1⟩, (ih h).2⟩

/-- Lexemes whose brackets match, and a parenthesis that closes the one they stand in. -/
theorem inside_ofLexemesAfter {ls : List Lexeme} {close : Lexeme}
    (h : matched [] (ls.map (·.kind)) = true) (hclose : close.kind = .closeParen) :
    Inside 1 (Word.ofLexemesAfter true false (ls ++ [close])) ∧
      depthFrom 1 (Word.ofLexemesAfter true false (ls ++ [close])) = 0 := by
  have hword : close.isTrivia = false := by rw [Lexeme.isTrivia, hclose]; rfl
  obtain ⟨ws, es, hwords, hws, hes⟩ := List.map_eq_append_iff.1
    ((Word.map_lexeme_ofLexemesAfter true false (ls ++ [close])).trans (List.filter_append ls _))
  rw [List.filter_cons_of_pos (by rw [hword]; rfl), List.filter_nil] at hes
  obtain ⟨e, rfl, he⟩ := List.map_eq_singleton_iff.1 hes
  have hkind : e.kind = .closeParen := (congrArg Lexeme.kind he).trans hclose
  have hkinds : ws.map (·.kind) = (ls.filter (!·.isTrivia)).map (·.kind) := by
    rw [← hws, List.map_map]
    rfl
  rw [← matched_filter, ← hkinds] at h
  have hlast : Inside 1 [e] := ⟨Nat.one_ne_zero, trivial⟩
  obtain ⟨hinside, hdepth⟩ := inside_of_matched h hlast
  rw [hwords]
  refine ⟨hinside, hdepth.trans ?_⟩
  rw [depthFrom_cons, depthAfter, hkind]
  rfl

namespace Grammar

/-- A group goes on up to the word that closes it. -/
theorem groupLengthFrom_of_inside {depth : Nat} {ws : List Word} (h : Inside depth ws)
    (hne : ws ≠ []) (hclosed : depthFrom depth ws = 0) (vs : List Word) :
    groupLengthFrom depth (ws ++ vs) = ws.length := by
  induction ws generalizing depth with
  | nil => exact absurd rfl hne
  | cons w r ih =>
    rw [depthFrom_cons] at hclosed
    cases r with
    | nil => exact groupLengthFrom_of_zero vs hclosed
    | cons v r =>
      rw [List.cons_append, groupLengthFrom_of_pos _ (Nat.pos_of_ne_zero h.2.1)]
      exact congrArg (· + 1) (ih h.2 (List.cons_ne_nil _ _) hclosed)

/-- A statement goes on inside brackets. -/
theorem statementWords_of_inside (stop : List Kind) {depth : Nat} {ws : List Word}
    (h : Inside depth ws) (vs : List Word) :
    (statementWords stop depth true (ws ++ vs)).sketches =
        ws.map Sketch.word ++ (statementWords stop (depthFrom depth ws) true vs).sketches ∧
      (statementWords stop depth true (ws ++ vs)).rest =
        (statementWords stop (depthFrom depth ws) true vs).rest := by
  induction ws generalizing depth with
  | nil => exact ⟨rfl, rfl⟩
  | cons w r ih =>
    obtain ⟨hsketches, hrest⟩ := ih h.2
    have hdepth : (depth == 0) = false := by simpa using h.1
    rw [List.cons_append, statementWords, hdepth, Bool.false_and, if_neg Bool.false_ne_true,
      Bool.false_and, if_neg Bool.false_ne_true]
    exact ⟨congrArg (Sketch.word w :: ·) hsketches, hrest⟩

/-- The items of a scope whose first one is known, whatever the rule for the items inside. -/
theorem sketches_itemsFrom_of_item {stop : List Kind} {ws vs : List Word} (ss : List Sketch)
    (hother : atOther stop ws = true)
    (hitem : ∀ {n : Nat} (inside : List Kind → Rule n) (h : ws.length < n + 1),
      (item inside stop ws h).sketches = ss ∧ (item inside stop ws h).rest = vs) :
    (itemsFrom stop ws).sketches = ss ++ (itemsFrom stop vs).sketches := by
  obtain ⟨hsketches, hrest⟩ := hitem (fun stop r (_ : r.length < ws.length) => itemsFrom stop r)
    (Nat.lt_succ_self _)
  rw [itemsFrom, dif_pos hother]
  exact congrArg₂ (· ++ ·) hsketches (congrArg (fun r => (itemsFrom stop r).sketches) hrest)

/-! ## calls -/

/-- The words of a call: a name, a parenthesis joined to it, and those up to where it is closed. -/
structure CallWords (f p : Word) (r : List Word) : Prop where
  name : f.kind = .identifier
  paren : p.kind = .openParen
  joined : p.joined = true
  line : p.onNewLine = false
  inside : Inside 1 r
  closed : depthFrom 1 r = 0

namespace CallWords

variable {f p : Word} {r vs : List Word} (h : CallWords f p r)

include h

/-- The arguments of a call are a group that is joined to its name. -/
theorem skipArguments : skipArguments (p :: (r ++ vs)) = vs := by
  have hne : r ≠ [] := by
    rintro rfl
    cases h.closed
  have hgroup : groupLength (p :: (r ++ vs)) = r.length + 1 := by
    rw [groupLength, groupLengthFrom, h.paren]
    exact congrArg (· + 1) (groupLengthFrom_of_inside h.inside hne h.closed vs)
  have hparen : atJoinedParen (p :: (r ++ vs)) = true := by
    simp [atJoinedParen, at?, kind?, isJoined, h.paren, h.joined]
  rw [Grammar.skipArguments, if_pos hparen, hgroup, List.drop_succ_cons, List.drop_left]

/-- A call announces what stands behind it, if its name is a modifier. -/
theorem atDeclaration (vs : List Word) : atDeclaration (f :: p :: (r ++ vs)) =
    (modifierNames.contains f.text && Grammar.atDeclaration vs) := by
  have hmodifier : atModifier (f :: p :: (r ++ vs)) = modifierNames.contains f.text := by
    rw [atModifier, h.name]
  rw [Grammar.atDeclaration, skipAttributesAndModifiers, if_neg (by simp [h.name]), hmodifier]
  cases modifierNames.contains f.text with
  | true => rw [if_pos rfl, h.skipArguments, Bool.true_and, Grammar.atDeclaration]
  | false =>
    rw [if_neg Bool.false_ne_true, Bool.false_and]
    simp [atDeclarationWord, atAny, at?, kind?, h.name, h.paren, declarationWords]

/-- A call that is no modifier is a statement, in front of a line that does not go on with it. -/
theorem itemsFrom (hannounced : Grammar.atDeclaration (f :: p :: (r ++ vs)) = false)
    (hline : startsLine true vs = true) :
    (itemsFrom [] (f :: p :: (r ++ vs))).sketches =
      .node .statement ((f :: p :: r).map .word) :: (itemsFrom [] vs).sketches := by
  have hvs : statementWords [] 0 true vs = .done vs := by
    cases vs with
    | nil => rfl
    | cons v vs => rw [statementWords, endsStatement, hline]; simp
  obtain ⟨hsketches, hrest⟩ := statementWords_of_inside [] h.inside vs
  rw [h.closed, hvs] at hsketches hrest
  -- the parenthesis and the name stand before the brackets that `h.inside` speaks of
  have hparen : statementWords [] 0 true (p :: (r ++ vs)) =
      .cons p (statementWords [] 1 true (r ++ vs)) := by
    rw [statementWords]
    simp [endsStatement, atAny, at?, kind?, startsLine, h.paren, h.line]
    rfl
  have hname : statementWords [] 0 false (f :: p :: (r ++ vs)) =
      .cons f (statementWords [] 0 true (p :: (r ++ vs))) := by
    rw [statementWords]
    simp [endsStatement, atAny, at?, kind?, startsLine, h.name]
    rfl
  have hother : atOther [] (f :: p :: (r ++ vs)) = true := rfl
  refine sketches_itemsFrom_of_item [.node .statement ((f :: p :: r).map .word)] hother
    fun inside hn => ?_
  have hsemicolon : at? .semicolon (f :: p :: (r ++ vs)) = false := by
    simp [at?, kind?, h.name]
  have hcloser : atCloser (f :: p :: (r ++ vs)) = false := by
    simp [atCloser, kind?, h.name, Kind.isCloser]
  unfold item Rule.ifAt
  rw [hsemicolon, hannounced, if_neg Bool.false_ne_true, if_neg Bool.false_ne_true]
  unfold statement Rule.node Rule.ifAt
  rw [hcloser, if_neg Bool.false_ne_true]
  dsimp only
  rw [hname, hparen]
  constructor
  · show [Sketch.node .statement
      (.word f :: .word p :: (statementWords [] 1 true (r ++ vs)).sketches)] = _
    rw [hsketches]
    simp [Parsed.done]
  · exact hrest

end CallWords

theorem declared_ne_statement (ws : List Word) : declared ws ≠ .statement := by
  unfold declared form
  split
  case h_19 => split <;> decide
  all_goals decide

/-- Where a declaration is announced, the first item is a node, and no statement. -/
theorem itemsFrom_of_atDeclaration {stop : List Kind} {ws : List Word}
    (hother : atOther stop ws = true) (hsemicolon : at? .semicolon ws = false)
    (hat : atDeclaration ws = true) :
    ∃ k ps ss, (itemsFrom stop ws).sketches = .node k ps :: ss ∧ k ≠ .statement := by
  let inside : List Kind → Rule ws.length := fun stop r _ => itemsFrom stop r
  have hitem : item inside stop ws (Nat.lt_succ_self _) =
      declaration inside stop ws (Nat.lt_succ_self _) := by
    unfold item Rule.ifAt
    rw [hsemicolon, hat, if_neg Bool.false_ne_true, if_pos rfl]
  have hsketches : ∃ k ps, (declaration inside stop ws (Nat.lt_succ_self _)).sketches =
      [.node k ps] ∧ k ≠ .statement :=
    ⟨_, _, rfl, (fst_form inside stop _).trans_ne (declared_ne_statement _)⟩
  obtain ⟨k, ps, hnode, hk⟩ := hsketches
  refine ⟨k, ps, (itemsFrom stop (item inside stop ws (Nat.lt_succ_self _)).rest).sketches, ?_, hk⟩
  rw [itemsFrom, dif_pos hother]
  show (item inside stop ws (Nat.lt_succ_self _)).sketches ++ _ = _
  rw [hitem, hnode]
  rfl

end Grammar

/-! ## laying a statement -/

namespace Sketch

open Marked

/-- The trees of some sketches laid over lexemes, and of the lexemes behind them. -/
def laidTrees (size : Nat) (ss : List Sketch) (ps : List Placed) : List Tree :=
  Marked.treesOfAll ((layAll size ss ps).1 ++ (layAll size ss ps).2.map token)

theorem children_parse (source : String) :
    (parse source).tree.children = laidTrees (Lexeme.sizeOfAll (Lexeme.lex source))
      (fileSketch source) (Placed.ofLexemes 0 (Lexeme.lex source)) := rfl

variable (size : Nat) (ss : List Sketch)

theorem treesOfAll_map_token (ps : List Placed) :
    Marked.treesOfAll (ps.map token) = ps.map fun p => .token p.lexeme.kind p.lexeme.text := by
  induction ps with
  | nil => rfl
  | cons p ps ih => exact congrArg (.token p.lexeme.kind p.lexeme.text :: ·) ih

theorem laidTrees_cons (s : Sketch) (ps : List Placed) :
    laidTrees size (s :: ss) ps =
      Marked.treesOfAll (lay size s ps).1 ++ laidTrees size ss (lay size s ps).2 := by
  rw [laidTrees, layAll_cons, List.append_assoc, Marked.treesOfAll_append]
  rfl

/-- Where the lexemes stand makes no difference to the trees. -/
theorem laidTrees_shifted (n : Nat) (ps : List Placed) :
    laidTrees (size + n) ss (ps.map (Placed.shifted n)) = laidTrees size ss ps := by
  rw [laidTrees, layAll_shifted, ← shiftedAll_map_token, ← shiftedAll_append, treesOfAll_shifted,
    laidTrees]

theorem leading_cons_trivia {p : Placed} (hp : p.lexeme.isTrivia = true) (ps : List Placed) :
    leading (p :: ps) = (token p :: (leading ps).1, (leading ps).2) := by simp [leading, hp]

theorem lay_word_cons_trivia (w : Word) {p : Placed} (hp : p.lexeme.isTrivia = true)
    (ps : List Placed) :
    lay size (.word w) (p :: ps) = (token p :: (lay size (.word w) ps).1,
      (lay size (.word w) ps).2) := by
  rw [lay_word, lay_word, leading_cons_trivia hp]
  cases (leading ps).2 <;> rfl

/-- Trivia in front of a file stands in front of its trees. -/
theorem laidTrees_cons_trivia {p : Placed} (hp : p.lexeme.isTrivia = true) (ps : List Placed) :
    laidTrees size ss (p :: ps) =
      .token p.lexeme.kind p.lexeme.text :: laidTrees size ss ps := by
  induction ss with
  | nil => rfl
  | cons s ss ih =>
    rw [laidTrees_cons, laidTrees_cons]
    cases s with
    | word w =>
      rw [lay_word_cons_trivia size w hp]
      rfl
    | node k parts =>
      rw [lay_node, lay_node, leading_cons_trivia hp]
      rfl
    | fault f => exact ih
    | gap =>
      rw [lay, lay, leading_cons_trivia hp]
      rfl

theorem layAll_word_cons_trivia (w : Word) {p : Placed} (hp : p.lexeme.isTrivia = true)
    (ps : List Placed) :
    layAll size (.word w :: ss) (p :: ps) =
      (token p :: (layAll size (.word w :: ss) ps).1, (layAll size (.word w :: ss) ps).2) := by
  rw [layAll_cons, layAll_cons, lay_word_cons_trivia size w hp]
  rfl

theorem lay_word_cons (w : Word) {p : Placed} (hp : p.lexeme.isTrivia = false)
    (ps : List Placed) : lay size (.word w) (p :: ps) = ([token p], ps) := by
  rw [lay_word]
  simp [leading, hp]

/-- Words are laid over lexemes that end with the last of them. -/
theorem layAll_words {ws : List Word} {ps : List Placed}
    (hwords : (Placed.words ps).length = ws.length)
    (hlast : ∀ p ∈ ps.getLast?, p.lexeme.isTrivia = false) (qs : List Placed) :
    layAll size (ws.map .word) (ps ++ qs) = (ps.map token, qs) := by
  induction ps generalizing ws with
  | nil =>
    obtain rfl : ws = [] := List.length_eq_zero_iff.1 hwords.symm
    rfl
  | cons p ps ih =>
    have hothers : ∀ q ∈ ps.getLast?, q.lexeme.isTrivia = false := by
      intro q hq
      refine hlast q ?_
      rw [List.getLast?_cons, Option.mem_def.1 hq]
      rfl
    by_cases hp : p.lexeme.isTrivia = true
    · rw [Placed.words, List.filter_cons_of_neg (by simpa using hp), ← Placed.words] at hwords
      cases ws with
      | nil =>
        -- the last lexeme is a word, but there is none
        have hword := List.getLast_mem (List.cons_ne_nil p ps)
        have hkind := hlast _ (List.getLast?_eq_some_getLast (List.cons_ne_nil p ps))
        obtain hfirst | hmem := List.mem_cons.1 hword
        · rw [hfirst, hp] at hkind
          cases hkind
        · have hnone := List.filter_eq_nil_iff.1 (List.length_eq_zero_iff.1 hwords) _ hmem
          rw [hkind] at hnone
          exact absurd rfl hnone
      | cons w ws =>
        rw [List.map_cons, List.cons_append, layAll_word_cons_trivia size _ w hp,
          ← List.map_cons, ih hwords hothers]
        rfl
    · have hword : p.lexeme.isTrivia = false := by simpa using hp
      rw [Placed.words, List.filter_cons_of_pos (by simpa using hp), ← Placed.words] at hwords
      cases ws with
      | nil => cases hwords
      | cons w ws =>
        rw [List.map_cons, List.cons_append, layAll_cons, lay_word_cons size w hword,
          ih (Nat.succ.inj hwords) hothers]
        rfl

/-- A node of words is laid over lexemes that start and end with a word of it. -/
theorem laidTrees_node_words (k : Kind) {ws : List Word} {p : Placed} {ps : List Placed}
    (hp : p.lexeme.isTrivia = false) (hwords : (Placed.words (p :: ps)).length = ws.length)
    (hlast : ∀ q ∈ (p :: ps).getLast?, q.lexeme.isTrivia = false) (qs : List Placed) :
    laidTrees size (.node k (ws.map .word) :: ss) (p :: ps ++ qs) =
      .node k (Marked.treesOfAll ((p :: ps).map token)) :: laidTrees size ss qs := by
  have hleading : leading (p :: ps ++ qs) = ([], p :: ps ++ qs) := by simp [leading, hp]
  rw [laidTrees_cons, lay_node, hleading, layAll_words size hwords hlast]
  rfl

theorem laidTrees_eq_of_unjoined {ss ts : List Sketch} (h : unjoinedAll ts = unjoinedAll ss)
    (ps : List Placed) : laidTrees size ts ps = laidTrees size ss ps := by
  rw [laidTrees, ← layAll_unjoined, h, layAll_unjoined, laidTrees]

end Sketch

/-! ## sources -/

/-- Behind a line break the first word starts a line. -/
theorem Word.onNewLine_of_mem_head? (joined : Bool) (ls : List Lexeme) :
    ∀ w ∈ (ofLexemesAfter joined true ls).head?, w.onNewLine = true := by
  induction ls generalizing joined with
  | nil => exact nofun
  | cons l ls ih =>
    by_cases hl : l.isTrivia = true
    · rw [ofLexemesAfter, if_pos hl]
      exact ih false
    · rw [ofLexemesAfter, if_neg hl]
      intro w hw
      obtain rfl := Option.some.inj hw
      rfl

/-- A name, and arguments in parentheses behind it, in which brackets match. -/
structure IsCall (source : String) (name : Lexeme) (args : List Lexeme) : Prop where
  lex : Lexeme.lex source = name :: args
  name : name.kind = .identifier
  args : ∃ inner, args.map (·.kind) = .openParen :: inner ++ [.closeParen] ∧
    matched [] inner = true

/-- The keyword of a declaration does not go on with the line before it. -/
theorem Grammar.continuesLine_of_atDeclarationWord {ws : List Word}
    (h : atDeclarationWord ws = true) : continuesLine ws = false := by
  cases ws with
  | nil => rfl
  | cons w r =>
    obtain hword | hactor := Bool.or_eq_true_iff.1 h
    · have hkinds : ∀ k ∈ declarationWords,
          k ∉ [.dot, .customOperator, .question] ∧ k ≠ .identifier := by decide
      obtain ⟨hgoing, hname⟩ := hkinds w.kind (by simpa [atAny, kind?] using hword)
      simpa [continuesLine, atAny, atName, kind?, hname] using hgoing
    · obtain ⟨hkind, htext⟩ : w.kind = .identifier ∧ w.text = "actor" := by
        simpa [atName] using (Bool.and_eq_true_iff.1 hactor).1
      simp [continuesLine, atAny, atName, kind?, hkind, htext]

/-- Behind a line break, the keyword of a declaration starts a line. -/
theorem startsLine_of_atDeclarationWord {ls : List Lexeme}
    (h : atDeclarationWord (Word.ofLexemes ls) = true) :
    startsLine true (Word.ofLexemesAfter false true ls) = true := by
  have hunaware : Unaware atDeclarationWord := fun _ _ _ _ => rfl
  have hword := (hunaware.eq (rejoined_ofLexemesAfter false false false true ls)).trans h
  have hline := Word.onNewLine_of_mem_head? false ls
  generalize Word.ofLexemesAfter false true ls = vs at hword hline ⊢
  cases vs with
  | nil => cases hword
  | cons v vs => simp [startsLine, continuesLine_of_atDeclarationWord hword, hline v rfl]

namespace IsCall

variable {call blank d : String} {name : Lexeme} {args : List Lexeme} (h : IsCall call name args)

include h

theorem getLast?_lex : ∃ l, (Lexeme.lex call).getLast? = some l ∧ l.kind = .closeParen := by
  obtain ⟨inner, hargs, -⟩ := h.args
  have hlast := congrArg List.getLast? hargs
  rw [List.getLast?_map, List.getLast?_concat, Option.map_eq_some_iff] at hlast
  obtain ⟨l, hl, hk⟩ := hlast
  refine ⟨l, ?_, hk⟩
  rw [h.lex, List.getLast?_cons, hl]
  rfl

/-- What stands behind a call has words of its own. -/
theorem ofLexemes_append (ls : List Lexeme) :
    Word.ofLexemes (Lexeme.lex call ++ ls) =
      Word.ofLexemes (Lexeme.lex call) ++ Word.ofLexemesAfter true false ls := by
  obtain ⟨l, hl, hk⟩ := h.getLast?_lex
  obtain ⟨front, hfront⟩ := List.getLast?_eq_some_iff.1 hl
  rw [hfront, List.append_assoc, List.singleton_append]
  exact Word.ofLexemesAfter_word false false front l ls (by rw [Lexeme.isTrivia, hk]; rfl)

/-- The words of a call. -/
theorem callWords : ∃ f p r, Word.ofLexemes (Lexeme.lex call) = f :: p :: r ∧ f.text = name.text ∧
    CallWords f p r := by
  obtain ⟨inner, hargs, hmatched⟩ := h.args
  obtain ⟨paren, rest, rfl, hparen, hrest⟩ := List.map_eq_cons_iff.1 hargs
  obtain ⟨ms, cs, rfl, rfl, hcs⟩ := List.map_eq_append_iff.1 hrest
  obtain ⟨close, rfl, hclose⟩ := List.map_eq_singleton_iff.1 hcs
  have hname : name.isTrivia = false := by rw [Lexeme.isTrivia, h.name]; rfl
  have hopen : paren.isTrivia = false := by rw [Lexeme.isTrivia, hparen]; rfl
  have hinside := inside_ofLexemesAfter hmatched hclose
  refine ⟨⟨name.kind, name.text, false, false⟩, ⟨paren.kind, paren.text, true, false⟩,
    Word.ofLexemesAfter true false (ms ++ [close]), ?_, rfl, h.name, hparen, rfl, rfl, hinside.1,
    hinside.2⟩
  rw [h.lex, Word.ofLexemes, Word.ofLexemesAfter, hname, if_neg Bool.false_ne_true,
    Word.ofLexemesAfter, hopen, if_neg Bool.false_ne_true]

/-- A call, a line break and a text are cut up apart. -/
theorem lex_append (hblank : Lexeme.IsBlank ⟨.whitespace, blank⟩)
    (hd : ∀ c ∈ d.toList.head?, Lexeme.isSpace c = false) :
    Lexeme.lex (call ++ blank ++ d) =
      Lexeme.lex call ++ ⟨.whitespace, blank⟩ :: Lexeme.lex d := by
  obtain ⟨c, cs, hcs, hc⟩ := hblank.exists_cons
  have htext : (call ++ blank ++ d).toList = call.toList ++ c :: (cs ++ d.toList) := by
    rw [String.toList_append, String.toList_append, List.append_assoc]
    exact congrArg (fun x => call.toList ++ (x ++ d.toList)) hcs
  have hstops : ∀ l ∈ (Lexeme.lexChars call.toList).getLast?, Lexeme.StopsBefore c l.kind := by
    obtain ⟨l, hl, hk⟩ := h.getLast?_lex
    rintro l' hl'
    obtain rfl := Option.some.inj (hl.symm.trans hl')
    rw [Lexeme.StopsBefore, hk]
    exact .inl (by decide)
  rw [Lexeme.lex, htext, Lexeme.lexChars_seam _ (Lexeme.mem_edges_of_isSpace hc) hstops]
  have hrest := Lexeme.lexChars_blank hblank hd
  rw [hcs] at hrest
  exact congrArg (Lexeme.lexChars call.toList ++ ·) hrest

/-- The words behind a line break, where what stands behind the call starts. -/
theorem ofLexemes_behind (hblank : Lexeme.IsBlank ⟨.whitespace, blank⟩)
    (hbreak : '\n' ∈ blank.toList) (hd : ∀ c ∈ d.toList.head?, Lexeme.isSpace c = false) :
    Word.ofLexemes (Lexeme.lex (call ++ blank ++ d)) =
      Word.ofLexemes (Lexeme.lex call) ++ Word.ofLexemesAfter false true (Lexeme.lex d) := by
  have hnewline : Lexeme.hasNewline ⟨.whitespace, blank⟩ = true := List.contains_iff_mem.2 hbreak
  rw [h.lex_append hblank hd, h.ofLexemes_append, Word.ofLexemesAfter, hblank.isTrivia,
    if_pos rfl, hnewline]
  rfl

/-- A statement of as many words as a call is laid over the call. -/
theorem laidTrees_statement (size : Nat) {ws : List Word}
    (hws : ws.length = (Word.ofLexemes (Lexeme.lex call)).length) (ss : List Sketch)
    (qs : List Placed) :
    Sketch.laidTrees size (.node .statement (ws.map .word) :: ss)
        (Placed.ofLexemes 0 (Lexeme.lex call) ++ qs) =
      .node .statement ((name :: args).map fun l => .token l.kind l.text) ::
        Sketch.laidTrees size ss qs := by
  have hname : name.isTrivia = false := by rw [Lexeme.isTrivia, h.name]; rfl
  have hlexemes := Placed.map_lexeme_ofLexemes 0 (Lexeme.lex call)
  have hplaced : (Placed.words (Placed.ofLexemes 0 (Lexeme.lex call))).length = ws.length := by
    have hlength := congrArg List.length (map_lexeme_words_ofLexemes call)
    rw [List.length_map, List.length_map] at hlength
    rw [hlength, hws]
  have hlast : ∀ q ∈ (Placed.ofLexemes 0 (Lexeme.lex call)).getLast?,
      q.lexeme.isTrivia = false := by
    intro q hq
    obtain ⟨l, hl, hk⟩ := h.getLast?_lex
    rw [← hlexemes, List.getLast?_map, Option.mem_def.1 hq] at hl
    have hl : q.lexeme = l := Option.some.inj hl
    rw [hl, Lexeme.isTrivia, hk]
    rfl
  have htrees : Marked.treesOfAll ((Placed.ofLexemes 0 (Lexeme.lex call)).map .token) =
      (name :: args).map fun l => .token l.kind l.text := by
    rw [Sketch.treesOfAll_map_token, ← h.lex, ← hlexemes, List.map_map, hlexemes]
    rfl
  rw [← htrees]
  rw [h.lex] at hplaced hlast ⊢
  exact Sketch.laidTrees_node_words size ss .statement hname hplaced hlast qs

/-- The trees of a call as a statement, in front of those of the text behind it. -/
theorem children_parse (hblank : Lexeme.IsBlank ⟨.whitespace, blank⟩)
    (hd : ∀ c ∈ d.toList.head?, Lexeme.isSpace c = false) {ws : List Word} {ss : List Sketch}
    (hws : ws.length = (Word.ofLexemes (Lexeme.lex call)).length)
    (hsketch : fileSketch (call ++ blank ++ d) = .node .statement (ws.map .word) :: ss)
    (hss : Sketch.unjoinedAll ss = Sketch.unjoinedAll (fileSketch d)) :
    (parse (call ++ blank ++ d)).tree.children =
      .node .statement ((name :: args).map fun l => .token l.kind l.text) ::
        .token .whitespace blank :: (parse d).tree.children := by
  have hlex := h.lex_append hblank hd
  let n := Lexeme.sizeOfAll (Lexeme.lex call) + Lexeme.size ⟨.whitespace, blank⟩
  have hsize : Lexeme.sizeOfAll (Lexeme.lex (call ++ blank ++ d)) =
      Lexeme.sizeOfAll (Lexeme.lex d) + n := by
    rw [hlex, Lexeme.sizeOfAll_append, Lexeme.sizeOfAll_cons, Nat.add_comm _ n, Nat.add_assoc]
  rw [Sketch.children_parse, hsketch, hsize, hlex, Placed.ofLexemes_append,
    h.laidTrees_statement _ hws, Placed.ofLexemes,
    Sketch.laidTrees_cons_trivia _ _ hblank.isTrivia, Sketch.laidTrees_eq_of_unjoined _ hss,
    Nat.add_assoc, ← Placed.map_shifted_ofLexemes, Sketch.laidTrees_shifted, Sketch.children_parse]

end IsCall

/-- Behind a line break, a text that starts with the keyword of a declaration has the trees that it
has alone, and the call in front of it is a statement, unless the name of the call is a modifier of
the declaration. -/
theorem parse_call_iff {call blank d : String} {name : Lexeme} {args : List Lexeme}
    (hcall : IsCall call name args) (hblank : Lexeme.IsBlank ⟨.whitespace, blank⟩)
    (hbreak : '\n' ∈ blank.toList) (hd : ∀ c ∈ d.toList.head?, Lexeme.isSpace c = false)
    (hword : atDeclarationWord (Word.ofLexemes (Lexeme.lex d)) = true) :
    (parse (call ++ blank ++ d)).tree.children =
        .node .statement ((name :: args).map fun l => .token l.kind l.text) ::
          .token .whitespace blank :: (parse d).tree.children ↔
      ¬(modifierNames.contains name.text = true ∧
        atDeclaration (Word.ofLexemes (Lexeme.lex d)) = true) := by
  obtain ⟨f, p, r, hwords, htext, hparts⟩ := hcall.callWords
  have hrejoined := rejoined_ofLexemesAfter false false false true (Lexeme.lex d)
  have hfile := hcall.ofLexemes_behind hblank hbreak hd
  have hannounced := hparts.atDeclaration (Word.ofLexemesAfter false true (Lexeme.lex d))
  rw [unaware_atDeclaration.eq hrejoined, htext, ← Word.ofLexemes] at hannounced
  rw [← Bool.and_eq_true_iff, ← hannounced, Bool.not_eq_true]
  constructor
  · intro hchildren
    by_contra hat
    have hne : Word.ofLexemes (Lexeme.lex (call ++ blank ++ d)) ≠ [] := by
      rw [hfile, hwords]
      exact List.cons_ne_nil _ _
    obtain ⟨k, ps, ss, hsketch, hk⟩ := itemsFrom_of_atDeclaration (atOther_of_ne_nil hne)
      (by rw [hfile, hwords]; simp [at?, kind?, hparts.name])
      (by rw [hfile, hwords]; simpa using hat)
    have hbare := congrArg Tree.children (bare_parse (call ++ blank ++ d))
    rw [Tree.children_bare, hchildren, fileSketch, fileItems, hsketch] at hbare
    exact hk (Tree.node.inj (List.cons.inj hbare).1).1.symm
  · intro hat
    refine hcall.children_parse hblank hd (congrArg List.length hwords.symm) ?_
      (alike_itemsFrom [] hrejoined).sketches
    rw [fileSketch, hfile, hwords]
    exact hparts.itemsFrom hat (startsLine_of_atDeclarationWord hword)

/-- A call on the line above a variable is a statement. -/
theorem parse_call_variable :
    (parse ("f(a)" ++ "\n" ++ "var b = 1")).tree.children =
      .node .statement [.token .identifier "f", .token .openParen "(", .token .identifier "a",
        .token .closeParen ")"] ::
        .token .whitespace "\n" :: (parse "var b = 1").tree.children := by
  have hcall : IsCall "f(a)" ⟨.identifier, "f"⟩
      [⟨.openParen, "("⟩, ⟨.identifier, "a"⟩, ⟨.closeParen, ")"⟩] :=
    ⟨by decide +kernel, rfl, [.identifier], rfl, rfl⟩
  have hblank : Lexeme.IsBlank ⟨.whitespace, "\n"⟩ :=
    Lexeme.isBlank_of_all (by decide) (by decide)
  have hhead : "var b = 1".toList.head? = some 'v' := by decide
  refine (parse_call_iff hcall hblank (by decide +kernel) (fun c hc => ?_) (by decide +kernel)).2
    (by decide +kernel)
  rw [hhead] at hc
  obtain rfl := Option.some.inj hc
  decide

/-- With the name of a modifier that takes arguments, a call on the line above a variable that is
read without faults is a modifier of it. -/
theorem parse_call_modifier :
    let call := "nonisolated(unsafe)"
    let d := "var a = 1"
    IsCall call ⟨.identifier, "nonisolated"⟩
        [⟨.openParen, "("⟩, ⟨.identifier, "unsafe"⟩, ⟨.closeParen, ")"⟩] ∧
      atDeclarationWord (Word.ofLexemes (Lexeme.lex d)) = true ∧ (parse d).faults = [] ∧
      (parse (call ++ "\n" ++ d)).tree.children.map Tree.kind = [.variableDecl] ∧
      ((fileNests (call ++ "\n" ++ d)).filter (·.tree.kind == .modifier)).map (·.tree.text) =
        ["nonisolated(unsafe)"] :=
  ⟨⟨by decide +kernel, rfl, [.identifier], rfl, rfl⟩, by decide +kernel, by decide +kernel,
    by decide +kernel, by decide +kernel⟩

end SwiftOutline

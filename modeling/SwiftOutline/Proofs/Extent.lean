import SwiftOutline.Declaration.Reading
import SwiftOutline.Proofs.Every
import SwiftOutline.Proofs.Nest

/-!
# SwiftOutline.Proofs.Extent

How far statements go.

* `Whole` — a statement goes on after every word but its last. It ends there with the words
  that are left or, outside all brackets, with a semicolon, before the end of the scope around
  it or before a line of its own;
* `Law.wholeStatements` — the law that statements are whole;
* `Tree.extents` — the nodes of a tree, each with the kind of the node around it and the number
  of words before it; `Law.Scoped.of_mem_fileExtents` — in a source file, a law about statements
  and accessors holds of the parts that they were laid from;
* `parse_statements` — the statements of a source file are whole. What comes before a line break
  has no say in it: a comma does not keep a statement going.
-/

namespace SwiftOutline

open Grammar

/-! ## whole statements -/

/-- The bracket depth after some words, from a given one on. -/
def depthFrom (depth : Nat) (ws : List Word) : Nat :=
  ws.foldl (fun d w => depthAfter d w.kind) depth

/-- Whether a statement ends after some of its words and before the words behind them: at the
end or, outside all brackets, with a semicolon, before a word that ends the scope or before a
line that does not go on with the one before it. -/
def EndsBetween (ends : List Kind) (depth : Nat) (taken behind : List Word) : Prop :=
  behind = [] ∨ depthFrom depth taken = 0 ∧
    (taken.getLast?.any (·.kind == .semicolon) = true ∨
      (atAny ends behind || startsLine true behind) = true)

/-- Some words before others are a whole statement: it ends with them and not before. A closing
bracket that closes nothing is one by itself. -/
def Whole (ends : List Kind) (taken behind : List Word) : Prop :=
  taken ≠ [] ∧
    ((∃ w, taken = [w] ∧ w.kind.isCloser = true) ∨
      ∀ pre post, taken = pre ++ post → pre ≠ [] →
        (post = [] ↔ EndsBetween ends 0 pre (post ++ behind)))

/-- In a whole statement the words up to one outside all brackets, which is no semicolon, are the
last ones exactly if the words behind them say so. -/
theorem Whole.eq_nil_iff {ends : List Kind} {pre post behind : List Word} {w : Word}
    (h : Whole ends (pre ++ w :: post) behind) (hcloser : w.kind.isCloser = false)
    (hsemicolon : w.kind ≠ .semicolon) :
    post = [] ↔ post ++ behind = [] ∨ depthFrom 0 (pre ++ [w]) = 0 ∧
      (atAny ends (post ++ behind) = true ∨ startsLine true (post ++ behind) = true) := by
  obtain ⟨-, ⟨c, hc, hkind⟩ | hall⟩ := h
  · obtain ⟨rfl, hc⟩ | ⟨_, rfl, hc⟩ := List.append_eq_cons_iff.1 hc
    · cases hc
      rw [hkind] at hcloser
      cases hcloser
    · simp at hc
  · have hsplit := hall (pre ++ [w]) post (by simp) (by simp)
    rw [EndsBetween, List.getLast?_concat, Option.any_some] at hsplit
    simpa [hsemicolon] using hsplit

theorem endsBetween_nil {ends : List Kind} {depth : Nat} {behind : List Word} :
    EndsBetween ends depth [] behind ↔
      behind = [] ∨ depth = 0 ∧ (atAny ends behind || startsLine true behind) = true := by
  simp [EndsBetween, depthFrom]

/-- A semicolon outside all brackets ends a statement. -/
theorem endsBetween_semicolon {ends : List Kind} {w : Word} {behind : List Word}
    (h : w.kind = .semicolon) : EndsBetween ends 0 [w] behind := by
  refine .inr ⟨?_, .inl (by simp [h])⟩
  rw [depthFrom, List.foldl_cons, List.foldl_nil, h]
  rfl

/-- A word that does not end a statement by itself only changes the bracket depth. -/
theorem endsBetween_cons {ends : List Kind} {depth : Nat} {w : Word} {pre behind : List Word}
    (h : ¬(depth = 0 ∧ w.kind = .semicolon)) :
    EndsBetween ends depth (w :: pre) behind ↔
      EndsBetween ends (depthAfter depth w.kind) pre behind := by
  cases pre with
  | nil =>
    have hsemicolon : depthAfter depth w.kind = 0 → w.kind ≠ .semicolon := by
      intro hdepth hw
      rw [hw] at hdepth
      exact h ⟨hdepth, hw⟩
    rw [endsBetween_nil]
    refine or_congr_right (and_congr_right fun hdepth => ?_)
    simp [hsemicolon hdepth]
  | cons v pre => simp [EndsBetween, depthFrom, List.getLast?_cons_cons]

namespace Grammar

variable {stop ends : List Kind}

/-- The words of a statement from a given bracket depth on, at least one having been taken: it
ends before the words that are left, and after no smaller part of its words. -/
theorem endsBetween_statementWords
    (hends : ∀ ws, endsStatement stop true ws = (atAny ends ws || startsLine true ws))
    (depth : Nat) (ws pre post : List Word)
    (h : Sketch.wordsOfAll (statementWords stop depth true ws).sketches = pre ++ post) :
    post = [] ↔
      EndsBetween ends depth pre (post ++ (statementWords stop depth true ws).rest) := by
  induction ws generalizing depth pre with
  | nil =>
    obtain ⟨rfl, rfl⟩ := List.append_eq_nil_iff.1 h.symm
    exact iff_of_true rfl (.inl rfl)
  | cons w r ih =>
    have hcovers := (statementWords stop depth true (w :: r)).covers
    rw [h, List.append_assoc] at hcovers
    generalize hrest : (statementWords stop depth true (w :: r)).rest = rest at hcovers ⊢
    unfold statementWords at h hrest
    by_cases hbreak : (depth == 0 && endsStatement stop true (w :: r)) = true
    · -- a word that ends the statement is none of it
      rw [if_pos hbreak] at h
      obtain ⟨rfl, rfl⟩ := List.append_eq_nil_iff.1 h.symm
      rw [Bool.and_eq_true, beq_iff_eq, hends, ← hcovers] at hbreak
      exact iff_of_true rfl (endsBetween_nil.2 (.inr hbreak))
    · rw [if_neg hbreak] at h hrest
      cases pre with
      | nil =>
        rw [List.nil_append] at h hcovers
        refine iff_of_false ?_ ?_
        · rintro rfl
          split at h <;> simp [Parsed.take, Parsed.cons] at h
        · rw [hcovers, endsBetween_nil, ← hends]
          simpa using hbreak
      | cons v pre =>
        obtain ⟨rfl, hcovers⟩ := List.cons_eq_cons.1 hcovers
        by_cases hsemicolon : (depth == 0 && v.kind == .semicolon) = true
        · rw [if_pos hsemicolon] at h
          obtain ⟨rfl, rfl⟩ : pre = [] ∧ post = [] := by
            simpa [Parsed.take, Parsed.cons, Parsed.done] using h
          rw [Bool.and_eq_true, beq_iff_eq, beq_iff_eq] at hsemicolon
          rw [hsemicolon.1]
          exact iff_of_true rfl (endsBetween_semicolon hsemicolon.2)
        · rw [if_neg hsemicolon] at h hrest
          subst hrest
          rw [endsBetween_cons (by simpa using hsemicolon)]
          exact ih _ _ (List.cons_injective h)

/-- The words of a statement that starts at a word which ends no scope are a whole one. -/
theorem whole_statementWords
    (hends : ∀ ws, endsStatement stop true ws = (atAny ends ws || startsLine true ws))
    {w : Word} {r : List Word} (hstart : endsStatement stop false (w :: r) = false) :
    Whole ends (Sketch.wordsOfAll (statementWords stop 0 false (w :: r)).sketches)
      (statementWords stop 0 false (w :: r)).rest := by
  have hcovers := (statementWords stop 0 false (w :: r)).covers
  have hlt := length_rest_statementWords_lt hstart
  refine ⟨?_, .inr fun pre post h hpre => ?_⟩
  · intro hnil
    rw [hnil, List.nil_append] at hcovers
    rw [hcovers] at hlt
    exact Nat.lt_irrefl _ hlt
  · obtain ⟨v, pre, rfl⟩ := List.exists_cons_of_ne_nil hpre
    rw [h, List.append_assoc] at hcovers
    obtain ⟨rfl, -⟩ := List.cons_eq_cons.1 hcovers
    unfold statementWords at h ⊢
    rw [hstart, Bool.and_false, if_neg Bool.false_ne_true] at h ⊢
    by_cases hsemicolon : v.kind = .semicolon
    · rw [if_pos (by simp [hsemicolon])] at h ⊢
      obtain ⟨rfl, rfl⟩ : pre = [] ∧ post = [] := by
        simpa [Parsed.take, Parsed.cons, Parsed.done] using h
      exact iff_of_true rfl (endsBetween_semicolon hsemicolon)
    · rw [if_neg (by simp [hsemicolon])] at h ⊢
      rw [endsBetween_cons (by simp [hsemicolon])]
      exact endsBetween_statementWords hends _ _ _ _ (List.cons_injective h)

end Grammar

/-! ## sketches -/

/-- Statements are whole in the scopes around them. -/
def Law.wholeStatements : Law := fun around k ps rest =>
  k = .statement → Whole around.ends (Sketch.wordsOfAll ps) rest

namespace Grammar

/-- A statement is whole where its scope has not ended. -/
theorem scoped_wholeStatements : Law.wholeStatements.Scoped where
  free := fun hk _ _ _ _ h => absurd h hk
  accessor := fun _ _ _ _ _ _ h => nomatch h
  statement := by
    intro n around stop ws h hstop hother _ ps hps _
    cases ws with
    | nil => cases hother
    | cons w r =>
      obtain rfl : _ = ps := (Sketch.node.inj (List.cons.inj hps).1).2
      show Whole _ _ (Rule.ifAt ..).rest
      unfold Rule.ifAt
      split
      · next hcloser =>
        exact ⟨List.cons_ne_nil _ _, .inl ⟨w, rfl, by simpa [atCloser, kind?] using hcloser⟩⟩
      · next hcloser =>
        exact whole_statementWords (hstop.endsStatement_eq true)
          (endsStatement_start hother hcloser)

end Grammar

/-! ## trees -/

namespace Tree

mutual

/-- The nodes of a tree in document order, as extents; the tree stands in a node of a kind, and
`n` words stand before it. -/
def extents (around : Kind) (n : Nat) : Tree → List Extent
  | node k cs => ⟨around, n, node k cs⟩ :: extentsOfAll k n cs
  | token .. => []

/-- The nodes of a run of trees in document order, as extents. -/
def extentsOfAll (around : Kind) (n : Nat) : List Tree → List Extent
  | [] => []
  | t :: ts => extents around n t ++ extentsOfAll around (n + wordCount t) ts

end

mutual

/-- The extents of a tree are its nodes with the nodes around them, of which the kind of the
innermost is kept. -/
theorem exists_nest_of_mem_extents {t : Tree} {above : List Extent} {n : Nat} {e : Extent}
    (he : e ∈ extents (kindAround above) n t) :
    ∃ f ∈ nests above n t, f.toExtent = e ∧ f.around = kindAround f.above := by
  cases t with
  | node k cs =>
    rw [nests]
    obtain rfl | he := List.mem_cons.1 he
    · exact ⟨_, List.mem_cons_self, rfl, rfl⟩
    · let here : Extent := ⟨kindAround above, n, node k cs⟩
      have hinner : e ∈ extentsOfAll (kindAround (here :: above)) n cs := he
      obtain ⟨f, hf, hfe⟩ := exists_nest_of_mem_extentsOfAll hinner
      exact ⟨f, List.mem_cons_of_mem _ hf, hfe⟩
  | token k x => cases he

theorem exists_nest_of_mem_extentsOfAll {ts : List Tree} {above : List Extent} {n : Nat}
    {e : Extent} (he : e ∈ extentsOfAll (kindAround above) n ts) :
    ∃ f ∈ nestsOfAll above n ts, f.toExtent = e ∧ f.around = kindAround f.above := by
  cases ts with
  | nil => cases he
  | cons t ts =>
    rw [nestsOfAll]
    obtain he | he := List.mem_append.1 he
    · obtain ⟨f, hf, hfe⟩ := exists_nest_of_mem_extents he
      exact ⟨f, List.mem_append_left _ hf, hfe⟩
    · obtain ⟨f, hf, hfe⟩ := exists_nest_of_mem_extentsOfAll he
      exact ⟨f, List.mem_append_right _ hf, hfe⟩

end

theorem shaped_of_mem_extentsOfAll {ts : List Tree} {around : Kind} {n : Nat}
    (hts : ShapedAll ts) : ∀ e ∈ extentsOfAll around n ts, e.tree.Shaped := by
  intro e he
  -- any node of the kind may stand around the trees
  let outer : Extent := ⟨.sourceFile, 0, node around []⟩
  have hnest : e ∈ extentsOfAll (kindAround [outer]) n ts := he
  obtain ⟨f, hf, rfl, -⟩ := exists_nest_of_mem_extentsOfAll hnest
  exact shaped_of_mem_nestsOfAll hts f hf

/-- A statement holds no nodes. -/
theorem isNode_of_mem_statement {t : Tree} (ht : t.Shaped) (hk : t.kind = .statement) :
    ∀ c ∈ t.children, c.isNode = false := by
  intro c hc
  cases t with
  | node k cs =>
    obtain rfl : k = .statement := hk
    by_contra hnode
    exact absurd (ht.1.mem (mem_kinds hc (Bool.not_eq_false _ ▸ hnode))) List.not_mem_nil
  | token k x => cases hc

end Tree

/-! ## source files -/

/-- The nodes of a source file below its root, as extents. -/
def fileExtents (source : String) : List Extent :=
  Tree.extentsOfAll .sourceFile 0 (parse source).tree.children

theorem kindAround_map_frame (words : List Word) (above : List Extent) :
    Frame.kindAround (above.map (Extent.frame words)) = Tree.kindAround above := by
  cases above <;> rfl

/-- Every node of a source file was laid from parts that a law about statements and accessors holds
of, in the innermost of the nodes around it. -/
theorem Law.Scoped.of_mem_fileNests {L : Law} (hL : L.Scoped) {source : String} {e : Nest}
    (he : e ∈ fileNests source) :
    ∃ parts, Sketch.LaidAs e.tree.kind parts e.tree ∧
      Sketch.wordsOfAll parts = e.taken (Word.ofLexemes (Lexeme.lex source)) ∧
      L (Tree.kindAround e.above) e.tree.kind parts
        (e.behind (Word.ofLexemes (Lexeme.lex source))) := by
  obtain ⟨parts, hlaid, htaken, hlaw⟩ := hL.framed.of_mem_fileNests he
  rw [Law.framed, kindAround_map_frame] at hlaw
  exact ⟨parts, hlaid, htaken, hlaw⟩

section

variable {source : String} {e : Extent} (he : e ∈ fileExtents source)

include he

/-- An extent of a source file is one of its nodes, with the kind of the innermost node around. -/
theorem exists_nest_of_mem_fileExtents :
    ∃ f ∈ fileNests source, f.toExtent = e ∧ f.around = Tree.kindAround f.above :=
  Tree.exists_nest_of_mem_extentsOfAll
    (show e ∈ Tree.extentsOfAll (Tree.kindAround []) 0 (parse source).tree.children from he)

/-- So it is with the extents of a source file. -/
theorem Law.Scoped.of_mem_fileExtents {L : Law} (hL : L.Scoped) :
    ∃ parts, Sketch.LaidAs e.tree.kind parts e.tree ∧
      Sketch.wordsOfAll parts = e.taken (Word.ofLexemes (Lexeme.lex source)) ∧
      L e.around e.tree.kind parts (e.behind (Word.ofLexemes (Lexeme.lex source))) := by
  obtain ⟨f, hf, rfl, haround⟩ := exists_nest_of_mem_fileExtents he
  rw [haround]
  exact hL.of_mem_fileNests hf

/-- Every statement of a source file is whole. -/
theorem whole_of_mem_fileExtents (hk : e.tree.kind = .statement) :
    Whole e.around.ends (e.taken (Word.ofLexemes (Lexeme.lex source)))
      (e.behind (Word.ofLexemes (Lexeme.lex source))) := by
  obtain ⟨parts, -, htaken, hlaw⟩ := scoped_wholeStatements.of_mem_fileExtents he
  rw [← htaken]
  exact hlaw hk

/-- The words that an extent of a source file counts are those of its node. -/
theorem map_lexeme_taken :
    (e.taken (Word.ofLexemes (Lexeme.lex source))).map Word.lexeme =
      e.tree.tokens.filter (!·.isTrivia) := by
  obtain ⟨f, hf, rfl, -⟩ := exists_nest_of_mem_fileExtents he
  exact (scoped_wholeStatements.framed.of_mem_fileNests hf).map_lexeme_taken

end

/-- A statement of a source file holds words only, those that are counted for it, and goes on
after a comma unless nothing is left, or the comma is outside all brackets and what is behind it
ends the scope or is a line that does not go on with the one before it. In each of these cases
the comma is the last word of the statement: it does not keep the statement going over a line
break. -/
theorem parse_statements (source : String) :
    let words := Word.ofLexemes (Lexeme.lex source)
    ∀ e ∈ fileExtents source, e.tree.kind = .statement →
      (∀ c ∈ e.tree.children, c.isNode = false) ∧
        (e.taken words).map Word.lexeme = e.tree.tokens.filter (!·.isTrivia) ∧
        ∀ pre comma post, e.taken words = pre ++ comma :: post → comma.kind = .comma →
          (post = [] ↔ post ++ e.behind words = [] ∨ depthFrom 0 pre = 0 ∧
            (atAny e.around.ends (post ++ e.behind words) = true ∨
              startsLine true (post ++ e.behind words) = true)) := by
  intro words e he hk
  have hshaped : e.tree.Shaped := Tree.shaped_of_mem_extentsOfAll (shaped_parse source).2 e he
  refine ⟨Tree.isNode_of_mem_statement hshaped hk, map_lexeme_taken he, ?_⟩
  intro pre comma post htaken hcomma
  have hwhole := whole_of_mem_fileExtents he hk
  rw [htaken] at hwhole
  have hdepth : depthFrom 0 (pre ++ [comma]) = depthFrom 0 pre := by
    rw [depthFrom, List.foldl_append, List.foldl_cons, List.foldl_nil, hcomma]
    rfl
  rw [hwhole.eq_nil_iff (by rw [hcomma]; rfl) (by simp [hcomma]), hdepth]

/-- In a condition over two lines a comma is the last word before the second one. -/
theorem parse_statements_condition :
    let source := "if let a = x,\n    let b = y \x7b\n    use(a, b)\n\x7d\n"
    let words := Word.ofLexemes (Lexeme.lex source)
    ∃ e ∈ fileExtents source, e.tree.kind = .statement ∧
      (∀ c ∈ e.tree.children, c.isNode = false) ∧ ∃ pre comma,
        e.taken words = pre ++ [comma] ∧ comma.kind = .comma ∧
          (e.behind words = [] ∨ depthFrom 0 pre = 0 ∧
            (atAny e.around.ends (e.behind words) = true ∨
              startsLine true (e.behind words) = true)) := by
  intro source words
  have hany : (fileExtents source).any (fun e => e.tree.kind == .statement &&
      (e.taken words).getLast?.any (·.kind == .comma)) = true := by decide +kernel
  obtain ⟨e, he, hall⟩ := List.any_eq_true.1 hany
  rw [Bool.and_eq_true, beq_iff_eq, Option.any_eq_true] at hall
  obtain ⟨hk, comma, hlast, hcomma⟩ := hall
  obtain ⟨pre, htaken⟩ := List.getLast?_eq_some_iff.1 hlast
  obtain ⟨hnode, -, hends⟩ := parse_statements source e he hk
  exact ⟨e, he, hk, hnode, pre, comma, htaken, beq_iff_eq.1 hcomma,
    (hends pre comma [] htaken (beq_iff_eq.1 hcomma)).1 rfl⟩

/-- A condition over two lines is a statement up to its comma; what it binds behind that is a
variable of the file. -/
theorem condition_over_lines :
    let source := "if let a = x,\n    let b = y \x7b\n    use(a, b)\n\x7d\n"
    let words := Word.ofLexemes (Lexeme.lex source)
    (∃ e ∈ fileExtents source, e.tree.kind = .statement ∧
      (e.taken words).getLast?.map (·.kind) = some .comma ∧
      (e.behind words).head?.map (·.kind) = some .kwLet) ∧
      (Declaration.collectFile .default (parse source).tree).map (·.name) = ["b"] := by
  intro source words
  have hany : (fileExtents source).any (fun e => e.tree.kind == .statement &&
      ((e.taken words).getLast?.map (·.kind) == some .comma &&
        (e.behind words).head?.map (·.kind) == some .kwLet)) = true := by decide +kernel
  have hnames : (Declaration.collectFile .default (parse source).tree).map (·.name) = ["b"] := by
    decide +kernel
  obtain ⟨e, he, hall⟩ := List.any_eq_true.1 hany
  simp only [Bool.and_eq_true, beq_iff_eq] at hall
  exact ⟨⟨e, he, hall.1, hall.2.1, hall.2.2⟩, hnames⟩

end SwiftOutline

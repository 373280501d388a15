import SwiftOutline.Declaration.Reading
import SwiftOutline.Proofs.Nest

/-!
# SwiftOutline.Proofs.Condition

What the conditions of conditional blocks take.

* `conditionWords` — the next word, whatever line it is on, and what is behind it on its line;
  `wordsOfAll_condition` — a condition takes these;
* `BranchParts`, `NestedLaw.branchParts`, `local_branchParts` — a branch is a directive, a condition
  unless the directive is `#else`, and items;
* `condition_of_standsIn`, `exists_condition_of_branch` — so it is with the branches of a source
  file, as nodes with words before them;
* `conditions_taken` — every condition of every source file stands behind its directive and takes
  these words. It stays on the line of the directive exactly if something stands there or the file
  ends, and it is reported missing only in the latter case.
-/

namespace SwiftOutline

open Grammar Rule Sketch

/-! ## conditions -/

/-- The words of a condition, if some words are left: the next one, whatever line it is on, and
those behind it up to the end of its line. -/
def conditionWords : List Word → List Word
  | [] => []
  | w :: r => w :: r.takeWhile (!·.onNewLine)

theorem conditionWords_eq_nil_iff {ws : List Word} : conditionWords ws = [] ↔ ws = [] := by
  cases ws <;> simp [conditionWords]

/-- A condition stays on a line if its first word does. -/
theorem exists_onNewLine_conditionWords {ws : List Word} :
    (∃ w ∈ conditionWords ws, w.onNewLine = true) ↔ ws.head?.any (·.onNewLine) = true := by
  cases ws with
  | nil => simp [conditionWords]
  | cons w r =>
    have hline : ∀ v ∈ r.takeWhile (!·.onNewLine), v.onNewLine = false := fun v hv => by
      simpa using List.mem_takeWhile_imp hv
    simp only [conditionWords, List.mem_cons, exists_eq_or_imp, List.head?_cons, Option.any_some]
    refine or_iff_left ?_
    rintro ⟨v, hv, hbreak⟩
    rw [hline v hv] at hbreak
    cases hbreak

namespace Grammar

variable {n : Nat}

/-- The words up to the end of a line. -/
theorem wordsOfAll_line (ws : List Word) (h : ws.length < n) :
    wordsOfAll (whileAt (fun ws => !ws.head?.any (·.onNewLine)) done ws h).sketches =
      ws.takeWhile (!·.onNewLine) := by
  induction ws with
  | nil => rw [whileAt]; rfl
  | cons w r ih =>
    rw [whileAt, List.takeWhile_cons]
    cases hw : w.onNewLine with
    | true => simp [hw, Parsed.done]
    | false =>
      rw [if_pos (by simp [hw])]
      exact congrArg (w :: ·) (ih _)

theorem wordsOfAll_condition (ws : List Word) (h : ws.length < n) :
    ∃ parts, (condition ws h).sketches = [.node .ifConfigCondition parts] ∧
      wordsOfAll parts = conditionWords ws := by
  refine ⟨_, rfl, ?_⟩
  show wordsOfAll (ifAt _ _ _ ws h).sketches = _
  cases ws with
  | nil => rfl
  | cons w r => exact congrArg (w :: ·) (wordsOfAll_line r _)

end Grammar

/-! ## branches -/

/-- The parts of a branch before some words: its directive, a condition unless the directive is
`#else`, and items. -/
def BranchParts (ps : List Sketch) (rest : List Word) : Prop :=
  ∃ directive others, ps = .word directive :: others ∧
    if directive.kind = .poundElse then .ifConfigCondition ∉ kinds others
    else (directive.kind = .poundIf ∨ directive.kind = .poundElseif) ∧
      ∃ parts items, others = .node .ifConfigCondition parts :: items ∧
        .ifConfigCondition ∉ kinds items ∧
        wordsOfAll parts = conditionWords (wordsOfAll others ++ rest)

/-- Branches are made of a directive, a condition and items. -/
def NestedLaw.branchParts : NestedLaw := fun _ k ps rest =>
  k = .ifConfigClause → BranchParts ps rest

namespace Grammar

variable {n : Nat}

theorem branchParts_branch {inside : List Kind → Rule n}
    (hin : ∀ stop, Rule.Fits (.any Kind.items) (inside stop)) (stop : List Kind) {ws : List Word}
    (h : ws.length < n + 1) (hat : atBranch ws = true) {ps : List Sketch}
    (hps : (branch inside stop ws h).sketches = [.node .ifConfigClause ps]) :
    BranchParts ps (branch inside stop ws h).rest := by
  have hitems {us : List Word} (h : us.length < n) :
      .ifConfigCondition ∉ kinds (inside (branchEnds ++ stop) us h).sketches := fun hmem =>
    absurd ((hin _ us h).admits.mem hmem) (by decide)
  obtain rfl : _ = ps := (Sketch.node.inj (List.cons.inj hps).1).2
  show BranchParts (ifAt _ _ _ ws h).sketches (ifAt _ _ _ ws h).rest
  cases ws with
  | nil => cases hat
  | cons w r =>
    have hr := Nat.lt_of_succ_lt_succ h
    -- only `#else` stands without a condition
    unfold ifAt
    split
    · next helse =>
      have hw : w.kind = .poundElse := by simpa [at?, kind?] using helse
      exact ⟨w, _, rfl, by rw [if_pos hw]; exact hitems hr⟩
    · next helse =>
      have hw : w.kind ≠ .poundElse := by simpa [at?, kind?] using helse
      obtain ⟨parts, hparts, hwords⟩ := wordsOfAll_condition r hr
      let items : Parsed (condition r hr).rest :=
        inside (branchEnds ++ stop) _ ((condition r hr).length_rest_lt hr)
      refine ⟨w, ((condition r hr).append items).sketches, rfl, ?_⟩
      rw [if_neg hw]
      refine ⟨by simpa [atBranch, atAny, kind?, hw] using hat, parts, items.sketches,
        congrArg (· ++ items.sketches) hparts, hitems _, hwords.trans ?_⟩
      exact congrArg conditionWords ((condition r hr).append items).covers.symm

theorem local_branchParts : NestedLaw.branchParts.Local := by
  refine .about rfl (by decide) fun hmade => ?_
  cases hmade with
  | branch hfits stop h hat hps => exact branchParts_branch hfits stop h hat hps

end Grammar

/-! ## source files -/

/-- The nodes among the trees of a run of sketches are those of the sketches. -/
theorem Tree.kinds_treesOfAll (ss : List Sketch) :
    Tree.kinds (Sketch.treesOfAll ss) = Sketch.kinds ss := by
  induction ss with
  | nil => rfl
  | cons s ss ih =>
    cases s with
    | node k ps => exact congrArg (k :: ·) ih
    | word w => exact ih
    | fault f => exact ih
    | gap => exact ih

/-- Sketches with no node of a kind are read as trees with none. -/
theorem Tree.node_notMem_treesOfAll {k : Kind} {ss : List Sketch} (h : k ∉ Sketch.kinds ss)
    (ts : List Tree) : Tree.node k ts ∉ Sketch.treesOfAll ss := by
  intro hmem
  rw [← Tree.kinds_treesOfAll] at h
  exact h (Tree.mem_kinds hmem rfl)

/-- Conditions stand in branches only. -/
theorem Kind.eq_ifConfigClause_of_content {k : Kind}
    (h : .ifConfigCondition ∈ k.content.once ++ k.content.many) : k = .ifConfigClause := by
  revert h
  cases k <;> decide

section

variable {source : String}

/-- A condition without trivia is read from the words that it takes. -/
theorem exists_parts_of_condition {e : Nest} (he : e ∈ fileNests source)
    (hk : e.tree.kind = .ifConfigCondition) :
    ∃ parts, e.tree.isNode = true ∧
      e.tree.bare = .node .ifConfigCondition (Sketch.treesOfAll parts) ∧
      wordsOfAll parts = e.taken (Word.ofLexemes (Lexeme.lex source)) := by
  obtain ⟨parts, hlaid, htaken, -⟩ := local_branchParts.of_mem_fileNests he
  refine ⟨parts, ?_, by rw [hlaid.bare, hk], htaken⟩
  obtain ⟨size, ps, rest, htree, -⟩ := hlaid
  rw [htree]
  rfl

/-- Every condition of a source file stands in a branch. -/
theorem exists_branch_of_mem_fileNests {e : Nest} (he : e ∈ fileNests source)
    (hk : e.tree.kind = .ifConfigCondition) :
    ∃ c ∈ fileNests source, c.tree.kind = .ifConfigClause ∧ e.StandsIn c := by
  obtain ⟨-, hnode, -⟩ := exists_parts_of_condition he hk
  have hshaped := shaped_parse source
  obtain ⟨-, pre, post, hcs, -⟩ | ⟨c, hc, habove, pre, post, hcs, hbefore⟩ :=
    Tree.standsIn_of_mem_nestsOfAll he
  · have hmem : e.tree ∈ (parse source).tree.children := hcs ▸ List.mem_append_cons_self
    have hroot := hshaped.1.mem (hk ▸ Tree.mem_kinds hmem hnode)
    exact absurd hroot (by decide)
  · have hmem : e.tree ∈ c.tree.children := hcs ▸ List.mem_append_cons_self
    have hclause : c.tree.Shaped := Tree.shaped_of_mem_nestsOfAll hshaped.2 c hc
    refine ⟨c, hc, ?_, habove, pre, post, hcs, hbefore⟩
    cases htree : c.tree with
    | node k cs =>
      rw [htree] at hclause hmem
      exact Kind.eq_ifConfigClause_of_content
        (hclause.1.mem (hk ▸ Tree.mem_kinds hmem hnode))
    | token k x =>
      rw [htree] at hmem
      cases hmem

variable {c : Nest} (hc : c ∈ fileNests source) (hclause : c.tree.kind = .ifConfigClause)

include hc hclause

/-- The words from a branch on, and its children without trivia. -/
theorem parts_of_branch :
    ∃ directive others,
      BranchParts (.word directive :: others) (c.behind (Word.ofLexemes (Lexeme.lex source))) ∧
      (Word.ofLexemes (Lexeme.lex source)).drop c.before = directive ::
        (wordsOfAll others ++ c.behind (Word.ofLexemes (Lexeme.lex source))) ∧
      Tree.bareAll c.tree.children =
        .token directive.kind directive.text :: Sketch.treesOfAll others := by
  obtain ⟨parts, hlaid, htaken, hlaw⟩ := local_branchParts.of_mem_fileNests hc
  have hparts := hlaw hclause
  obtain ⟨directive, others, rfl, -⟩ := hlaw hclause
  refine ⟨directive, others, hparts, ?_, ?_⟩
  · rw [Extent.drop_before, ← htaken]
    rfl
  · rw [← Tree.children_bare, hlaid.bare]
    rfl

/-- A condition stands behind the directive of its branch and takes its words. -/
theorem condition_of_standsIn {e : Nest} (he : e ∈ fileNests source)
    (hk : e.tree.kind = .ifConfigCondition) (hstands : e.StandsIn c) :
    ∃ directive next, (Word.ofLexemes (Lexeme.lex source)).drop c.before = directive :: next ∧
      (directive.kind = .poundIf ∨ directive.kind = .poundElseif) ∧ e.before = c.before + 1 ∧
      e.taken (Word.ofLexemes (Lexeme.lex source)) = conditionWords next := by
  obtain ⟨directive, others, hparts, hdrop, hbare⟩ := parts_of_branch hc hclause
  obtain ⟨-, pre, post, hcs, hbefore⟩ := hstands
  obtain ⟨parts', hnode, htree, htaken⟩ := exists_parts_of_condition he hk
  have htrivia : ¬e.tree.isTrivia = true := by simp [Tree.isTrivia, hnode]
  rw [hcs, Tree.bareAll_append, Tree.bareAll_cons_of_not _ htrivia, htree] at hbare
  obtain ⟨d, others', heq, hcase⟩ := hparts
  obtain ⟨hword, rfl⟩ := List.cons_eq_cons.1 heq
  cases hword
  split at hcase
  · -- behind `#else` there is none
    have hmem := hbare ▸ List.mem_append_right (Tree.bareAll pre) List.mem_cons_self
    obtain hmem | hmem := List.mem_cons.1 hmem
    · cases hmem
    · exact absurd hmem (Tree.node_notMem_treesOfAll hcase _)
  · obtain ⟨hdirective, parts, items, rfl, hitems, hwords⟩ := hcase
    -- of the children that are no trivia, the condition is the second one
    obtain ⟨hpre, hsame, -⟩ : [Tree.token directive.kind directive.text] = Tree.bareAll pre ∧
        Tree.node .ifConfigCondition (Sketch.treesOfAll parts) = .node .ifConfigCondition
          (Sketch.treesOfAll parts') ∧ Sketch.treesOfAll items = Tree.bareAll post :=
      (List.append_cons_inj_of_notMem (by simp) (Tree.node_notMem_treesOfAll hitems _)).1
        hbare.symm
    have hone : Tree.wordCountOfAll pre = 1 := by
      rw [Tree.wordCountOfAll, ← Tree.tokensOfAll_bareAll, ← hpre]
      rfl
    rw [hone] at hbefore
    have hnext : (Word.ofLexemes (Lexeme.lex source)).drop e.before =
        wordsOfAll (.node .ifConfigCondition parts :: items) ++
          c.behind (Word.ofLexemes (Lexeme.lex source)) := by
      rw [hbefore, ← List.drop_drop, hdrop]
      rfl
    have hlength : (e.taken (Word.ofLexemes (Lexeme.lex source))).length =
        (wordsOfAll parts).length := by
      have htokens := congrArg (fun ts => (Tree.tokensOfAll ts).length) (Tree.node.inj hsame).2
      simp only [Sketch.tokens_treesOfAll, List.length_map] at htokens
      rw [← htaken, htokens]
    refine ⟨directive, _, hdrop, hdirective, hbefore, ?_⟩
    rw [Extent.drop_before, wordsOfAll_cons, List.append_assoc] at hnext
    rw [← hwords]
    exact (List.append_inj hnext hlength).1

/-- A branch with a directive other than `#else` has a condition. -/
theorem exists_condition_of_branch
    (helse : at? .poundElse ((Word.ofLexemes (Lexeme.lex source)).drop c.before) = false) :
    ∃ e ∈ fileNests source, e.tree.kind = .ifConfigCondition ∧ e.StandsIn c := by
  obtain ⟨directive, others, hparts, hdrop, hbare⟩ := parts_of_branch hc hclause
  obtain ⟨d, others', heq, hcase⟩ := hparts
  obtain ⟨hword, rfl⟩ := List.cons_eq_cons.1 heq
  cases hword
  have hdirective : directive.kind ≠ .poundElse := by
    rw [hdrop] at helse
    simpa [at?, kind?] using helse
  rw [if_neg hdirective] at hcase
  obtain ⟨-, parts, items, rfl, -⟩ := hcase
  have hmem : Tree.node .ifConfigCondition (Sketch.treesOfAll parts) ∈
      Tree.bareAll c.tree.children := by
    rw [hbare]
    exact List.mem_cons_of_mem _ List.mem_cons_self
  rw [Tree.bareAll_eq, List.mem_map] at hmem
  obtain ⟨t, ht, hbaret⟩ := hmem
  cases t with
  | node k cs =>
    obtain ⟨rfl, -⟩ := Tree.node.inj hbaret
    obtain ⟨e, he, hstands, htree⟩ := Tree.exists_standsIn hc (List.mem_filter.1 ht).1
    exact ⟨e, he, by rw [htree]; rfl, hstands⟩
  | token k x => cases hbaret

end

/-- The sites of a source file below its root are those of its nodes. -/
theorem mem_sites_parse_iff {source : String} {k : Kind} {n : Nat} (hk : k ≠ .sourceFile) :
    (k, n) ∈ (parse source).tree.sites 0 ↔
      ∃ e ∈ fileNests source, e.tree.kind = k ∧ e.before = n := by
  have hroot : (parse source).tree.sites 0 =
      (.sourceFile, 0) :: Tree.sitesOfAll 0 (parse source).tree.children := rfl
  rw [hroot, ← Tree.map_nestsOfAll [], List.mem_cons, or_iff_right (by simp [hk]), List.mem_map]
  simp [fileNests]

/-- The condition of every branch of every source file stands behind the directive and takes the
next word, whatever line it is on, with those behind it on its line. So it holds a word behind a
line break exactly if the directive is the last word of its line and not of the file. Every
directive but `#else` has a condition, and one is reported missing exactly if it has no words, which
it has only at the end of the file. -/
theorem conditions_taken (source : String) :
    let words := Word.ofLexemes (Lexeme.lex source)
    (∀ e ∈ fileNests source, e.tree.kind = .ifConfigCondition →
      (e.taken words).map Word.lexeme = e.tree.tokens.filter (!·.isTrivia) ∧
      ∃ c ∈ fileNests source, c.tree.kind = .ifConfigClause ∧ e.StandsIn c ∧
        ∃ directive next, words.drop c.before = directive :: next ∧
          (directive.kind = .poundIf ∨ directive.kind = .poundElseif) ∧
          e.before = c.before + 1 ∧ e.taken words = conditionWords next ∧
          ((∃ w ∈ e.taken words, w.onNewLine = true) ↔
            next.head?.any (·.onNewLine) = true)) ∧
    (∀ c ∈ fileNests source, c.tree.kind = .ifConfigClause →
      at? .poundElse (words.drop c.before) = false →
        ∃ e ∈ fileNests source, e.tree.kind = .ifConfigCondition ∧ e.StandsIn c) ∧
    (.noCondition ∈ (parse source).faults.map Prod.fst ↔
      ∃ e ∈ fileNests source, e.tree.kind = .ifConfigCondition ∧ e.taken words = []) := by
  intro words
  have htaken : ∀ e ∈ fileNests source, e.tree.kind = .ifConfigCondition →
      ∃ c ∈ fileNests source, c.tree.kind = .ifConfigClause ∧ e.StandsIn c ∧
        ∃ directive next, words.drop c.before = directive :: next ∧
          (directive.kind = .poundIf ∨ directive.kind = .poundElseif) ∧
          e.before = c.before + 1 ∧ e.taken words = conditionWords next := by
    intro e he hk
    obtain ⟨c, hc, hclause, hstands⟩ := exists_branch_of_mem_fileNests he hk
    exact ⟨c, hc, hclause, hstands, condition_of_standsIn hc hclause he hk hstands⟩
  refine ⟨fun e he hk => ?_, fun c hc hclause helse => exists_condition_of_branch hc hclause helse,
    ?_⟩
  · obtain ⟨c, hc, hclause, hstands, directive, next, hdrop, hdirective, hbefore, hwords⟩ :=
      htaken e he hk
    refine ⟨(local_branchParts.of_mem_fileNests he).map_lexeme_taken, c, hc, hclause, hstands,
      directive, next, hdrop, hdirective, hbefore, hwords, ?_⟩
    rw [hwords]
    exact exists_onNewLine_conditionWords
  · have hfile : .noCondition ∈ (parse source).faults.map Prod.fst ↔
        ∃ e ∈ fileNests source, e.tree.kind = .ifConfigCondition ∧ e.before = words.length := by
      rw [noCondition_mem_faults_iff, mem_sites_parse_iff (by decide)]
    rw [hfile]
    refine exists_congr fun e => and_congr_right fun he => and_congr_right fun hk => ?_
    obtain ⟨c, -, -, -, directive, next, hdrop, -, hbefore, hwords⟩ := htaken e he hk
    -- the directive is a word of the file, so that its condition starts at the end at most
    have hlength := congrArg List.length hdrop
    rw [List.length_drop, List.length_cons] at hlength
    rw [hwords, conditionWords_eq_nil_iff, ← List.length_eq_zero_iff]
    omega

/-- The condition of the second branch of a block, on the line of its directive. -/
theorem conditions_taken_elseif :
    let source := "#if A\nvar a = 1\n#elseif B && C\nvar b = 2\n#endif"
    let words := Word.ofLexemes (Lexeme.lex source)
    ∃ e ∈ fileNests source, e.tree.kind = .ifConfigCondition ∧
      (e.taken words).map (·.text) = ["B", "&&", "C"] ∧
      ∃ c ∈ fileNests source, c.tree.kind = .ifConfigClause ∧ e.StandsIn c ∧
        ∃ directive next, words.drop c.before = directive :: next ∧
          e.taken words = conditionWords next ∧ next.head?.any (·.onNewLine) = false := by
  intro source words
  have hany : ((fileNests source).any fun e => e.tree.kind == .ifConfigCondition &&
      ((e.taken words).map (·.text) == ["B", "&&", "C"] &&
        (e.taken words).all (!·.onNewLine))) = true := by decide +kernel
  obtain ⟨e, he, hall⟩ := List.any_eq_true.1 hany
  simp only [Bool.and_eq_true, beq_iff_eq, List.all_eq_true, Bool.not_eq_true'] at hall
  obtain ⟨hk, htexts, hline⟩ := hall
  obtain ⟨-, c, hc, hclause, hstands, directive, next, hdrop, -, -, hwords, hbreak⟩ :=
    (conditions_taken source).1 e he hk
  refine ⟨e, he, hk, htexts, c, hc, hclause, hstands, directive, next, hdrop, hwords, ?_⟩
  rw [← Bool.not_eq_true, ← hbreak]
  rintro ⟨w, hw, hnewline⟩
  rw [hline w hw] at hnewline
  cases hnewline

/-- Behind a directive with nothing else on its line, the class of the next line is the condition:
it is declared nowhere, and no condition is reported missing. -/
theorem condition_over_break :
    let source := "#if\nclass A \x7b\x7d\n#endif"
    let words := Word.ofLexemes (Lexeme.lex source)
    (∃ e ∈ fileNests source, e.tree.kind = .ifConfigCondition ∧
      (e.taken words).map (fun w => (w.text, w.onNewLine)) =
        [("class", true), ("A", false), ("\x7b", false), ("\x7d", false)]) ∧
      (parse source).faults = [] ∧
      (fileNests source).all (·.tree.kind != .classDecl) = true := by
  intro source words
  have hany : ((fileNests source).any fun e => e.tree.kind == .ifConfigCondition &&
      (e.taken words).map (fun w => (w.text, w.onNewLine)) ==
        [("class", true), ("A", false), ("\x7b", false), ("\x7d", false)]) = true := by
    decide +kernel
  obtain ⟨e, he, hall⟩ := List.any_eq_true.1 hany
  rw [Bool.and_eq_true, beq_iff_eq, beq_iff_eq] at hall
  exact ⟨⟨e, he, hall⟩, by decide +kernel, by decide +kernel⟩

end SwiftOutline

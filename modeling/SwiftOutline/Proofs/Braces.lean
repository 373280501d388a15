import SwiftOutline.Proofs.Appended
import SwiftOutline.Proofs.Nest

/-!
# SwiftOutline.Proofs.Braces

How braces recover: which node a closing brace belongs to, whatever stands before it.

* `ClosedBy` — some parts end in a closing brace, or nothing is left behind them;
* `NestedLaw.braces` — a block that a brace opens is closed; a statement that starts with a closing
  brace stands in conditional blocks only; a conditional block without its last directive ends at
  the brace of the block around, which it leaves, or at the end of the file;
* `local_braces` — what the rule for such a node makes is so, given only that the items inside end
  where they must;
* `braces_recover` — so it is with every node of every source file.
-/

namespace SwiftOutline

open Grammar Rule

/-! ## parts -/

/-- Some parts end in a closing brace, or nothing is left behind them. -/
def ClosedBy (ps : List Sketch) (rest : List Word) : Prop :=
  rest = [] ∨ ∃ front w, ps = front ++ [.word w] ∧ w.kind = .closeBrace

theorem ClosedBy.append {ps : List Sketch} {rest : List Word} (h : ClosedBy ps rest)
    (front : List Sketch) : ClosedBy (front ++ ps) rest := by
  obtain h | ⟨ps, w, rfl, hw⟩ := h
  · exact .inl h
  · exact .inr ⟨front ++ ps, w, by simp, hw⟩

/-- What the items of a scope leave is nothing or the brace that is expected. -/
theorem closedBy_expect {n : Nat} {ws : List Word} (hstop : atOther [.closeBrace] ws = false)
    (f : Fault) (h : ws.length < n) :
    ClosedBy (expect .closeBrace f ws h).sketches (expect .closeBrace f ws h).rest := by
  cases ws with
  | nil => exact .inl (rest_expect_not rfl f h)
  | cons w r =>
    have hw : w.kind = .closeBrace := by simpa [atOther, atWord, atAny, kind?] using hstop
    have hat : at? .closeBrace (w :: r) = true := by simp [at?, kind?, hw]
    have htake : expect .closeBrace f (w :: r) h = .take w r := by
      unfold expect ifAt
      rw [if_pos hat]
      rfl
    rw [htake]
    exact .inr ⟨[], w, rfl, hw⟩

/-- Conditional blocks and their branches. -/
def Kind.isConditional (k : Kind) : Bool := k == .ifConfigDecl || k == .ifConfigClause

/-- Only in conditional blocks outside all others does a closing brace end no scope. -/
theorem isConditional_of_stops {above : List Kind} (h : .closeBrace ∉ stops above) :
    ∀ k ∈ above, k.isConditional = true := by
  fun_induction stops above with
  | case1 => simp
  | case2 above ih =>
    rw [List.mem_append, not_or] at h
    simpa [Kind.isConditional] using ih h.2
  | case3 above _ ih =>
    rw [List.mem_append, not_or] at h
    simpa [Kind.isConditional] using ih h.2
  | case4 above => simp at h

namespace Grammar

variable {n : Nat} {ws : List Word}

/-- A word that is expected and stands there is taken. -/
theorem mem_expect {k : Kind} (hk : at? k ws = true) (f : Fault) (h : ws.length < n) :
    ∃ w, w.kind = k ∧ .word w ∈ (expect k f ws h).sketches := by
  cases ws with
  | nil => cases hk
  | cons w r =>
    refine ⟨w, by simpa [at?, kind?] using hk, ?_⟩
    unfold expect ifAt
    rw [if_pos hk]
    exact List.mem_singleton_self _

end Grammar

/-! ## the law -/

/-- Where a node with braces ends. -/
def NestedLaw.braces : NestedLaw := fun above k ps rest =>
  match k with
  | .memberBlock | .codeBlock | .accessorBlock =>
    at? .openBrace (Sketch.wordsOfAll ps) = true → ClosedBy ps rest
  | .statement =>
    at? .closeBrace (Sketch.wordsOfAll ps) = true → ∀ f ∈ above, f.kind.isConditional = true
  | .ifConfigDecl =>
    (∀ w, .word w ∈ ps → w.kind ≠ .poundEndif) →
      rest = [] ∨ ∃ w b, Frame.block? above = some b ∧ rest = w :: b.behind ∧ w.kind = .closeBrace
  | _ => True

theorem NestedLaw.braces_of_free {above : List Frame} {k : Kind} {ps : List Sketch}
    {rest : List Word} (hblock : k.isBlock = false) (hstatement : k ≠ .statement)
    (hconditional : k ≠ .ifConfigDecl) : NestedLaw.braces above k ps rest := by
  cases k <;> first | exact True.intro | contradiction

theorem NestedLaw.braces_of_mem_types {above : List Frame} {k : Kind} {ps : List Sketch}
    {rest : List Word} (hk : k ∈ Kind.types) : NestedLaw.braces above k ps rest := by
  have htypes : ∀ k ∈ Kind.types, k.isBlock = false ∧ k ≠ .statement ∧ k ≠ .ifConfigDecl := by
    decide
  obtain ⟨hblock, hstatement, hconditional⟩ := htypes k hk
  exact NestedLaw.braces_of_free hblock hstatement hconditional

namespace Grammar

variable {n : Nat} {ws : List Word}

/-- A word that a statement starts with is the next one. -/
theorem at?_of_statement {stop : List Kind} {h : ws.length < n} {ps : List Sketch} {k : Kind}
    (hps : (statement stop ws h).sketches = [.node .statement ps])
    (hk : at? k (Sketch.wordsOfAll ps) = true) : at? k ws = true := by
  have hcovers := (statement stop ws h).covers
  rw [hps, Sketch.wordsOfAll_cons, Sketch.wordsOfAll_nil, List.append_nil, Sketch.words_node]
    at hcovers
  cases hwords : Sketch.wordsOfAll ps with
  | nil => simp [hwords, at?, kind?] at hk
  | cons w r =>
    rw [hwords] at hcovers hk
    rw [← hcovers]
    exact hk

section

variable {inside : List Kind → Rule n} (hstop : Stopping inside)

include hstop

theorem closedBy_braced (f : Fault) (h : ws.length < n + 1) :
    ClosedBy (braced inside f ws h).sketches (braced inside f ws h).rest := by
  cases ws with
  | nil => exact .inl rfl
  | cons w r =>
    have hr := Nat.lt_of_succ_lt_succ h
    have hitems := hstop [.closeBrace] r hr
    exact ((closedBy_expect hitems f (Parsed.length_rest_lt _ hr)).append _).append [.word w]

/-- Accessors go on up to a closing brace. -/
theorem closedBy_accessorBlock {h : ws.length < n + 1} {ps : List Sketch}
    (hps : (accessorBlock inside ws h).sketches = [.node .accessorBlock ps]) :
    ClosedBy ps (accessorBlock inside ws h).rest := by
  obtain rfl := (Sketch.node.inj (List.cons.inj hps).1).2
  show ClosedBy (Rule.ifAt _ _ _ ws h).sketches (Rule.ifAt _ _ _ ws h).rest
  unfold Rule.ifAt
  split
  · have haccessors : atOther [.closeBrace] (accessors inside _
        ((bump ws h).length_rest_lt h)).rest = false :=
      (many_rest (I := fun _ => True) (fun _ _ _ _ => True.intro) _ _ True.intro).2
    exact ((closedBy_expect haccessors _ _).append _).append _
  · exact closedBy_braced hstop _ h

theorem closedBy_memberBlock {h : ws.length < n + 1} {ps : List Sketch}
    (hps : (memberBlock inside ws h).sketches = [.node .memberBlock ps])
    (hopen : at? .openBrace (Sketch.wordsOfAll ps) = true) :
    ClosedBy ps (memberBlock inside ws h).rest := by
  obtain rfl := (Sketch.node.inj (List.cons.inj hps).1).2
  revert hopen
  show at? _ (Sketch.wordsOfAll (Rule.ifAt _ _ _ ws h).sketches) = true →
    ClosedBy (Rule.ifAt _ _ _ ws h).sketches (Rule.ifAt _ _ _ ws h).rest
  unfold Rule.ifAt
  split
  · exact fun _ => closedBy_braced hstop _ h
  · intro hopen
    simp [fault, Parsed.mark, at?, kind?] at hopen

/-- The branches of a conditional block leave nothing, the last directive or a word that ends the
scope around the block, and no directive of another branch. -/
theorem rest_branches {stop : List Kind} (ha : Advances atBranch (branch inside stop))
    (h : ws.length < n + 1) (hif : at? .poundIf ws = true) :
    atOther (.poundEndif :: stop) (many atBranch (branch inside stop) ha ws h).rest = false ∧
      atBranch (many atBranch (branch inside stop) ha ws h).rest = false := by
  have hbranch : ∀ r hr, atOther (branchEnds ++ stop) (branch inside stop r hr).rest = false := by
    intro r hr
    show atOther (branchEnds ++ stop) (Rule.ifAt _ _ _ r hr).rest = false
    unfold Rule.ifAt
    cases r with
    | nil => split <;> rfl
    | cons w r =>
      split
      · exact hstop (branchEnds ++ stop) r _
      · exact hstop (branchEnds ++ stop) (condition r (Nat.lt_of_succ_lt_succ hr)).rest _
  let left (r : List Word) : Prop :=
    atOther (branchEnds ++ stop) r = false ∨ at? .poundIf r = true
  have hstep : ∀ r hr, atBranch r = true → left r → left (branch inside stop r hr).rest :=
    fun r hr _ _ => .inl (hbranch r hr)
  obtain ⟨hleft, hnone⟩ : left (many atBranch (branch inside stop) ha ws h).rest ∧ _ :=
    many_rest hstep ws h (.inr hif)
  refine ⟨?_, hnone⟩
  generalize (many atBranch (branch inside stop) ha ws h).rest = r at hleft hnone
  cases r with
  | nil => rfl
  | cons w r =>
    simp [left, atBranch, branchEnds, atOther, atWord, atAny, at?, kind?] at hleft hnone ⊢
    grind

/-- A conditional block without its last directive leaves nothing, or the brace that ends the scope
around it. -/
theorem rest_conditionalBlock {stop : List Kind} (hsubset : stop ⊆ .closeBrace :: branchEnds)
    (h : ws.length < n + 1) (hif : at? .poundIf ws = true)
    (hnone : ∀ w, .word w ∈ (conditionalBlock inside stop ws h).sketches → w.kind ≠ .poundEndif) :
    (conditionalBlock inside stop ws h).rest = [] ∨ .closeBrace ∈ stop ∧
      ∃ w r, (conditionalBlock inside stop ws h).rest = w :: r ∧ w.kind = .closeBrace := by
  have ha : Advances atBranch (branch inside stop) := (advances_branch inside stop).of_atWord
  let branches : Parsed ws := many atBranch (branch inside stop) ha ws h
  have hlast := branches.length_rest_lt h
  obtain ⟨hleft, hbranch⟩ := rest_branches hstop ha h hif
  change atOther _ branches.rest = false at hleft
  change atBranch branches.rest = false at hbranch
  by_cases hat : at? .poundEndif branches.rest = true
  · obtain ⟨w, hw, hmem⟩ := mem_expect hat .unclosedConditionalBlock hlast
    exact absurd hw (hnone w (List.mem_append_right _ hmem))
  · have hrest := rest_expect_not (Bool.not_eq_true _ ▸ hat) .unclosedConditionalBlock hlast
    change (conditionalBlock inside stop ws h).rest = branches.rest at hrest
    rw [hrest]
    cases hcons : branches.rest with
    | nil => exact .inl rfl
    | cons w r =>
      rw [hcons] at hleft hbranch hat
      simp [atBranch, branchEnds, atOther, atWord, atAny, at?, kind?] at hsubset hleft hbranch hat
      -- the branches ended at a word that is no directive, so at one of `stop`
      have hmem : w.kind ∈ stop := hleft hat
      have hbrace : w.kind = .closeBrace := by
        have := hsubset hmem
        simp at this
        grind
      exact .inr ⟨hbrace ▸ hmem, w, r, rfl, hbrace⟩

end

/-- The form of a conditional block is that of a word `#if`. -/
theorem form_of_ifConfigDecl {inside : List Kind → Rule n} {stop : List Kind}
    (h : (form inside stop ws).1 = .ifConfigDecl) :
    at? .poundIf ws = true ∧
      form inside stop ws = (.ifConfigDecl, conditionalBlock inside stop) := by
  revert h
  unfold form
  split
  case h_18 hk => exact fun _ => ⟨by simp [at?, hk], rfl⟩
  case h_19 => split <;> exact fun h => Kind.noConfusion h
  all_goals exact fun h => Kind.noConfusion h

/-- A conditional block without its last directive, where a brace that ends the scope around it is
known to be that of a block. -/
theorem braces_declaration {inside : List Kind → Rule n} (hstop : Stopping inside)
    {stop : List Kind} (hsubset : stop ⊆ .closeBrace :: branchEnds) (h : ws.length < n + 1)
    {above : List Frame} {ps : List Sketch}
    (hps : (declaration inside stop ws h).sketches = [.node .ifConfigDecl ps])
    (hleads : at? .closeBrace (declaration inside stop ws h).rest = true → .closeBrace ∈ stop →
      ∃ b, Frame.block? above = some b ∧ (declaration inside stop ws h).rest.tail = b.behind) :
    NestedLaw.braces above .ifConfigDecl ps (declaration inside stop ws h).rest := by
  intro hnone
  let lead : Parsed ws := attributesAndModifiers ws h
  have hlead := lead.length_rest_lt h
  obtain ⟨hkind, rfl⟩ := Sketch.node.inj (List.cons.inj hps).1
  obtain ⟨hif, hform⟩ := @form_of_ifConfigDecl n lead.rest _ _ hkind
  -- attributes and modifiers before the directive take nothing of the branches
  have hrest : (declaration inside stop ws h).rest =
      (conditionalBlock inside stop lead.rest hlead).rest := by
    show ((form inside stop lead.rest).2 lead.rest hlead).rest = _
    rw [hform]
  have hblock : ∀ w, .word w ∈ (conditionalBlock inside stop lead.rest hlead).sketches →
      w.kind ≠ .poundEndif := by
    intro w hw
    refine hnone w (List.mem_append_right _ ?_)
    show .word w ∈ ((form inside stop lead.rest).2 lead.rest hlead).sketches
    rwa [hform]
  rw [hrest] at hleads ⊢
  obtain hnil | ⟨hmem, w, r, hcons, hw⟩ := rest_conditionalBlock hstop hsubset hlead hif hblock
  · exact .inl hnil
  · rw [hcons] at hleads ⊢
    obtain ⟨b, hb, hbehind⟩ := hleads (by simp [at?, kind?, hw]) hmem
    exact .inr ⟨w, b, hb, congrArg (w :: ·) hbehind, hw⟩

theorem local_braces : NestedLaw.braces.Local where
  free hk above ps rest := by
    have hfree : ∀ k : Kind, k.isNoted = false →
        k.isBlock = false ∧ k ≠ .statement ∧ k ≠ .ifConfigDecl := by
      intro k
      cases k <;> decide
    obtain ⟨hblock, hstatement, hconditional⟩ := hfree _ hk
    exact NestedLaw.braces_of_free hblock hstatement hconditional
  types hk _ _ := NestedLaw.braces_of_mem_types hk
  made {above _ _ _} hmade := by
    cases hmade with
    | statement h _ hother _ hps =>
      intro hbrace f hf
      have hstops : .closeBrace ∉ stops (above.map (·.kind)) := by
        intro hmem
        rw [atOther_of_closeBrace (at?_of_statement hps hbrace) hmem] at hother
        cases hother
      exact isConditional_of_stops hstops _ (List.mem_map_of_mem hf)
    | memberBlock hstop _ hps => exact closedBy_memberBlock hstop hps
    | codeBlock hstop h hps =>
      intro _
      obtain rfl := (Sketch.node.inj (List.cons.inj hps).1).2
      exact closedBy_braced hstop _ h
    | accessorBlock hstop _ hps => exact fun _ => closedBy_accessorBlock hstop hps
    | conditional hstop h _ hps hleads =>
      exact braces_declaration hstop (stops_subset _) h hps hleads
    | oneAttribute | expression | function | accessor | branch => exact True.intro

end Grammar

/-! ## source files -/

/-- Whether the first word of a tree is of a kind. -/
def Tree.startsWith (k : Kind) (t : Tree) : Bool := t.allWords.head?.any (·.kind == k)

namespace Sketch.LaidAs

variable {k : Kind} {parts : List Sketch} {t : Tree}

theorem startsWith (h : LaidAs k parts t) (j : Kind) :
    t.startsWith j = at? j (wordsOfAll parts) := by
  rw [Tree.startsWith, h.allWords, at?, kind?]
  cases wordsOfAll parts with
  | nil => simp
  | cons w r => simp [Word.lexeme]

/-- A word among the parts of a node is a child of it. -/
theorem exists_child (h : LaidAs k parts t) {w : Word} (hw : .word w ∈ parts) :
    ∃ c ∈ t.children, c.kind = w.kind := by
  have hbare := h.bare
  obtain ⟨size, ps, rest, rfl, -⟩ := h
  have hmem : Tree.token w.kind w.text ∈ Sketch.treesOfAll parts := by
    obtain ⟨front, back, rfl⟩ := List.append_of_mem hw
    simp [Sketch.treesOfAll_append, Sketch.treesOfAll, Sketch.trees]
  rw [← (Tree.node.inj hbare).2, Tree.bareAll_eq, List.mem_map] at hmem
  obtain ⟨c, hc, htoken⟩ := hmem
  refine ⟨c, (List.mem_filter.1 hc).1, ?_⟩
  cases c with
  | node j cs => cases htoken
  | token j x => exact congrArg Tree.kind htoken

end Sketch.LaidAs

theorem Frame.block?_map (words : List Word) (above : List Extent) :
    block? (above.map (Extent.frame words)) =
      (above.find? (·.tree.kind.isBlock)).map (Extent.frame words) := by
  rw [block?, List.find?_map]
  rfl

/-- Every block that a brace opens has a brace at its end, or no word is left in the file behind it.
A statement that starts with a closing brace stands in nothing but conditional blocks. A conditional
block without its last directive goes on to the brace of the innermost block around it, which that
block has behind it, or to the end of the file. -/
theorem braces_recover (source : String) :
    let words := Word.ofLexemes (Lexeme.lex source)
    ∀ e ∈ fileNests source,
      (e.tree.kind.isBlock = true → e.tree.startsWith .openBrace = true →
        (∃ text, e.tree.children.getLast? = some (.token .closeBrace text)) ∨
          e.behind words = []) ∧
      (e.tree.kind = .statement → e.tree.startsWith .closeBrace = true →
        ∀ a ∈ e.above, a.tree.kind.isConditional = true) ∧
      (e.tree.kind = .ifConfigDecl → (∀ c ∈ e.tree.children, c.kind ≠ .poundEndif) →
        e.behind words = [] ∨ ∃ brace b, e.above.find? (·.tree.kind.isBlock) = some b ∧
          brace.kind = .closeBrace ∧ e.behind words = brace :: b.behind words) := by
  intro words e he
  obtain ⟨parts, hlaid, -, hlaw⟩ := local_braces.of_mem_fileNests he
  generalize hk : e.tree.kind = k at hlaid hlaw
  refine ⟨fun hblock hopen => ?_, ?_, ?_⟩
  · rw [hlaid.startsWith] at hopen
    have hclosed : ClosedBy parts (e.behind words) := by
      cases k <;> first | exact hlaw hopen | cases hblock
    obtain hnil | ⟨front, w, rfl, hw⟩ := hclosed
    · exact .inr hnil
    · exact .inl ⟨w.text, hw ▸ hlaid.getLast?⟩
  · rintro rfl hbrace a ha
    rw [hlaid.startsWith] at hbrace
    exact hlaw hbrace _ (List.mem_map_of_mem ha)
  · rintro rfl hnone
    have hwords : ∀ w, .word w ∈ parts → w.kind ≠ .poundEndif := by
      intro w hw
      obtain ⟨c, hc, hkind⟩ := hlaid.exists_child hw
      exact hkind ▸ hnone c hc
    obtain hnil | ⟨w, f, hf, hbehind, hw⟩ := hlaw hwords
    · exact .inl hnil
    · rw [Frame.block?_map] at hf
      obtain ⟨b, hb, rfl⟩ := Option.map_eq_some_iff.1 hf
      exact .inr ⟨w, b, hb, hw, hbehind⟩

/-- A conditional block that is not ended leaves the brace of the class around it to the class. -/
theorem braces_recover_unended :
    let source := "class A \x7b\n#if X\nvar a = 1\n\x7d\nclass B \x7b\x7d\n"
    let words := Word.ofLexemes (Lexeme.lex source)
    ∃ e ∈ fileNests source, e.tree.kind = .ifConfigDecl ∧
      (∀ c ∈ e.tree.children, c.kind ≠ .poundEndif) ∧ ∃ brace b,
        e.above.find? (·.tree.kind.isBlock) = some b ∧ brace.kind = .closeBrace ∧
          e.behind words = brace :: b.behind words := by
  intro source words
  have hany : ((fileNests source).any fun e => e.tree.kind == .ifConfigDecl &&
      (e.tree.children.all (·.kind != .poundEndif) && e.behind words != [])) = true := by
    decide +kernel
  obtain ⟨e, he, hall⟩ := List.any_eq_true.1 hany
  simp only [Bool.and_eq_true, beq_iff_eq, List.all_eq_true, bne_iff_ne] at hall
  obtain ⟨hk, hnone, hbehind⟩ := hall
  obtain ⟨-, -, hconditional⟩ := braces_recover source e he
  exact ⟨e, he, hk, hnone, (hconditional hk hnone).resolve_left hbehind⟩

end SwiftOutline

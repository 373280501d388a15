import SwiftOutline.Proofs.Sites

/-!
# SwiftOutline.Proofs.Announced

Whether what is announced as a declaration is read as one.

* `nextItem` — the item that stands next in a scope;
* `Parsed.Declares` — it is a declaration whose attributes and modifiers end at given words, and
  it takes the first of those;
* `declares_iff` — an announced item declares the keyword that the look ahead found exactly if
  the rules for attributes and modifiers stop at that keyword;
* `announced_iff` — what this means for a source file: it has an `error` node, and says so,
  exactly where they stop at none.

The look ahead takes attributes and modifiers in any order, the rules do not: an attribute behind
a modifier is announced as a declaration and read as none.
-/

namespace SwiftOutline

/-- Whether a sketch is a node of attributes or modifiers. -/
def Sketch.isLead : Sketch → Bool
  | .node k _ => Kind.lead.contains k
  | _ => false

namespace Grammar

open Rule

theorem length_lt_succ (ws : List Word) : ws.length < ws.length + 1 := Nat.lt_succ_self _

/-- The item that stands next in a scope. -/
def nextItem (stop : List Kind) (ws : List Word) : Parsed ws :=
  item (fun stop r (_ : r.length < ws.length) => itemsFrom stop r) stop ws (length_lt_succ ws)

/-- A scope is its next item and the scope after that. -/
theorem itemsFrom_eq (stop : List Kind) (ws : List Word) :
    itemsFrom stop ws =
      if atOther stop ws then
        (nextItem stop ws).append (itemsFrom stop (nextItem stop ws).rest)
      else .done ws := by
  rw [itemsFrom]
  rfl

/-- A declaration is read that has its attributes and modifiers before some words and takes the
first of those. -/
def Parsed.Declares {ws : List Word} (target : List Word) (p : Parsed ws) : Prop :=
  ∃ parts, p.sketches = [.node (declared target) parts] ∧
    (declared target).isDeclaration = true ∧
    Sketch.wordsOfAll (parts.takeWhile Sketch.isLead) ++ target = ws ∧
    p.rest.length < target.length

variable {n : Nat} {inside : List Kind → Rule n}

/-! ## announced items -/

theorem isLead_of_mem_attributesAndModifiers {ws : List Word} {h : ws.length < n} :
    ∀ s ∈ (attributesAndModifiers ws h).sketches, s.isLead = true := by
  have hnode : ∀ (k : Kind) (t : List Word → Bool) (p : Rule n) (ws : List Word) (h), 
      k ∈ Kind.lead → ∀ s ∈ (optional t (node k p) ws h).sketches, s.isLead = true := by
    intro k t p ws h hk s hs
    unfold Rule.optional Rule.ifAt at hs
    split at hs
    · obtain rfl := List.mem_singleton.1 hs
      exact List.contains_iff_mem.2 hk
    · cases hs
  intro s hs
  obtain hs | hs := List.mem_append.1 hs
  · exact hnode _ _ _ _ _ (by decide) s hs
  · exact hnode _ _ _ _ _ (by decide) s hs

theorem isLead_eq_false_of_mem_kinds {ss : List Sketch}
    (h : ∀ k ∈ Sketch.kinds ss, k ∉ Kind.lead) : ∀ s ∈ ss, s.isLead = false := by
  induction ss with
  | nil => simp
  | cons s ss ih =>
    cases s with
    | node k ps =>
      have hk := h k List.mem_cons_self
      have hss := ih fun j hj => h j (List.mem_cons_of_mem _ hj)
      simpa [Sketch.isLead, hk] using hss
    | word w => simpa [Sketch.isLead] using ih h
    | fault f => simpa [Sketch.isLead] using ih h
    | gap => simpa [Sketch.isLead] using ih h

/-- What a keyword makes holds no attributes and modifiers of its own. -/
theorem isLead_eq_false_of_mem_form (hin : ∀ stop, Fits (.any Kind.items) (inside stop))
    (stop : List Kind) {ws : List Word} (h : ws.length < n + 1) :
    ∀ s ∈ ((form inside stop ws).2 ws h).sketches, s.isLead = false := by
  apply isLead_eq_false_of_mem_kinds
  intro k hk
  by_cases hdecl : declared ws = .error
  · rw [form_of_declared_eq_error stop hdecl] at hk
    have hbump := (fits_bump (n := n + 1)).optional atWord
    exact absurd ((hbump ws h).admits.mem hk) (by simp [Content.empty])
  · obtain ⟨c, hform, -, hlead⟩ := fits_form hin stop hdecl
    have hmem := (hform ws h).admits.mem hk
    simpa using List.all_eq_true.1 hlead k hmem

theorem atWord_of_atDeclarationWord {ws : List Word} (h : atDeclarationWord ws = true) :
    atWord ws = true := by
  cases ws with
  | nil => cases h
  | cons w r => rfl

/-- What is announced as a declaration is no semicolon. -/
theorem at?_semicolon_of_atDeclaration {ws : List Word} (h : atDeclaration ws = true) :
    at? .semicolon ws = false := by
  cases ws with
  | nil => rfl
  | cons w r =>
    by_contra hsemi
    have hw : w.kind = .semicolon := by simpa [at?, kind?] using hsemi
    have hskip : skipAttributesAndModifiers (w :: r) = w :: r :=
      skipAttributesAndModifiers_of_not_at (by simp [at?, kind?, hw]) (by rw [atModifier, hw])
    rw [atDeclaration, hskip] at h
    simp [atDeclarationWord, atAny, atName, kind?, hw, declarationWords] at h

theorem nextItem_eq (stop : List Kind) {ws : List Word} (h : atDeclaration ws = true) :
    nextItem stop ws = declaration (fun stop r (_ : r.length < ws.length) => itemsFrom stop r)
      stop ws (length_lt_succ ws) := by
  unfold nextItem item Rule.ifAt
  rw [if_neg (by simp [at?_semicolon_of_atDeclaration h]), if_pos h]

/-- The node of an announced item is of the kind that the word behind attributes and then
modifiers makes, and those stand in front of it. -/
theorem sketches_nextItem (stop : List Kind) {ws : List Word} (h : atDeclaration ws = true) :
    ∃ lead parts, (nextItem stop ws).sketches = [.node (declared (afterLead ws)) (lead ++ parts)] ∧
      (lead ++ parts).takeWhile Sketch.isLead = lead ∧
      Sketch.wordsOfAll lead ++ afterLead ws = ws ∧
      (atDeclarationWord (afterLead ws) = true →
        (nextItem stop ws).rest.length < (afterLead ws).length) := by
  let inside : List Kind → Rule ws.length := fun stop r _ => itemsFrom stop r
  let lead := attributesAndModifiers ws (length_lt_succ ws)
  have hrest : lead.rest = afterLead ws := rest_attributesAndModifiers ws _
  let parts := (form inside stop lead.rest).2 lead.rest
    (lead.length_rest_lt (length_lt_succ ws))
  have hlead : ∀ s ∈ lead.sketches, s.isLead = true := isLead_of_mem_attributesAndModifiers
  have hparts : ∀ s ∈ parts.sketches, s.isLead = false :=
    isLead_eq_false_of_mem_form (fun stop r _ => fits_itemsFrom stop r) stop _
  -- the form starts with its keyword, so the lead ends where it does
  have hnil : parts.sketches.takeWhile Sketch.isLead = [] := by
    cases hp : parts.sketches with
    | nil => rfl
    | cons s ss =>
      have hs := hparts s (by rw [hp]; exact List.mem_cons_self)
      rw [List.takeWhile_cons_of_neg (by simp [hs])]
  refine ⟨lead.sketches, parts.sketches, ?_, ?_, ?_, ?_⟩
  · rw [nextItem_eq stop h, ← hrest, ← fst_form inside stop]
    rfl
  · rw [List.takeWhile_append_of_pos hlead, hnil, List.append_nil]
  · rw [← hrest]
    exact lead.covers
  · intro hword
    rw [nextItem_eq stop h, ← hrest]
    rw [← hrest] at hword
    exact length_rest_form_lt inside stop _ (atWord_of_atDeclarationWord hword)

/-- An announced item declares the keyword that the look ahead found exactly if the rules for
attributes and modifiers stop at that keyword. -/
theorem declares_iff (stop : List Kind) {ws : List Word} (h : atDeclaration ws = true) :
    (nextItem stop ws).Declares (skipAttributesAndModifiers ws) ↔
      afterLead ws = skipAttributesAndModifiers ws := by
  obtain ⟨lead, parts, hsketches, hlead, hwords, hlt⟩ := sketches_nextItem stop h
  constructor
  · rintro ⟨parts', hsketches', -, hwords', -⟩
    obtain ⟨-, rfl⟩ : _ ∧ lead ++ parts = parts' := by
      rw [hsketches] at hsketches'
      simpa using hsketches'
    rw [hlead] at hwords'
    exact List.append_cancel_left (hwords.trans hwords'.symm)
  · intro heq
    have hword : atDeclarationWord (afterLead ws) = true := by
      rw [heq]
      exact h
    rw [← heq]
    refine ⟨lead ++ parts, hsketches, isDeclaration_declared hword, ?_, hlt hword⟩
    rw [hlead]
    exact hwords

end Grammar

/-! ## source files -/

open Grammar

/-- What is announced at the start of a source file is its first item. -/
theorem first_mem_sites {source : String}
    (h : atDeclaration (Word.ofLexemes (Lexeme.lex source)) = true) :
    (declared (afterLead (Word.ofLexemes (Lexeme.lex source))), 0) ∈
      (parse source).tree.sites 0 := by
  obtain ⟨lead, parts, hsketches, -⟩ := sketches_nextItem [] h
  have hother : atOther [] (Word.ofLexemes (Lexeme.lex source)) = true := by
    cases hw : Word.ofLexemes (Lexeme.lex source) with
    | nil =>
      rw [hw, atDeclaration, skipAttributesAndModifiers] at h
      cases h
    | cons w r => simp [atOther, atWord, atAny, kind?]
  have hfile : fileSketch source =
      .node (declared (afterLead (Word.ofLexemes (Lexeme.lex source)))) (lead ++ parts) ::
        (itemsFrom [] (nextItem [] (Word.ofLexemes (Lexeme.lex source))).rest).sketches := by
    rw [fileSketch, fileItems, itemsFrom_eq, if_pos hother]
    exact congrArg (· ++ _) hsketches
  rw [sites_parse, hfile]
  exact List.mem_cons_of_mem _ List.mem_cons_self

/-- What is announced as a declaration, at any words, is an item of the kind that the word behind
attributes and then modifiers makes. It declares the keyword that the look ahead found exactly if
attributes and then modifiers are all that stands before that keyword; where arguments of
attributes end with a parenthesis, exactly if no attribute stands behind a modifier.

In a source file the nodes of declarations and the `error` nodes are those items. So the file has
an `error` node exactly where an item is announced and no keyword stands behind its attributes
and then modifiers, and then it reports that a declaration is missing. -/
theorem announced_iff (source : String) :
    let words := Word.ofLexemes (Lexeme.lex source)
    let sites := (parse source).tree.sites 0
    (∀ stop ws, atDeclaration ws = true →
      (∃ parts, (nextItem stop ws).sketches = [.node (declared (afterLead ws)) parts]) ∧
        ((nextItem stop ws).Declares (skipAttributesAndModifiers ws) ↔
          afterLead ws = skipAttributesAndModifiers ws) ∧
        (attributesClose ws = true →
          ((nextItem stop ws).Declares (skipAttributesAndModifiers ws) ↔
            at? .atSign (afterLead ws) = false))) ∧
      (∀ site ∈ sites, site.1.isAnnounced = true →
        atDeclaration (words.drop site.2) = true ∧
          declared (afterLead (words.drop site.2)) = site.1) ∧
      (.error ∈ sites.map Prod.fst ↔ .noDeclaration ∈ (parse source).faults.map Prod.fst) := by
  refine ⟨?_, origin_of_mem_sites_parse source, (noDeclaration_mem_faults_iff source).symm⟩
  intro stop ws h
  obtain ⟨lead, parts, hsketches, -⟩ := sketches_nextItem stop h
  refine ⟨⟨_, hsketches⟩, declares_iff stop h, ?_⟩
  intro hclose
  rw [declares_iff stop h, afterLead_eq_iff hclose]

/-- An attribute behind a modifier is announced with its class and read as none. -/
theorem attribute_behind_modifier :
    let words := Word.ofLexemes (Lexeme.lex "public @objc class A \x7b\x7d")
    atDeclaration words = true ∧
      ¬(nextItem [] words).Declares (skipAttributesAndModifiers words) ∧
      .error ∈ ((parse "public @objc class A \x7b\x7d").tree.sites 0).map Prod.fst ∧
      .noDeclaration ∈ (parse "public @objc class A \x7b\x7d").faults.map Prod.fst := by
  let words : List Word :=
    [⟨.kwPublic, "public", false, false⟩, ⟨.atSign, "@", false, false⟩,
      ⟨.identifier, "objc", true, false⟩, ⟨.kwClass, "class", false, false⟩,
      ⟨.identifier, "A", false, false⟩, ⟨.openBrace, "\x7b", false, false⟩,
      ⟨.closeBrace, "\x7d", true, false⟩]
  have hwords : Word.ofLexemes (Lexeme.lex "public @objc class A \x7b\x7d") = words := by
    decide +kernel
  have hat : atDeclaration words = true := by decide +kernel
  have hskip : skipAttributesAndModifiers words = words.drop 3 := by decide +kernel
  have hlead : afterLead words = words.drop 1 := by decide +kernel
  have hsite := first_mem_sites (hwords ▸ hat)
  rw [hwords, hlead] at hsite
  have herror : .error ∈ ((parse "public @objc class A \x7b\x7d").tree.sites 0).map Prod.fst :=
    List.mem_map_of_mem hsite
  refine ⟨hwords ▸ hat, ?_, herror, (noDeclaration_mem_faults_iff _).2 herror⟩
  rw [hwords, declares_iff [] hat, hskip, hlead]
  decide

end SwiftOutline

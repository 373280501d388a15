import SwiftOutline.Proofs.Announced
import SwiftOutline.Proofs.Bare
import SwiftOutline.Proofs.Isolated
import SwiftOutline.Proofs.Nest

/-!
# SwiftOutline.Proofs.AccessorName

Whether what is announced as an accessor is read as one.

* `skipAttributesAndModifiers_eq_skipAccessorModifiers` — before the name of an accessor, both look
  aheads pass the same;
* `Sketch.Led` — parts that start with attributes and modifiers and the word behind these;
* `led_oneAccessor`, `local_ledAccessor` — so do those of every accessor, and of every accessor of
  a source file;
* `Parsed.Names` — an accessor has its attributes and modifiers before given words and is named by
  the first of those;
* `keyword?_of_led` — the word behind attributes and modifiers is the keyword of a node;
* `accessors_named_iff` — what this means for a source file: an accessor is known as one exactly if
  the rules for attributes and modifiers stop at a name.

As with declarations, the look ahead takes attributes and modifiers in any order and the rules do
not: an attribute behind a modifier is taken for the name of the accessor.
-/

namespace SwiftOutline

open Grammar Rule Sketch

/-! ## looking ahead -/

namespace Grammar

theorem atName_cons_iff {names : List String} {w : Word} {r : List Word} :
    atName names (w :: r) = true ↔ w.kind = .identifier ∧ w.text ∈ names := by
  simp [atName]

theorem atName_of_kind {names : List String} {w : Word} (h : w.kind ≠ .identifier) (r : List Word) :
    atName names (w :: r) = false := by
  simp [atName, h]

/-- What is no attribute and no name is not passed. -/
theorem skipAccessorModifiers_of_kind {w : Word} (hat : w.kind ≠ .atSign)
    (hname : w.kind ≠ .identifier) (r : List Word) : skipAccessorModifiers (w :: r) = w :: r := by
  rw [skipAccessorModifiers, if_neg hat, atName_of_kind hname, if_neg Bool.false_ne_true]

/-- The name of an accessor is no modifier. -/
theorem atModifier_of_atName {ws : List Word} (h : atName accessorNames ws = true) :
    atModifier ws = false := by
  cases ws with
  | nil => cases h
  | cons w r =>
    obtain ⟨hk, hname⟩ := atName_cons_iff.1 h
    have hnone : ∀ name ∈ accessorNames, modifierNames.contains name = false := by decide
    rw [atModifier, hk]
    exact hnone _ hname

/-- A modifier of an accessor is a modifier of declarations. -/
theorem atModifier_of_atModifierName {ws : List Word}
    (h : atName accessorModifierNames ws = true) : atModifier ws = true := by
  cases ws with
  | nil => cases h
  | cons w r =>
    obtain ⟨hk, hname⟩ := atName_cons_iff.1 h
    have hall : ∀ name ∈ accessorModifierNames, modifierNames.contains name = true := by decide
    rw [atModifier, hk]
    exact hall _ hname

/-- No dot stands behind the name of an attribute of an accessor. -/
theorem skipDottedNames_of_atName {ws : List Word}
    (h : atName accessorNames (skipAccessorModifiers (skipArguments ws)) = true) :
    skipDottedNames ws = ws := by
  fun_cases skipDottedNames ws with
  | case1 d i r hdi =>
    have hparen : atJoinedParen (d :: i :: r) = false := by simp [atJoinedParen, at?, kind?, hdi.1]
    rw [skipArguments, hparen, if_neg Bool.false_ne_true,
      skipAccessorModifiers_of_kind (by simp [hdi.1]) (by simp [hdi.1]),
      atName_of_kind (by simp [hdi.1])] at h
    cases h
  | case2 d i r _ => rfl
  | case3 ws _ => rfl

/-- No parenthesis stands behind a modifier of an accessor. -/
theorem skipArguments_of_atName {ws : List Word}
    (h : atName accessorNames (skipAccessorModifiers ws) = true) : skipArguments ws = ws := by
  cases ws with
  | nil => rfl
  | cons w r =>
    have hparen : w.kind ≠ .openParen := by
      intro hw
      rw [skipAccessorModifiers_of_kind (by simp [hw]) (by simp [hw]),
        atName_of_kind (by simp [hw])] at h
      cases h
    simp [skipArguments, atJoinedParen, at?, kind?, hparen]

/-- Before the name of an accessor, the look ahead for accessors passes what that for declarations
does. -/
theorem skipAttributesAndModifiers_eq_skipAccessorModifiers {ws : List Word}
    (h : atName accessorNames (skipAccessorModifiers ws) = true) :
    skipAttributesAndModifiers ws = skipAccessorModifiers ws := by
  fun_induction skipAccessorModifiers ws with
  | case1 => cases h
  | case2 w r hw ih => rw [skipAttributesAndModifiers, if_pos hw, skipDottedNames_of_atName h, ih h]
  | case3 w r hw hmodifier ih =>
    rw [skipAttributesAndModifiers, if_neg hw, atModifier_of_atModifierName hmodifier, if_pos rfl,
      skipArguments_of_atName h, ih h]
  | case4 w r hw _ =>
    exact skipAttributesAndModifiers_of_not_at (by simpa [at?, kind?] using hw)
      (atModifier_of_atName h)

/-- What is announced as an accessor has the name of one behind attributes and modifiers. -/
theorem atName_of_atAccessor {ws : List Word} (h : atAccessor ws = true) :
    atName accessorNames (skipAccessorModifiers ws) = true := by
  rw [atAccessor] at h
  split at h
  · cases h
  · next hskip =>
    rw [hskip]
    exact (Bool.and_eq_true_iff.1 h).1

/-- Where the arguments of attributes end with a parenthesis, the rules leave the name that the
look ahead found exactly if no attribute stands behind the modifiers. -/
theorem afterLead_eq_skipAccessorModifiers_iff {ws : List Word} (h : atAccessor ws = true)
    (hclose : attributesClose ws = true) :
    afterLead ws = skipAccessorModifiers ws ↔ at? .atSign (afterLead ws) = false := by
  rw [← skipAttributesAndModifiers_eq_skipAccessorModifiers (atName_of_atAccessor h),
    afterLead_eq_iff hclose]

/-- There, what the rules leave starts with the name of an accessor exactly in this case. -/
theorem atName_afterLead_iff {ws : List Word} (h : atAccessor ws = true)
    (hclose : attributesClose ws = true) :
    atName accessorNames (afterLead ws) = true ↔ at? .atSign (afterLead ws) = false := by
  constructor
  · intro hname
    cases hafter : afterLead ws with
    | nil => rfl
    | cons w r =>
      rw [hafter] at hname
      simp [at?, kind?, (atName_cons_iff.1 hname).1]
  · intro hat
    rw [(afterLead_eq_skipAccessorModifiers_iff h hclose).2 hat]
    exact atName_of_atAccessor h

end Grammar

/-! ## parts -/

namespace Sketch

/-- What taking the next word leaves in a sketch. -/
def ofNext : List Word → Sketch
  | [] => .gap
  | w :: _ => .word w

/-- Some parts are the attributes and modifiers that some words start with, the word behind these,
and more. -/
def Led (parts : List Sketch) (ws : List Word) : Prop :=
  ∃ lead more, parts = lead ++ ofNext (afterLead ws) :: more ∧ (∀ s ∈ lead, s.isLead = true) ∧
    wordsOfAll lead ++ afterLead ws = ws

end Sketch

namespace Grammar

variable {n : Nat}

theorem sketches_bump (ws : List Word) (h : ws.length < n) :
    (bump ws h).sketches = [ofNext ws] := by
  cases ws <;> rfl

/-- The parts of an accessor start with attributes, modifiers and the word behind these. -/
theorem led_oneAccessor (inside : List Kind → Rule n) {ws : List Word} (h : ws.length < n + 1)
    {ps : List Sketch} (hps : (oneAccessor inside ws h).sketches = [.node .accessorDecl ps]) :
    Led ps ws := by
  let lead : Parsed ws := attributesAndModifiers ws h
  have hrest : lead.rest = afterLead ws := rest_attributesAndModifiers ws h
  have hlead := lead.length_rest_lt h
  let name : Parsed lead.rest := bump lead.rest hlead
  let others : Parsed name.rest := (accessorParameter >> effectSpecifiers >> body inside :
    Rule (n + 1)) _ (name.length_rest_lt hlead)
  have hparts : ps = lead.sketches ++ name.sketches ++ others.sketches :=
    (Sketch.node.inj (List.cons.inj hps).1).2.symm
  refine ⟨lead.sketches, others.sketches, ?_, isLead_of_mem_attributesAndModifiers, ?_⟩
  · rw [hparts, ← hrest, sketches_bump, List.append_assoc]
    rfl
  · rw [← hrest]
    exact lead.covers

/-- An accessor is read that has its attributes and modifiers before some words and is named by the
first of those. -/
def Parsed.Names {ws : List Word} (target : List Word) (p : Parsed ws) : Prop :=
  ∃ lead name behind more, p.sketches = [.node .accessorDecl (lead ++ .word name :: more)] ∧
    (∀ s ∈ lead, s.isLead = true) ∧ wordsOfAll lead ++ target = ws ∧ target = name :: behind ∧
    name.text ∈ accessorNames

/-- What comes before the first part that is no attribute and no modifier is the same in all
accounts of some parts. -/
theorem lead_unique {lead lead' more more' : List Sketch} {s s' : Sketch}
    (h : lead ++ s :: more = lead' ++ s' :: more') (hlead : ∀ s ∈ lead, s.isLead = true)
    (hlead' : ∀ s ∈ lead', s.isLead = true) (hs : s.isLead = false) (hs' : s'.isLead = false) :
    lead = lead' := by
  have htake := congrArg (List.takeWhile Sketch.isLead) h
  rwa [List.takeWhile_append_of_pos hlead, List.takeWhile_append_of_pos hlead',
    List.takeWhile_cons_of_neg (by simp [hs]), List.takeWhile_cons_of_neg (by simp [hs']),
    List.append_nil, List.append_nil] at htake

theorem isLead_ofNext (ws : List Word) : (ofNext ws).isLead = false := by
  cases ws <;> rfl

/-- An announced accessor is named by the word that the look ahead found exactly if the rules for
attributes and modifiers stop at that word. -/
theorem names_iff (inside : List Kind → Rule n) {ws : List Word} (h : ws.length < n + 1)
    (hat : atAccessor ws = true) :
    (oneAccessor inside ws h).Names (skipAccessorModifiers ws) ↔
      afterLead ws = skipAccessorModifiers ws := by
  obtain ⟨lead, more, hparts, hlead, hwords⟩ := led_oneAccessor inside h rfl
  constructor
  · rintro ⟨lead', name, behind, more', hsketches, hlead', hwords', -, -⟩
    obtain ⟨-, hsame⟩ := Sketch.node.inj (List.cons.inj hsketches).1
    rw [hparts] at hsame
    obtain rfl := lead_unique hsame hlead hlead' (isLead_ofNext _) rfl
    exact List.append_cancel_left (hwords.trans hwords'.symm)
  · intro heq
    have hname := atName_of_atAccessor hat
    rw [← heq] at hname ⊢
    cases hafter : afterLead ws with
    | nil =>
      rw [hafter] at hname
      cases hname
    | cons name behind =>
      rw [hafter] at hname hparts hwords
      refine ⟨lead, name, behind, more, ?_, hlead, hwords, rfl, (atName_cons_iff.1 hname).2⟩
      exact congrArg (fun ps => [Sketch.node .accessorDecl ps]) hparts

end Grammar

/-! ## nodes -/

/-- Accessors were announced, and their parts start with attributes, modifiers and the word behind
these. -/
def NestedLaw.ledAccessor : NestedLaw := fun _ k ps rest =>
  k = .accessorDecl → atAccessor (wordsOfAll ps ++ rest) = true ∧ Led ps (wordsOfAll ps ++ rest)

theorem local_ledAccessor : NestedLaw.ledAccessor.Local := by
  refine .about rfl (by decide) fun {_ ps _} hmade => ?_
  cases hmade with
  | @accessor _ inside ws _ _ h hat _ hps =>
    have hcovers := (oneAccessor inside ws h).covers
    rw [hps] at hcovers
    have hwords : wordsOfAll ps ++ (oneAccessor inside ws h).rest = ws := by
      simpa [wordsOfAll, Sketch.words] using hcovers
    rw [hwords]
    exact ⟨hat, led_oneAccessor inside h hps⟩

namespace Sketch

theorem words_subset_wordsOfAll {s : Sketch} {ss : List Sketch} (h : s ∈ ss) :
    s.words ⊆ wordsOfAll ss := by
  obtain ⟨pre, post, rfl⟩ := List.append_of_mem h
  intro w hw
  rw [wordsOfAll_append]
  exact List.mem_append_right _ (List.mem_append_left _ hw)

/-- Sketches that are no words leave no token that is one. -/
theorem filter_isWord_treesOfAll {ss : List Sketch} (h : ∀ w, .word w ∉ ss) :
    (treesOfAll ss).filter Tree.isWord = [] := by
  induction ss with
  | nil => rfl
  | cons s ss ih =>
    have hss := ih fun w hw => h w (List.mem_cons_of_mem s hw)
    rw [treesOfAll, List.filter_append, hss, List.append_nil]
    cases s with
    | word w => exact absurd List.mem_cons_self (h w)
    | node k ps => rfl
    | fault f => rfl
    | gap => rfl

end Sketch

/-- The keyword of a node is the word behind its attributes and modifiers. -/
theorem keyword?_of_led {k : Kind} {parts : List Sketch} {t : Tree} {ws rest : List Word}
    (hlaid : LaidAs k parts t) (hled : Led parts ws) (hws : wordsOfAll parts ++ rest = ws)
    (hplain : ∀ w ∈ ws, w.lexeme.isTrivia = false) :
    t.keyword? = (afterLead ws).head?.map (·.text) := by
  obtain ⟨lead, more, rfl, hlead, hwords⟩ := hled
  have hnone : (treesOfAll lead).filter Tree.isWord = [] :=
    filter_isWord_treesOfAll fun w hw => Bool.false_ne_true (hlead _ hw)
  rw [← Tree.keyword?_bare, hlaid.bare, Tree.keyword?, Tree.words, Tree.children,
    Sketch.treesOfAll_append, List.filter_append, hnone, List.nil_append]
  cases hafter : afterLead ws with
  | nil =>
    -- all words of the node are among its attributes and modifiers
    rw [hafter, List.append_nil] at hwords
    have hmore : wordsOfAll (.gap :: more) = [] := by
      rw [hafter, ← hwords, wordsOfAll_append, List.append_assoc] at hws
      exact (List.append_eq_nil_iff.1 (List.append_right_eq_self.1 hws)).1
    have hbehind : (treesOfAll (ofNext [] :: more)).filter Tree.isWord = [] :=
      filter_isWord_treesOfAll fun w hw => by
        have hmem := words_subset_wordsOfAll hw List.mem_cons_self
        rw [ofNext, hmore] at hmem
        cases hmem
    rw [hbehind]
    rfl
  | cons w r =>
    have hw : w.lexeme.isTrivia = false := by
      refine hplain w ?_
      rw [← hwords, hafter]
      exact List.mem_append_right _ List.mem_cons_self
    have hword : Tree.isWord (.token w.kind w.text) = true := by
      rw [Tree.isWord, Tree.kind, show w.kind.isTrivia = false from hw]
      rfl
    have htrees : treesOfAll (ofNext (w :: r) :: more) =
        .token w.kind w.text :: treesOfAll more := rfl
    rw [htrees, List.filter_cons_of_pos hword]
    rfl

/-! ## source files -/

/-- The names of accessors are the words that start the kinds of accessors. -/
theorem AccessorKind.isSome_ofKeyword? (s : String) :
    (ofKeyword? s).isSome = true ↔ s ∈ accessorNames := by
  have hnames : accessorNames = all.map keyword := rfl
  rw [ofKeyword?, List.find?_isSome, hnames, List.mem_map]
  simp

/-- A lexeme with the text of the name of an accessor is an identifier. -/
theorem Lexeme.kind_of_accessorName {l : Lexeme} {source : String} (hl : l ∈ lex source)
    (h : l.text ∈ accessorNames) : l.kind = .identifier := by
  have hall : ∀ name ∈ accessorNames, lex name = [⟨.identifier, name⟩] := by decide +kernel
  have halone := (lex_text_of_mem hl).symm.trans (hall l.text h)
  exact congrArg Lexeme.kind (List.cons.inj halone).1

section

variable {source : String} {e : Nest}

/-- An accessor of a source file was announced, and it is known as one exactly if the name of one
stands behind its attributes and modifiers. -/
theorem isSome_accessor_iff (he : e ∈ fileNests source) (hk : e.tree.kind = .accessorDecl) :
    atAccessor ((Word.ofLexemes (Lexeme.lex source)).drop e.before) = true ∧
      ((Accessor.ofNode? e.tree).isSome = true ↔
        atName accessorNames
          (afterLead ((Word.ofLexemes (Lexeme.lex source)).drop e.before)) = true) := by
  obtain ⟨parts, hlaid, htaken, hlaw⟩ := local_ledAccessor.of_mem_fileNests he
  obtain ⟨hat, hled⟩ := hlaw hk
  have hwords : wordsOfAll parts ++ e.toExtent.behind (Word.ofLexemes (Lexeme.lex source)) =
      (Word.ofLexemes (Lexeme.lex source)).drop e.before := by
    rw [htaken]
    exact (Extent.drop_before _ _).symm
  rw [hwords] at hat hled
  have hlex : ∀ w ∈ (Word.ofLexemes (Lexeme.lex source)).drop e.before,
      w.lexeme ∈ Lexeme.lex source ∧ w.lexeme.isTrivia = false :=
    fun w hw => Word.mem_of_mem_ofLexemes (List.mem_of_mem_drop hw)
  have hkeyword := keyword?_of_led hlaid hled hwords fun w hw => (hlex w hw).2
  refine ⟨hat, ?_⟩
  rw [Accessor.ofNode?, Option.isSome_map, hkeyword]
  obtain ⟨lead, -, -, -, hlead⟩ := hled
  cases hafter : afterLead ((Word.ofLexemes (Lexeme.lex source)).drop e.before) with
  | nil => simp [atName]
  | cons w r =>
    have hw : w.lexeme ∈ Lexeme.lex source := by
      refine (hlex w ?_).1
      rw [← hlead, hafter]
      exact List.mem_append_right _ List.mem_cons_self
    -- a lexeme spelled like an accessor is an identifier, so its text tells all
    have hkind : w.text ∈ accessorNames → w.kind = .identifier := Lexeme.kind_of_accessorName hw
    rw [atName_cons_iff, List.head?_cons, Option.map_some, Option.bind_some,
      AccessorKind.isSome_ofKeyword?]
    exact ⟨fun h => ⟨hkind h, h⟩, And.right⟩

theorem Tree.exists_eq_node {k : Kind} {t : Tree} (h : t.isNodeOf k = true) :
    ∃ cs, t = .node k cs := by
  cases t with
  | node j cs =>
    obtain rfl : j = k := by simpa [isNodeOf, isNode, kind] using h
    exact ⟨cs, rfl⟩
  | token j x => cases h

/-- The accessors of a block are known, all of them, exactly if the name of one stands behind the
attributes and modifiers of each. -/
theorem length_accessors_iff {c : Nest} (hc : c ∈ fileNests source) {block : Tree}
    (hblock : c.tree.childOf? .accessorBlock = some block)
    (hsome : block.childrenOf .accessorDecl ≠ []) :
    ∃ b ∈ fileNests source, b.StandsIn c ∧ b.tree = block ∧
      ((Accessor.ofOwner c.tree).length = (block.childrenOf .accessorDecl).length ↔
        ∀ e ∈ fileNests source, e.StandsIn b → e.tree.kind = .accessorDecl →
          atName accessorNames
            (afterLead ((Word.ofLexemes (Lexeme.lex source)).drop e.before)) = true) := by
  obtain ⟨cs, rfl⟩ := Tree.exists_eq_node (List.find?_some hblock)
  obtain ⟨b, hb, hstands, htree⟩ :=
    Tree.exists_standsIn hc (List.mem_of_find?_eq_some hblock)
  refine ⟨b, hb, hstands, htree, ?_⟩
  have howner : Accessor.ofOwner c.tree =
      ((Tree.node .accessorBlock cs).childrenOf .accessorDecl).filterMap Accessor.ofNode? := by
    rw [Accessor.ofOwner, hblock]
    dsimp only
    split
    · next hnil => exact absurd hnil hsome
    · rfl
  -- none is dropped just if each node of the block is known
  rw [howner, List.filterMap_length_eq_length]
  constructor
  · intro hall e he hin hk
    obtain ⟨-, pre, post, hchildren, -⟩ := hin
    refine (isSome_accessor_iff he hk).2.1 (hall e.tree (List.mem_filter.2 ⟨?_, ?_⟩))
    · rw [← htree, hchildren]
      exact List.mem_append_right _ List.mem_cons_self
    · obtain ⟨parts, ⟨_, _, _, hnode, -⟩, -⟩ := local_ledAccessor.of_mem_fileNests he
      rw [hnode, hk]
      rfl
  · intro hall t ht
    obtain ⟨hmem, hk⟩ := List.mem_filter.1 ht
    obtain ⟨ds, rfl⟩ := Tree.exists_eq_node hk
    rw [← htree] at hmem
    obtain ⟨e, he, hin, hsame⟩ := Tree.exists_standsIn hb hmem
    have hkind : e.tree.kind = .accessorDecl := by
      rw [hsame]
      rfl
    rw [← hsame]
    exact (isSome_accessor_iff he hkind).2.2 (hall e he hin hkind)

end

/-- What is announced as an accessor, at any words, is one that is named by the word that the look
ahead found exactly if attributes and then modifiers are all that stands before that word; where
arguments of attributes end with a parenthesis, exactly if no attribute stands behind a modifier.

In a source file every accessor was announced where it stands. It is known as one exactly if the
word behind its attributes and then modifiers is a name of accessors, and all accessors of an owner
are known exactly if that is so with each. -/
theorem accessors_named_iff (source : String) :
    let words := Word.ofLexemes (Lexeme.lex source)
    (∀ {n : Nat} (inside : List Kind → Rule n) {ws : List Word} (h : ws.length < n + 1),
      atAccessor ws = true →
        ((oneAccessor inside ws h).Names (skipAccessorModifiers ws) ↔
          afterLead ws = skipAccessorModifiers ws) ∧
        (attributesClose ws = true →
          ((oneAccessor inside ws h).Names (skipAccessorModifiers ws) ↔
            at? .atSign (afterLead ws) = false))) ∧
      (∀ e ∈ fileNests source, e.tree.kind = .accessorDecl →
        let ws := words.drop e.before
        atAccessor ws = true ∧
          ((Accessor.ofNode? e.tree).isSome = true ↔
            atName accessorNames (afterLead ws) = true) ∧
          (attributesClose ws = true →
            ((Accessor.ofNode? e.tree).isSome = true ↔ at? .atSign (afterLead ws) = false))) ∧
      ∀ c ∈ fileNests source, ∀ block, c.tree.childOf? .accessorBlock = some block →
        block.childrenOf .accessorDecl ≠ [] →
          ∃ b ∈ fileNests source, b.StandsIn c ∧ b.tree = block ∧
            ((Accessor.ofOwner c.tree).length = (block.childrenOf .accessorDecl).length ↔
              ∀ e ∈ fileNests source, e.StandsIn b → e.tree.kind = .accessorDecl →
                atName accessorNames (afterLead (words.drop e.before)) = true) := by
  intro words
  refine ⟨?_, ?_, fun c hc block hblock hsome => length_accessors_iff hc hblock hsome⟩
  · intro n inside ws h hat
    refine ⟨names_iff inside h hat, fun hclose => ?_⟩
    rw [names_iff inside h hat, afterLead_eq_skipAccessorModifiers_iff hat hclose]
  · intro e he hk ws
    obtain ⟨hat, hname⟩ := isSome_accessor_iff he hk
    refine ⟨hat, hname, fun hclose => ?_⟩
    rw [hname, atName_afterLead_iff hat hclose]

/-- An attribute behind a modifier is announced with its accessor and taken for its name. The
accessor is not known, and its owner has fewer accessors than its block. -/
theorem attribute_behind_accessor_modifier :
    let source := "var x: Int \x7b mutating @a get \x7b 1 \x7d \x7d"
    let words := Word.ofLexemes (Lexeme.lex source)
    (∃ e ∈ fileNests source, e.tree.kind = .accessorDecl ∧
      (skipAccessorModifiers (words.drop e.before)).head?.map (·.text) = some "get" ∧
      (afterLead (words.drop e.before)).head?.map (·.text) = some "@" ∧
      Accessor.ofNode? e.tree = none) ∧
      ∃ c ∈ fileNests source, ∃ block, c.tree.childOf? .accessorBlock = some block ∧
        (Accessor.ofOwner c.tree).length < (block.childrenOf .accessorDecl).length := by
  intro source words
  have haccessor : ((fileNests source).any fun e => e.tree.kind == .accessorDecl &&
      ((skipAccessorModifiers (words.drop e.before)).head?.map (·.text) == some "get" &&
        ((afterLead (words.drop e.before)).head?.map (·.text) == some "@" &&
          (Accessor.ofNode? e.tree).isNone))) = true := by
    decide +kernel
  have howner : ((fileNests source).any fun c =>
      (c.tree.childOf? .accessorBlock).any fun block =>
        (Accessor.ofOwner c.tree).length < (block.childrenOf .accessorDecl).length) = true := by
    decide +kernel
  constructor
  · obtain ⟨e, he, hboth⟩ := List.any_eq_true.1 haccessor
    simp only [Bool.and_eq_true, beq_iff_eq, Option.isNone_iff_eq_none] at hboth
    exact ⟨e, he, hboth⟩
  · obtain ⟨c, hc, hless⟩ := List.any_eq_true.1 howner
    obtain ⟨block, hblock, hless⟩ := (Option.any_eq_true _ _).1 hless
    exact ⟨c, hc, block, hblock, of_decide_eq_true hless⟩

end SwiftOutline

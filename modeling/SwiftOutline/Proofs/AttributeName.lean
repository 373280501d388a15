import SwiftOutline.Proofs.Nest
import SwiftOutline.Proofs.Phrase

/-!
# SwiftOutline.Proofs.AttributeName

What the name of an attribute is made of.

* `AttributeParts` — an attribute is a sign, a name and arguments, if a parenthesis is joined to the
  name; the name is whatever word is behind the sign, with dotted names;
* `NestedLaw.attributeParts`, `local_attributeParts` — so the rule for an attribute makes it;
* `attributes_named` — so it is with every attribute of every source file. Its name holds nothing
  but names, keywords and dots exactly if the word behind the sign is one of these, or none is left:
  any other word, though it closes a scope, is the name and not left to what stands around.
-/

namespace SwiftOutline

open Grammar Rule Sketch

/-! ## names with dots -/

/-- Whether words are dots and names in turn. -/
def dottedNames : List Word → Bool
  | [] => true
  | [_] => false
  | d :: i :: r => d.kind == .dot && i.kind == .identifier && dottedNames r

namespace Grammar

variable {n : Nat}

/-- Dotted names are taken as far as they go. -/
theorem dottedNames_whileAt (ws : List Word) (h : ws.length < n) :
    dottedNames (wordsOfAll (whileAt (atPair .dot .identifier) bump ws h).sketches) = true ∧
      atPair .dot .identifier (whileAt (atPair .dot .identifier) bump ws h).rest = false := by
  induction hlen : ws.length using Nat.strongRecOn generalizing ws with
  | ind l ih =>
    subst hlen
    by_cases hat : atPair .dot .identifier ws = true
    · obtain ⟨d, i, r, rfl⟩ : ∃ d i r, ws = d :: i :: r := by
        cases ws with
        | nil => cases hat
        | cons d r =>
          cases r with
          | nil => simp [atPair, at?, kind?] at hat
          | cons i r => exact ⟨d, i, r, rfl⟩
      have hkinds : d.kind = .dot ∧ i.kind = .identifier := by
        simpa [atPair, at?, kind?] using hat
      have hr : r.length < n := by
        simp only [List.length_cons] at h
        omega
      -- a turn takes two words, so the induction is on the length
      have hstep : whileAt (atPair .dot .identifier) bump (d :: i :: r) h =
          .cons d (.cons i (whileAt (atPair .dot .identifier) bump r hr)) := by
        rw [whileAt, if_pos hat]
        rfl
      have hrest := ih r.length (by simp only [List.length_cons]; omega) r hr rfl
      rw [hstep]
      exact ⟨by simpa [Parsed.cons, dottedNames, hkinds] using hrest.1, hrest.2⟩
    · rw [whileAt_not (by simpa using hat)]
      exact ⟨rfl, by simpa using hat⟩

end Grammar

/-! ## attributes -/

/-- The name of an attribute and the words behind it: there is no name if no word is left behind
the sign, and else it is the next word, whatever it is, with all the dotted names behind it. -/
def NamedBehindSign (name : List Sketch) (behind : List Word) : Prop :=
  wordsOfAll name = [] ∧ behind = [] ∨
    ∃ w dotted, wordsOfAll name = w :: dotted ∧ dottedNames dotted = true ∧
      atPair .dot .identifier behind = false

/-- An attribute is a sign, a name and arguments; these are there if a parenthesis is joined to the
name. -/
def AttributeParts (ps : List Sketch) (rest : List Word) : Prop :=
  ∃ sign name args, ps = .word sign :: .node .name name :: args ∧ sign.kind = .atSign ∧
    NamedBehindSign name (wordsOfAll args ++ rest) ∧
    if atJoinedParen (wordsOfAll args ++ rest) then
      ∃ parts, args = [.node .attributeArguments parts]
    else args = []

/-- Attributes are made of a sign, a name and arguments. -/
def NestedLaw.attributeParts : NestedLaw := fun _ k ps rest =>
  k = .attribute → AttributeParts ps rest

namespace Grammar

variable {n : Nat}

theorem namedBehindSign_attributeName (ws : List Word) (h : ws.length < n) :
    ∃ name, (attributeName ws h).sketches = [.node .name name] ∧
      NamedBehindSign name (attributeName ws h).rest := by
  refine ⟨_, rfl, ?_⟩
  show NamedBehindSign (Rule.ifAt _ _ _ ws h).sketches (Rule.ifAt _ _ _ ws h).rest
  cases ws with
  | nil => exact .inl ⟨rfl, rfl⟩
  | cons w r =>
    obtain ⟨hdotted, hrest⟩ := dottedNames_whileAt r (Nat.lt_of_succ_lt h)
    exact .inr ⟨w, _, rfl, hdotted, hrest⟩

theorem attributeParts_oneAttribute {ws : List Word} (h : ws.length < n)
    (hat : at? .atSign ws = true) {ps : List Sketch}
    (hps : (oneAttribute ws h).sketches = [.node .attribute ps]) :
    AttributeParts ps (oneAttribute ws h).rest := by
  cases ws with
  | nil => cases hat
  | cons sign r =>
    have hr := Nat.lt_of_succ_lt h
    have hsign : sign.kind = .atSign := by simpa [at?, kind?] using hat
    obtain ⟨name, hname, hbehind⟩ := namedBehindSign_attributeName r hr
    let args : Parsed (attributeName r hr).rest :=
      optional atJoinedParen attributeArguments _ ((attributeName r hr).length_rest_lt hr)
    obtain rfl : _ = ps := (Sketch.node.inj (List.cons.inj hps).1).2
    refine ⟨sign, name, args.sketches, ?_, hsign, ?_, ?_⟩
    · show .word sign :: ((attributeName r hr).sketches ++ args.sketches) = _
      rw [hname]
      rfl
    · show NamedBehindSign name (wordsOfAll args.sketches ++ args.rest)
      rwa [args.covers]
    · show if atJoinedParen (wordsOfAll args.sketches ++ args.rest) = true then _ else _
      rw [args.covers]
      split
      · next hparen =>
        have hargs : args = attributeArguments _ _ := if_pos hparen
        exact ⟨_, congrArg Parsed.sketches hargs⟩
      · next hparen =>
        have hargs : args = .done _ := if_neg hparen
        exact congrArg Parsed.sketches hargs

theorem local_attributeParts : NestedLaw.attributeParts.Local := by
  refine .about rfl (by decide) fun hmade => ?_
  cases hmade with
  | oneAttribute h hat hps => exact attributeParts_oneAttribute h hat hps

end Grammar

/-! ## source files -/

/-- The kinds of words that names are made of: names, keywords and dots. -/
def Kind.isNameWord : Kind → Bool
  | .identifier | .dot
  | .kwAssociatedtype | .kwCase | .kwClass | .kwDeinit | .kwEnum | .kwExtension | .kwFileprivate
  | .kwFunc | .kwImport | .kwInit | .kwInout | .kwInternal | .kwLet | .kwOperator
  | .kwPrecedencegroup | .kwPrivate | .kwProtocol | .kwPublic | .kwStatic | .kwStruct
  | .kwSubscript | .kwTypealias | .kwVar | .kwAs | .kwIs | .kwRethrows | .kwSelfValue
  | .kwSelfType | .kwThrows | .kwTry | .kwWhere => true
  | _ => false

theorem isNameWord_of_dottedNames {ws : List Word} (h : dottedNames ws = true) :
    ∀ w ∈ ws, w.kind.isNameWord = true := by
  fun_induction dottedNames ws with
  | case1 => simp
  | case2 => cases h
  | case3 d i r ih =>
    simp only [Bool.and_eq_true, beq_iff_eq] at h
    obtain ⟨⟨hd, hi⟩, hr⟩ := h
    simpa [hd, hi, Kind.isNameWord] using ih hr

/-- Every attribute of a source file, trivia left out, is a sign, a name and what may be behind
that. The name is the word behind the sign, if one is left in the file, with dotted names. So it
holds nothing but names, keywords and dots exactly if that word is one. -/
theorem attributes_named (source : String) :
    let words := Word.ofLexemes (Lexeme.lex source)
    ∀ e ∈ fileNests source, e.tree.kind = .attribute →
      ∃ sign name args dotted,
        e.tree.bare.children = .token .atSign sign :: .node .name name :: args ∧
        Tree.tokensOfAll name =
          ((words.drop (e.before + 1)).head?.toList ++ dotted).map Word.lexeme ∧
        dottedNames dotted = true ∧
        ((∀ l ∈ Tree.tokensOfAll name, l.kind.isNameWord = true) ↔
          ∀ w ∈ (words.drop (e.before + 1)).head?, w.kind.isNameWord = true) := by
  intro words e he hk
  obtain ⟨parts, hlaid, htaken, hlaw⟩ := local_attributeParts.of_mem_fileNests he
  obtain ⟨sign, name, args, rfl, hsign, hname, -⟩ := hlaw hk
  have htokens := Sketch.tokens_treesOfAll name
  have hfrom := e.toExtent.drop_before words
  rw [← htaken] at hfrom
  have hbehind : words.drop (e.before + 1) =
      wordsOfAll name ++ (wordsOfAll args ++ e.behind words) := by
    rw [← List.drop_drop, hfrom]
    simp
  have hbare := congrArg Tree.children hlaid.bare
  rw [Sketch.treesOfAll, Sketch.treesOfAll, Sketch.trees, Sketch.trees, hsign] at hbare
  obtain ⟨hnil, hend⟩ | ⟨w, dotted, hwords, hdotted, -⟩ := hname
  · change wordsOfAll args ++ e.behind words = [] at hend
    rw [hnil, hend] at hbehind
    refine ⟨sign.text, Sketch.treesOfAll name, Sketch.treesOfAll args, [], hbare, ?_, rfl, ?_⟩
    · simp [htokens, hbehind, hnil]
    · simp [htokens, hbehind, hnil]
  · have hmore := isNameWord_of_dottedNames hdotted
    refine ⟨sign.text, Sketch.treesOfAll name, Sketch.treesOfAll args, dotted, hbare, ?_, hdotted,
      ?_⟩
    · simp [htokens, hbehind, hwords]
    · simp [htokens, hbehind, hwords, Word.lexeme]
      grind

/-- The name of an attribute in front of a class. -/
theorem attributes_named_class :
    let source := "@objc.members class A \x7b\x7d"
    let words := Word.ofLexemes (Lexeme.lex source)
    ∃ e ∈ fileNests source, e.tree.kind = .attribute ∧
      ∃ sign name args, e.tree.bare.children = .token .atSign sign :: .node .name name :: args ∧
        ((∀ l ∈ Tree.tokensOfAll name, l.kind.isNameWord = true) ↔
          ∀ w ∈ (words.drop (e.before + 1)).head?, w.kind.isNameWord = true) ∧
        ∀ w ∈ (words.drop (e.before + 1)).head?, w.kind.isNameWord = true := by
  intro source words
  have hany : ((fileNests source).any fun e => e.tree.kind == .attribute &&
      (words.drop (e.before + 1)).head?.all (·.kind.isNameWord)) = true := by decide +kernel
  obtain ⟨e, he, hall⟩ := List.any_eq_true.1 hany
  simp only [Bool.and_eq_true, beq_iff_eq, Option.all_eq_true] at hall
  obtain ⟨sign, name, args, -, hbare, -, -, hiff⟩ := attributes_named source e he hall.1
  exact ⟨e, he, hall.1, sign, name, args, hbare, hiff, hall.2⟩

/-- A sign in front of the brace that closes a class takes the brace for its name, and the class
behind it is a member of the first one. -/
theorem attribute_named_brace :
    let source := "class A \x7b\n    @\n\x7d\nclass B \x7b\x7d"
    (∃ e ∈ fileNests source, e.tree.kind = .name ∧ e.around = .attribute ∧
      e.tree.tokens = [⟨.closeBrace, "\x7d"⟩]) ∧
      (Declaration.collectFile .default (parse source).tree).map (·.name) = ["A"] := by
  intro source
  have hany : ((fileNests source).any fun e => e.tree.kind == .name && (e.around == .attribute &&
      e.tree.tokens == [⟨.closeBrace, "\x7d"⟩])) = true := by decide +kernel
  have hnames : (Declaration.collectFile .default (parse source).tree).map (·.name) = ["A"] := by
    decide +kernel
  obtain ⟨e, he, hall⟩ := List.any_eq_true.1 hany
  simp only [Bool.and_eq_true, beq_iff_eq] at hall
  exact ⟨⟨e, he, hall.1, hall.2.1, hall.2.2⟩, hnames⟩

end SwiftOutline

import SwiftOutline.Proofs.Isolated
import SwiftOutline.Proofs.Nest
import SwiftOutline.Proofs.Phrase
import SwiftOutline.Proofs.Pruned
import SwiftOutline.Proofs.Settable

/-!
# SwiftOutline.Proofs.FunctionName

Which functions are taken for operators.

* `Lexeme.Spells` — how an identifier is spelled: as a word, behind a dollar sign, or between
  backticks (`spells_of_mem_lex`);
* `Lexeme.startsMark_of_mem_lex` — a mark of an operator starts with a character that starts no
  identifier;
* `Lexeme.misleads` — the identifiers that read as operators once their backticks are off;
* `NamesFunction`, `local_functionName` — the name of a function is an identifier, or it is made of
  marks, unless a fault stands for it;
* `isOperator_of_name` — so it is with every function of a source file without faults: it is taken
  for an operator if its name is made of marks, and if it is an identifier that misleads.

Only the first character of a name is looked at, and the backticks are off the name by then.
-/

namespace SwiftOutline

open Grammar Rule Sketch

/-! ## lexemes -/

namespace Lexeme

variable {c : Char} {k : Kind} {l : Lexeme} {front : List Char} {source : String}

/-- How an identifier is spelled: as a word, behind a dollar sign, or between backticks. -/
inductive Spells : List Char → Prop
  | word {c : Char} (hc : (c == '_' || Unicode.isLetter c) = true) (r : List Char) :
      Spells (c :: r)
  | dollar (r : List Char) : Spells ('$' :: r)
  | escaped {c : Char} (hc : c ≠ '\x60') (r : List Char) :
      Spells ('\x60' :: c :: (r ++ ['\x60']))

/-- What stands between backticks is not empty and starts with no backtick. -/
theorem spells_of_scanEscapedName (h : scanEscapedName front = (.identifier, front.length)) :
    Spells ('\x60' :: front) := by
  unfold scanEscapedName at h
  dsimp only at h
  split at h
  · next hclosed =>
    obtain ⟨hne, hclose⟩ := Bool.and_eq_true_iff.1 hclosed
    have hlen := congrArg Prod.snd h
    dsimp only at hlen
    cases front with
    | nil => cases hlen
    | cons c r =>
      have hc : c ≠ '\x60' := by
        rintro rfl
        cases hne
      rw [List.length_cons, Nat.succ.injEq] at hlen
      rw [hlen] at hne hclose
      -- the second backtick is the last character
      obtain rfl | ⟨init, last, rfl⟩ := r.eq_nil_or_concat'
      · cases hne
      · have hlast : (c :: (init ++ [last])).drop (init ++ [last]).length = [last] := by simp
        rw [hlast] at hclose
        obtain rfl : last = '\x60' := by simpa using hclose
        exact .escaped hc init
  · cases congrArg Prod.fst h

/-- The families that identifiers are of, by the first character. -/
theorem spells_of_scan (h : scan c front = (.identifier, front.length)) : Spells (c :: front) := by
  have hkind {p : Kind × Nat} {ks : List Kind} (hscan : scan c front = p) (hp : p.1 ∈ ks) :
      Kind.identifier ∈ ks := by
    rwa [← hscan, h] at hp
  cases family c with
  | word hc _ => exact .word hc front
  | dollarName hc _ =>
    subst hc
    exact .dollar front
  | escapedName hc hscan =>
    subst hc
    rw [hscan] at h
    exact spells_of_scanEscapedName h
  | space _ hscan => cases (hscan front).symm.trans h
  | number _ hscan => exact absurd (hkind (hscan _) (kind_scanNumber_mem c front)) (by decide)
  | operator _ hscan => exact absurd (hkind (hscan _) (kind_scanOperator_mem c front)) (by decide)
  | slash _ hscan => exact absurd (hkind (hscan _) (kind_scanSlash_mem front)) (by decide)
  | text _ hscan => exact absurd (hkind (hscan _) (kind_scanText_mem front)) (by decide)
  | dot _ hscan => exact absurd (hkind (hscan _) (kind_scanDot_mem front)) (by decide)
  | hash _ hscan => exact absurd (hkind (hscan _) (kind_scanHash_mem front)) (by decide)
  | mark hmark hscan =>
    have hmem := List.mem_map_of_mem (f := (·.2)) (mem_of_lookup_eq_some hmark)
    exact absurd (hkind (hscan _) hmem) (by decide)
  | unknown hscan => cases (hscan front).symm.trans h

/-- Whether a character starts no name: it is no letter, no underscore and no backtick. -/
def startsMark (c : Char) : Bool := !(Unicode.isAlphabetic c || c == '_' || c == '\x60')

/-- A mark of an operator starts with a character that starts no name. -/
theorem startsMark_of_scan (h : scan c front = (k, front.length)) (hk : k ∈ operatorMarks) :
    startsMark c = true := by
  have hkind {p : Kind × Nat} {ks : List Kind} (hscan : scan c front = p) (hp : p.1 ∈ ks)
      (hks : (ks.all fun j => !operatorMarks.contains j) = true) : startsMark c = true := by
    rw [← hscan, h] at hp
    have hnone := List.all_eq_true.1 hks k hp
    simp [hk] at hnone
  cases family c with
  | word _ hscan => exact hkind (hscan _) (kind_scanWord_mem c front) (by decide)
  | number _ hscan => exact hkind (hscan _) (kind_scanNumber_mem c front) (by decide)
  | text _ hscan => exact hkind (hscan _) (kind_scanText_mem front) (by decide)
  | escapedName _ hscan => exact hkind (hscan _) (kind_scanEscapedName_mem front) (by decide)
  | dollarName _ hscan => exact hkind (hscan _) (kind_scanDollarName_mem front) (by decide)
  | hash _ hscan => exact hkind (hscan _) (kind_scanHash_mem front) (by decide)
  | space _ hscan =>
    obtain ⟨rfl, -⟩ := Prod.mk.inj ((hscan front).symm.trans h)
    exact absurd hk (by decide)
  | unknown hscan =>
    obtain ⟨rfl, -⟩ := Prod.mk.inj ((hscan front).symm.trans h)
    exact absurd hk (by decide)
  | operator hc _ =>
    have hall : ['=', '-', '+', '!', '*', '%', '&', '|', '^', '~', '?'].all startsMark = true := by
      decide +kernel
    exact List.all_eq_true.1 hall c (List.contains_iff_mem.1 hc)
  | slash hc _ | dot hc _ =>
    subst hc
    decide +kernel
  | mark hmark _ =>
    have hall : (marks.map (·.1)).all startsMark = true := by decide +kernel
    exact List.all_eq_true.1 hall c
      (List.mem_map_of_mem (f := (·.1)) (mem_of_lookup_eq_some hmark))

/-- A lexeme of a source file is what its text is scanned as. -/
theorem exists_scan_of_mem_lex (hl : l ∈ lex source) :
    ∃ c front, l.text.toList = c :: front ∧ scan c front = (l.kind, front.length) := by
  obtain ⟨rest, c, front, htext, hscan⟩ := (scanned_lexChars source.toList).cutOff l hl
  exact ⟨c, front, htext, scan_alone hscan⟩

/-- The identifiers that read as operators once their backticks are off: those behind a dollar sign,
and those whose first character between the backticks starts no name. -/
def misleads (l : Lexeme) : Bool :=
  match l.text.toList with
  | '$' :: _ => true
  | '\x60' :: c :: _ => startsMark c
  | _ => false

theorem unescapeChars_escaped (r : List Char) :
    unescapeChars ('\x60' :: (r ++ ['\x60'])) = r := by
  simp [unescapeChars]

theorem unescapeChars_of_ne (hc : c ≠ '\x60') (r : List Char) :
    unescapeChars (c :: r) = c :: r := by
  simp [unescapeChars, hc]

theorem startsMark_of_isLetter (hc : (c == '_' || Unicode.isLetter c) = true) :
    startsMark c = false := by
  obtain hc | hc := Bool.or_eq_true_iff.1 hc
  · simp [startsMark, hc]
  · simp [startsMark, Unicode.isAlphabetic_of_isLetter hc]

theorem ne_of_startsMark {d : Char} (hc : startsMark c = true) (hd : startsMark d = false) :
    c ≠ d := by
  rintro rfl
  exact Bool.noConfusion (hc.symm.trans hd)

/-- An identifier is taken for the name of an operator exactly if it misleads. -/
theorem isOperatorName_of_spells (h : Spells l.text.toList) :
    Facts.isOperatorName (unescape l.text) = l.misleads := by
  rw [Facts.isOperatorName, unescape, String.toList_ofList, misleads]
  generalize l.text.toList = cs at h ⊢
  cases h with
  | @word c hc r =>
    have hletter := startsMark_of_isLetter hc
    have hdollar : c ≠ '$' := (ne_of_startsMark (by decide +kernel) hletter).symm
    have htick : c ≠ '\x60' := by
      rintro rfl
      exact absurd hc (by decide +kernel)
    rw [unescapeChars_of_ne htick]
    show startsMark c = _
    rw [hletter]
    split
    · next heq => exact absurd (List.cons.inj heq).1 hdollar
    · next heq => exact absurd (List.cons.inj heq).1 htick
    · rfl
  | dollar r =>
    have hdollar : startsMark '$' = true := by decide +kernel
    rw [unescapeChars_of_ne (by decide)]
    exact hdollar
  | @escaped c hc r =>
    rw [← List.cons_append, unescapeChars_escaped]
    rfl

/-- What starts with a mark is taken for the name of an operator. -/
theorem isOperatorName_of_startsMark {s : String} {r : List Char} (hs : s.toList = c :: r)
    (hc : startsMark c = true) : Facts.isOperatorName (unescape s) = true := by
  have htick : c ≠ '\x60' := ne_of_startsMark hc (by decide +kernel)
  rw [Facts.isOperatorName, unescape, String.toList_ofList, hs, unescapeChars_of_ne htick]
  exact hc

end Lexeme

/-! ## rules -/

/-- The name of a function: an identifier or marks, unless a fault stands for it. -/
def NamesFunction (name : List Sketch) : Prop :=
  (∃ w, name = [.word w] ∧ w.kind = .identifier) ∨
    (wordsOfAll name ≠ [] ∧ ∀ w ∈ wordsOfAll name, w.kind ∈ operatorMarks) ∨
      name = [.fault .noNameOrOperator]

/-- The name of a function stands behind the keyword. -/
def NestedLaw.functionName : NestedLaw := fun _ k ps _ =>
  k = .functionDecl → ∃ lead keyword name more,
    ps = lead ++ .word keyword :: .node .name name :: more ∧ .name ∉ kinds lead ∧
      NamesFunction name

namespace Grammar

variable {n : Nat}

/-- The marks of an operator are taken as far as they are joined. -/
theorem operatorMarks_whileAt (ws : List Word) (h : ws.length < n) :
    ∀ w ∈ wordsOfAll (whileAt atOperatorTail done ws h).sketches, w.kind ∈ operatorMarks := by
  induction ws with
  | nil =>
    rw [whileAt]
    simp [Parsed.done]
  | cons w r ih =>
    have hr : r.length < n := Nat.lt_of_succ_lt h
    by_cases hat : atOperatorTail (w :: r) = true
    · have hstep : whileAt atOperatorTail done (w :: r) h =
          .cons w (whileAt atOperatorTail done r hr) := by
        rw [whileAt, if_pos hat]
        rfl
      have hw : w.kind ∈ operatorMarks := by
        simpa [atOperatorTail, atAny, kind?] using (Bool.and_eq_true_iff.1 hat).1
      rw [hstep]
      exact List.forall_mem_cons.2 ⟨hw, ih hr⟩
    · rw [whileAt_not (by simpa using hat)]
      simp [Parsed.done]

theorem namesFunction_operatorName (ws : List Word) (h : ws.length < n) :
    ∃ name, (operatorName ws h).sketches = [.node .name name] ∧ NamesFunction name := by
  refine ⟨_, rfl, ?_⟩
  show NamesFunction (Rule.ifAt _ _ _ ws h).sketches
  unfold Rule.ifAt
  split
  · next hat =>
    cases ws with
    | nil => cases hat
    | cons w r => exact .inl ⟨w, rfl, by simpa [at?, kind?] using hat⟩
  split
  · next hat =>
    cases ws with
    | nil => cases hat
    | cons w r =>
      have hw : w.kind ∈ operatorMarks := by simpa [atAny, kind?] using hat
      exact .inr (.inl ⟨List.cons_ne_nil _ _,
        List.forall_mem_cons.2 ⟨hw, operatorMarks_whileAt r _⟩⟩)
  · exact .inr (.inr rfl)

/-- The form of a function is that of its keyword. -/
theorem form_of_functionDecl {inside : List Kind → Rule n} {stop : List Kind} {ws : List Word}
    (h : (form inside stop ws).1 = .functionDecl) :
    at? .kwFunc ws = true ∧ form inside stop ws = (.functionDecl, function inside) := by
  revert h
  unfold form
  split
  case h_6 hk => exact fun _ => ⟨by simp [at?, hk], rfl⟩
  case h_19 => split <;> exact fun h => Kind.noConfusion h
  all_goals exact fun h => Kind.noConfusion h

/-- The name stands behind the keyword of a function. -/
theorem exists_name_of_function (inside : List Kind → Rule n) {ws : List Word}
    (h : ws.length < n + 1) (hat : at? .kwFunc ws = true) :
    ∃ keyword name more,
      (function inside ws h).sketches = .word keyword :: .node .name name :: more ∧
        NamesFunction name := by
  cases ws with
  | nil => cases hat
  | cons keyword r =>
    have hr : r.length < n + 1 := Nat.lt_of_succ_lt h
    obtain ⟨name, hname, hnames⟩ := namesFunction_operatorName r hr
    let others : Parsed (operatorName r hr).rest :=
      (genericParameters >> signature >> genericRequirements >> body inside : Rule (n + 1)) _
        ((operatorName r hr).length_rest_lt hr)
    refine ⟨keyword, name, others.sketches, ?_, hnames⟩
    show .word keyword :: ((operatorName r hr).sketches ++ others.sketches) = _
    rw [hname]
    rfl

theorem functionName_declaration {inside : List Kind → Rule n} {stop : List Kind} {ws : List Word}
    (h : ws.length < n + 1) {ps : List Sketch}
    (hps : (declaration inside stop ws h).sketches = [.node .functionDecl ps]) :
    ∃ lead keyword name more, ps = lead ++ .word keyword :: .node .name name :: more ∧
      .name ∉ kinds lead ∧ NamesFunction name := by
  let lead : Parsed ws := attributesAndModifiers ws h
  have hlead := lead.length_rest_lt h
  obtain ⟨hkind, rfl⟩ := Sketch.node.inj (List.cons.inj hps).1
  obtain ⟨hat, hform⟩ := @form_of_functionDecl n _ _ lead.rest hkind
  obtain ⟨keyword, name, more, hparts, hname⟩ := exists_name_of_function inside hlead hat
  have hnone : .name ∉ kinds lead.sketches := fun hmem =>
    absurd ((fits_attributesAndModifiers ws h).admits.mem hmem) (by decide)
  refine ⟨lead.sketches, keyword, name, more, ?_, hnone, hname⟩
  show lead.sketches ++ ((form inside stop lead.rest).2 lead.rest hlead).sketches = _
  rw [hform, ← hparts]

theorem local_functionName : NestedLaw.functionName.Local := by
  refine .about rfl (by decide) fun hmade => ?_
  cases hmade with
  | function _ _ h hps => exact functionName_declaration h hps

end Grammar

/-! ## source files -/

section

variable {source : String} {s : Site}

theorem Tree.tokensOfAll_children_subset (t : Tree) : tokensOfAll t.children ⊆ t.tokens := by
  cases t with
  | node k cs => exact List.Subset.refl _
  | token k x => exact List.nil_subset _

/-- The tokens of a node of a source file are lexemes of the file. -/
theorem Site.tokens_subset_lex (hs : s ∈ all (parse source).tree) :
    s.node.tree.tokens ⊆ Lexeme.lex source :=
  (of_mem_nodesIn (P := fun t => t.tokens ⊆ Lexeme.lex source)
    (fun _ _ ht _ hc => List.Subset.trans (Tree.tokens_subset_of_mem hc) ht)
    (fun l hl => by rwa [tokens_parse] at hl) hs).2

/-- The name of a function of a source file without faults. -/
theorem Site.exists_name (hclean : (parse source).faults = []) (hs : s ∈ all (parse source).tree)
    (hk : s.node.kind = .functionDecl) :
    ∃ name, s.node.tree.childOf? .name = some name ∧ name.allWords ⊆ Lexeme.lex source ∧
      ((∃ l, name.allWords = [l] ∧ l.kind = .identifier) ∨
        name.allWords ≠ [] ∧ ∀ l ∈ name.allWords, l.kind ∈ operatorMarks) := by
  obtain ⟨e, he, htree⟩ := exists_nest hs (by rw [hk]; decide)
  obtain ⟨parts, hlaid, -, hlaw, hparts⟩ := local_functionName.clean_of_mem_fileNests hclean he
  rw [htree] at hlaid hlaw
  obtain ⟨lead, keyword, name, more, rfl, hnone, hname⟩ := hlaw hk
  have hbare : s.node.tree.bare.childOf? .name = some (.node .name (Sketch.treesOfAll name)) := by
    have hlead : (Sketch.treesOfAll lead).find? (Tree.isNodeOf .name) = none := by
      refine List.find?_eq_none.2 fun t ht hname => hnone ?_
      obtain ⟨ps, hps, -⟩ := node_of_mem_treesOfAll ht hname
      exact mem_kinds_of_node hps
    rw [hlaid.bare, Tree.childOf?, Tree.children, Sketch.treesOfAll_append, List.find?_append,
      hlead]
    rfl
  rw [Tree.childOf?_bare, Option.map_eq_some_iff] at hbare
  obtain ⟨t, ht, hsame⟩ := hbare
  have hnode : ¬t.isTrivia = true := by
    cases t with
    | node k cs => exact Bool.false_ne_true
    | token k x => cases hsame
  have hwords : t.allWords = (wordsOfAll name).map Word.lexeme := by
    rw [← Tree.tokens_bare t hnode, hsame]
    exact Sketch.tokens_treesOfAll name
  refine ⟨t, ht, ?_, ?_⟩
  · intro l hl
    have hmem :=
      Tree.tokens_subset_of_mem (List.mem_of_find?_eq_some ht) (List.mem_of_mem_filter hl)
    exact tokens_subset_lex hs (Tree.tokensOfAll_children_subset _ hmem)
  · rw [hwords]
    obtain ⟨w, rfl, hw⟩ | ⟨hne, hmarks⟩ | rfl := hname
    · exact .inl ⟨w.lexeme, rfl, hw⟩
    · exact .inr ⟨by simpa using hne, List.forall_mem_map.2 hmarks⟩
    · -- a fault stands for the name
      rw [cleanAll_append] at hparts
      exact hparts.2.2.1.1.elim

end

namespace Declaration

/-- Every function of a source file is that of a node for it, whatever is left out. -/
theorem exists_site_of_function (c : Config) (source : String) :
    ∀ d ∈ preorderOfAll (Analysis.ofSource c source).declarations, d.kind = .function →
      ∃ s ∈ Site.all (parse source).tree, ∃ e, s.node.kind = .functionDecl ∧
        ofSite .function s = .ok e ∧ d.facts = e.facts := by
  intro d hd hkind
  have hprune : (Analysis.ofSource c source).declarations =
      prunedAll c (collectFile .default (parse source).tree) :=
    collect_eq_prunedAll c none ⟨(parse source).tree, 0⟩
  rw [hprune] at hd
  obtain ⟨e, he, hfacts⟩ := List.mem_map.1
    ((facts_prunedAll_sublist c _).subset (List.mem_map_of_mem hd))
  have hekind : e.kind = .function := (congrArg Facts.kind hfacts).trans hkind
  obtain ⟨s, hs, m, hm, hk, -, hsite⟩ := exists_maker _ e he
  rw [hekind] at hm hk hsite
  obtain rfl : m = s := List.mem_singleton.1 hm
  exact ⟨m, hs, e, hk, hsite, hfacts.symm⟩

/-- The name that a function gets is the text of its name without backticks. -/
theorem name_of_ofSite {s : Site} {e : Declaration} {name : Tree}
    (hk : s.node.kind = .functionDecl) (hsite : ofSite .function s = .ok e)
    (hname : s.node.tree.childOf? .name = some name) (hne : name.normalizedText ≠ "") :
    e.facts.name = unescape name.normalizedText := by
  have hexpect : s.expect DeclarationKind.function.node = .ok s := if_pos hk
  rw [ofSite_eq (by decide) (by decide), hexpect] at hsite
  obtain rfl := Except.ok.inj hsite
  show s.node.tree.declaredName = _
  rw [Tree.declaredName, Tree.declaredName?, hname, Option.bind_some]
  dsimp only
  rw [String.isEmpty_eq_false_iff.2 hne]
  rfl

/-- Whether a function of a source file without faults is taken for an operator is told by the words
of its name: it is if they are marks of an operator, and it is not if they are an identifier, unless
that starts with a dollar sign, or with a character between backticks that starts no name. -/
theorem isOperator_of_name (c : Config) {source : String} (hclean : (parse source).faults = []) :
    ∀ d ∈ preorderOfAll (Analysis.ofSource c source).declarations, d.kind = .function →
      ∃ s ∈ Site.all (parse source).tree, ∃ e name, ofSite .function s = .ok e ∧
        d.facts = e.facts ∧ s.node.tree.childOf? .name = some name ∧
        ((∃ l, name.allWords = [l] ∧ l.kind = .identifier ∧
            (d.facts.isOperator = true ↔ l.misleads = true)) ∨
          name.allWords ≠ [] ∧ (∀ l ∈ name.allWords, l.kind ∈ operatorMarks) ∧
            d.facts.isOperator = true) := by
  intro d hd hkind
  obtain ⟨s, hs, e, hk, hsite, hfacts⟩ := exists_site_of_function c source d hd hkind
  obtain ⟨name, hname, hsub, hwords⟩ := Site.exists_name hclean hs hk
  obtain ⟨l, ls, hall⟩ : ∃ l ls, name.allWords = l :: ls := by
    obtain ⟨l, hl, -⟩ | ⟨hne, -⟩ := hwords
    · exact ⟨l, [], hl⟩
    · exact List.exists_cons_of_ne_nil hne
  obtain ⟨first, front, htext, hscan⟩ :=
    Lexeme.exists_scan_of_mem_lex (hsub (hall ▸ List.mem_cons_self))
  -- the text of the name starts as its first word does
  have hstart : name.normalizedText.toList =
      first :: (front ++ (Lexeme.spacedAfter (some l.kind) ls).toList) := by
    simp [Tree.normalizedText, hall, Lexeme.spaced, Lexeme.spacedAfter, htext]
  have hne : name.normalizedText ≠ "" := by
    intro hempty
    rw [hempty] at hstart
    cases hstart
  have hoperator : d.facts.isOperator = Facts.isOperatorName (unescape name.normalizedText) := by
    rw [hfacts, Facts.isOperator, name_of_ofSite hk hsite hname hne]
  refine ⟨s, hs, e, name, hsite, hfacts, hname, ?_⟩
  rw [hoperator]
  obtain ⟨l', hl, hidentifier⟩ | ⟨hmany, hmarks⟩ := hwords
  · obtain ⟨rfl, rfl⟩ := List.cons.inj (hall.symm.trans hl)
    have hspells : Lexeme.Spells l.text.toList := by
      rw [htext]
      exact Lexeme.spells_of_scan (hidentifier ▸ hscan)
    have htext' : name.normalizedText = l.text := by
      simp [Tree.normalizedText, hall, Lexeme.spaced, Lexeme.spacedAfter]
    exact .inl ⟨l, hl, hidentifier, by rw [htext', Lexeme.isOperatorName_of_spells hspells]⟩
  · have hmark := hmarks l (hall ▸ List.mem_cons_self)
    exact .inr ⟨hmany, hmarks,
      Lexeme.isOperatorName_of_startsMark hstart (Lexeme.startsMark_of_scan hscan hmark)⟩

/-- A file with an operator and an escaped name that reads as a name. -/
theorem isOperator_of_name_two :
    let source :=
      "struct A \x7b static func == (a: A, b: A) \x7b\x7d\n func \x60is\x60() \x7b\x7d \x7d"
    let ds := preorderOfAll (Analysis.ofSource .default source).declarations
    (parse source).faults = [] ∧ (∃ d ∈ ds, d.kind = .function) ∧
      ∀ d ∈ ds, d.kind = .function → ∃ s ∈ Site.all (parse source).tree, ∃ e name,
        ofSite .function s = .ok e ∧ d.facts = e.facts ∧
          s.node.tree.childOf? .name = some name ∧
          ((∃ l, name.allWords = [l] ∧ l.kind = .identifier ∧
              (d.facts.isOperator = true ↔ l.misleads = true)) ∨
            name.allWords ≠ [] ∧ (∀ l ∈ name.allWords, l.kind ∈ operatorMarks) ∧
              d.facts.isOperator = true) := by
  intro source ds
  have hclean : (parse source).faults = [] := by decide +kernel
  have hany : (ds.any (·.kind == .function)) = true := by decide +kernel
  exact ⟨hclean, by simpa using hany, isOperator_of_name .default hclean⟩

/-- An escaped name that reads as an operator is taken for one, though it is an identifier. -/
theorem isOperator_escaped :
    let source := "func \x60+\x60() \x7b\x7d"
    (parse source).faults = [] ∧
      (∃ d ∈ preorderOfAll (Analysis.ofSource .default source).declarations,
        d.kind = .function ∧ d.facts.isOperator = true) ∧
      ∃ s ∈ Site.all (parse source).tree, s.node.kind = .functionDecl ∧
        (s.node.tree.childOf? .name).map Tree.allWords = some [⟨.identifier, "\x60+\x60"⟩] := by
  intro source
  have hclean : (parse source).faults = [] := by decide +kernel
  have hany : ((preorderOfAll (Analysis.ofSource .default source).declarations).any fun d =>
      d.kind == .function && d.facts.isOperator) = true := by decide +kernel
  have hname : ((Site.all (parse source).tree).any fun s => s.node.kind == .functionDecl &&
      (s.node.tree.childOf? .name).map Tree.allWords == some [⟨.identifier, "\x60+\x60"⟩]) =
        true := by
    decide +kernel
  refine ⟨hclean, by simpa using hany, ?_⟩
  obtain ⟨s, hs, hboth⟩ := List.any_eq_true.1 hname
  rw [Bool.and_eq_true, beq_iff_eq, beq_iff_eq] at hboth
  exact ⟨s, hs, hboth⟩

end Declaration

end SwiftOutline

import Mathlib.Computability.Language
import Mathlib.Order.CompletePartialOrder
import SwiftOutline.Proofs.Solid

/-!
# SwiftOutline.Proofs.Parts

What stands directly in a node, in order.

* `Part`, `Parts` — a child of a node without what is below it, and languages of rows of these;
* `Kind.parts` — the rows of parts that a node of a kind has where nothing is missing;
* `Sketch.Regular`, `Tree.Regular` — every node has the parts of its kind;
* `Rule.Yields` — what a rule takes is regular if it is clean, and is a row of a language.

The language of a rule is put together as the rule is: `Yields.seq` is the product, `Yields.many`
the star, and `Yields.node` asks that a rule has the language of the kind it makes.
-/

namespace SwiftOutline

open scoped Computability

/-! ## rows of parts -/

/-- A child of a node: a word, or a node of which only the kind is seen. -/
inductive Part where
  | word (l : Lexeme)
  | node (k : Kind)
  deriving DecidableEq, Repr

/-- Rows of parts. -/
abbrev Parts := Language Part

namespace Parts

/-- One word, of which something holds. -/
def wordWhere (p : Lexeme → Prop) : Parts := {ps : List Part | ∃ l, p l ∧ ps = [.word l]}

/-- One word of some kinds. -/
def wordOf (ks : List Kind) : Parts := wordWhere (·.kind ∈ ks)

/-- One word of a kind. -/
def word (k : Kind) : Parts := wordOf [k]

/-- One identifier that is spelled in one of some ways. -/
def named (names : List String) : Parts :=
  wordWhere fun l => l.kind = .identifier ∧ l.text ∈ names

/-- One word of any kind. -/
def anyWord : Parts := wordWhere fun _ => True

/-- Any number of words. -/
def words : Parts := anyWord∗

/-- One node of some kinds. -/
def nodeOf (ks : List Kind) : Parts := {ps : List Part | ∃ k ∈ ks, ps = [.node k]}

/-- One node of a kind. -/
def node (k : Kind) : Parts := nodeOf [k]

/-- What may be left out. -/
def optional (L : Parts) : Parts := L + 1

/-- One after the other. -/
def row : List Parts → Parts
  | [] => 1
  | [L] => L
  | L :: M :: Ls => L * row (M :: Ls)

/-- The same several times, at least once. -/
def several (L : Parts) : Parts := L * L∗

/-- What follows an element of a list with commas. -/
def more (L : Parts) : Parts := (word .comma * L)∗

/-- A list with commas. -/
def list (L : Parts) : Parts := L * more L

/-- A list with commas that may be empty or end with a comma. -/
def looseList (L : Parts) : Parts := optional (L * (more L * optional (word .comma)))

/-- A type. -/
def type : Parts := nodeOf Kind.types

/-- The label of a type with its colon, if there is one. -/
def typeLabel : Parts :=
  row [word .identifier, word .colon] + optional (row [word .identifier, word .identifier,
    word .colon])

/-- The items of a scope. -/
def scope : Parts := (nodeOf (Kind.declarations ++ [.statement]) + word .semicolon)∗

/-- A word that says who owns a value. -/
def ownership : Parts := word .kwInout + named Grammar.ownershipNames

/-- An effect of a function. -/
def effect : Parts :=
  word .kwThrows * optional (word .openParen * words) +
    (word .kwRethrows + named ["async", "reasync"])

end Parts

open Parts

namespace Kind

/-- A declaration with members and a name, from its keyword on. -/
def nominalParts (keyword : Parts) : Parts :=
  row [keyword, node .name, optional (node .genericParameterClause),
    optional (node .inheritanceClause), optional (node .genericWhereClause), node .memberBlock]

/-- The parts of a declaration from its keyword on. -/
def fromKeyword : Kind → Parts
  | .classDecl => nominalParts (word .kwClass)
  | .structDecl => nominalParts (word .kwStruct)
  | .enumDecl => nominalParts (word .kwEnum)
  | .protocolDecl => nominalParts (word .kwProtocol)
  | .actorDecl => nominalParts (named ["actor"])
  | .extensionDecl =>
    row [word .kwExtension, type, optional (node .inheritanceClause),
      optional (node .genericWhereClause), node .memberBlock]
  | .functionDecl =>
    row [word .kwFunc, node .name, optional (node .genericParameterClause),
      node .functionSignature, optional (node .genericWhereClause), optional (node .codeBlock)]
  | .initializerDecl =>
    row [word .kwInit, optional (wordOf [.question, .bang]),
      optional (node .genericParameterClause), node .functionSignature,
      optional (node .genericWhereClause), optional (node .codeBlock)]
  | .deinitializerDecl => row [word .kwDeinit, optional (node .codeBlock)]
  | .subscriptDecl =>
    row [word .kwSubscript, optional (node .genericParameterClause), node .parameterClause,
      optional (node .returnClause), optional (node .genericWhereClause),
      optional (node .accessorBlock)]
  | .variableDecl => row [wordOf [.kwVar, .kwLet], node .patternBindingList]
  | .typeAliasDecl =>
    row [word .kwTypealias, node .name, optional (node .genericParameterClause),
      node .typeInitializer, optional (node .genericWhereClause)]
  | .associatedTypeDecl =>
    row [word .kwAssociatedtype, node .name, optional (node .inheritanceClause),
      optional (node .typeInitializer), optional (node .genericWhereClause)]
  | .importDecl => row [word .kwImport, optional (wordOf Grammar.importKinds), node .importPath]
  | .operatorDecl => row [word .kwOperator, node .name, optional (node .precedenceDesignation)]
  | .precedenceGroupDecl =>
    row [word .kwPrecedencegroup, node .name, word .openBrace, (node .precedenceGroupAttribute)∗,
      word .closeBrace]
  | .enumCaseDecl => row [word .kwCase, list (node .enumCaseElement)]
  | .ifConfigDecl => row [several (node .ifConfigClause), word .poundEndif]
  | _ => 0

/-- The parts of a node, in order. A declaration is what its keyword starts, with attributes and
modifiers before it; words that are no nodes have no parts. -/
def parts : Kind → Parts
  | .sourceFile => scope
  | .memberBlock | .codeBlock => row [word .openBrace, scope, word .closeBrace]
  | .statement | .expression | .ifConfigCondition => several anyWord
  | .attributeList => several (node .attribute)
  | .attribute => row [word .atSign, node .name, optional (node .attributeArguments)]
  | .attributeArguments =>
    row [word .openParen, looseList (node .attributeArgument), word .closeParen]
  | .attributeArgument => words
  | .modifierList => several (node .modifier)
  | .modifier => row [anyWord, optional (node .modifierDetail)]
  | .modifierDetail | .tuplePattern => row [word .openParen, words]
  | .name =>
    row [anyWord, (word .dot * word .identifier)∗] + several (wordOf Grammar.operatorMarks)
  | .genericParameterClause =>
    row [word .openAngle, looseList (node .genericParameter), word .closeAngle]
  | .genericParameter =>
    row [optional (node .attributeList), optional (named ["each"]), node .name,
      optional (row [word .colon, type]), optional (word .ellipsis)]
  | .genericWhereClause => row [word .kwWhere, list (node .genericRequirement)]
  | .genericRequirement =>
    row [type, wordWhere (fun l => l.kind = .colon ∨ l = ⟨.customOperator, "=="⟩), type]
  | .genericArgumentClause => row [word .openAngle, looseList type, word .closeAngle]
  | .inheritanceClause => row [word .colon, list (node .inheritedType)]
  | .inheritedType => type
  | .annotatedType => row [word .colon, type]
  | .typeInitializer => row [word .equals, type]
  | .returnClause => row [word .arrow, type]
  | .initializer => row [word .equals, node .expression]
  | .patternBindingList => list (node .patternBinding)
  | .patternBinding =>
    row [nodeOf [.identifierPattern, .tuplePattern], optional (node .annotatedType),
      optional (node .initializer), optional (node .accessorBlock)]
  | .identifierPattern => word .identifier
  | .accessorBlock =>
    row [word .openBrace, (node .accessorDecl)∗ + scope, word .closeBrace]
  | .accessorDecl =>
    row [optional (node .attributeList), optional (node .modifierList), anyWord,
      optional (node .accessorParameter), optional (node .effectSpecifiers),
      optional (node .codeBlock)]
  | .accessorParameter => row [word .openParen, word .identifier, word .closeParen]
  | .effectSpecifiers => several effect
  | .functionSignature =>
    row [node .parameterClause, optional (node .effectSpecifiers), optional (node .returnClause)]
  | .parameterClause =>
    row [word .openParen, looseList (node .functionParameter), word .closeParen]
  | .functionParameter =>
    row [optional (node .attributeList), wordOf Grammar.parameterWords,
      optional (wordOf Grammar.parameterWords), node .annotatedType, optional (word .ellipsis),
      optional (node .initializer), words]
  | .importPath =>
    row [word .identifier, (word .dot * word .identifier)∗,
      optional (row [word .dot, (wordOf Grammar.operatorMarks)∗])]
  | .precedenceDesignation => row [word .colon, list (word .identifier)]
  | .precedenceGroupAttribute =>
    row [word .identifier, word .colon, wordOf [.identifier, .boolean],
      (word .comma * word .identifier)∗]
  | .enumCaseElement =>
    row [node .name, optional (node .enumCaseParameterClause), optional (node .initializer)]
  | .enumCaseParameterClause =>
    row [word .openParen, looseList (node .enumCaseParameter), word .closeParen]
  | .enumCaseParameter => row [typeLabel, type, optional (node .initializer)]
  | .ifConfigClause =>
    row [word .poundElse, scope] +
      row [wordOf [.poundIf, .poundElseif], node .ifConfigCondition, scope]
  | .typePath => row [node .typePathSegment, (word .dot * node .typePathSegment)∗]
  | .typePathSegment =>
    row [wordOf [.identifier, .kwSelfType, .kwClass, .kwProtocol],
      optional (node .genericArgumentClause)]
  | .typeOptional => row [type, word .question]
  | .typeImplicitlyUnwrapped => row [type, word .bang]
  | .typeArray => row [word .openBracket, type, word .closeBracket]
  | .typeDictionary => row [word .openBracket, type, word .colon, type, word .closeBracket]
  | .typeTuple => row [word .openParen, looseList (node .typeTupleElement), word .closeParen]
  | .typeTupleElement => row [typeLabel, type, optional (word .ellipsis)]
  | .typeFunction =>
    row [node .typeTuple, optional (node .effectSpecifiers), word .arrow, type]
  | .typeComposition => row [type, several (word .ampersand * type)]
  | .typeSome => row [named ["some"], type]
  | .typeAny => row [named ["any"], type]
  | .typeAttributed =>
    row [optional (node .attributeList), ownership∗, optional (node .attributeList), type]
  | k => row [optional (node .attributeList), optional (node .modifierList), k.fromKeyword]

/-- A declaration is attributes and modifiers, then what its keyword starts. -/
theorem parts_of_isDeclaration {k : Kind} (hk : k.isDeclaration = true) :
    k.parts =
      row [optional (node .attributeList), optional (node .modifierList), k.fromKeyword] := by
  cases k <;> first | rfl | cases hk

theorem mem_declarations {k : Kind} (hk : k.isDeclaration = true) : k ∈ declarations := by
  cases k <;> first | decide | cases hk

end Kind

/-! ## trees and sketches -/

namespace Tree

/-- A tree as its parent sees it. -/
def part : Tree → Part
  | .node k _ => .node k
  | .token k s => .word ⟨k, s⟩

/-- The parts of a node, without trivia. -/
def parts (t : Tree) : List Part := (t.children.filter (!·.isTrivia)).map part

mutual

/-- Every node of a tree has the parts of its kind. -/
def Regular : Tree → Prop
  | .node k cs => cs.map part ∈ k.parts ∧ RegularAll cs
  | .token .. => True

/-- Every node of trees has the parts of its kind. -/
def RegularAll : List Tree → Prop
  | [] => True
  | t :: ts => Regular t ∧ RegularAll ts

end

theorem regularAll_iff {ts : List Tree} : RegularAll ts ↔ ∀ t ∈ ts, t.Regular := by
  induction ts with
  | nil => simp [RegularAll]
  | cons t ts ih => simp [RegularAll, ih]

theorem regularAll_append {ts us : List Tree} (ht : RegularAll ts) (hu : RegularAll us) :
    RegularAll (ts ++ us) := by
  rw [regularAll_iff] at ht hu ⊢
  intro t hmem
  obtain hmem | hmem := List.mem_append.1 hmem
  · exact ht t hmem
  · exact hu t hmem

/-- Trivia has no parts of its own. -/
theorem Regular.of_mem {k : Kind} {cs : List Tree} (h : (Tree.node k cs).bare.Regular) {c : Tree}
    (hc : c ∈ cs) : c.bare.Regular := by
  by_cases htrivia : c.isTrivia = true
  · cases c with
    | node => cases htrivia
    | token => exact True.intro
  · refine regularAll_iff.1 h.2 _ ?_
    rw [bareAll_eq]
    exact List.mem_map_of_mem (List.mem_filter.2 ⟨hc, by simpa using htrivia⟩)

theorem part_bare (t : Tree) : t.bare.part = t.part := by cases t <;> rfl

theorem map_part_bareAll (ts : List Tree) :
    (bareAll ts).map part = (ts.filter (!·.isTrivia)).map part := by
  rw [bareAll_eq, List.map_map]
  exact List.map_congr_left fun t _ => part_bare t

end Tree

namespace Sketch

/-- The parts that a run of sketches stands for. -/
def parts (ss : List Sketch) : List Part := (treesOfAll ss).map Tree.part

theorem parts_append (ss ts : List Sketch) : parts (ss ++ ts) = parts ss ++ parts ts := by
  induction ss with
  | nil => rfl
  | cons s ss ih =>
    simp only [parts, List.cons_append, treesOfAll, List.map_append, List.append_assoc] at ih ⊢
    rw [ih]

mutual

/-- Every node of a sketch has the parts of its kind, and no room for trivia besides. -/
def Regular : Sketch → Prop
  | .node k ps => .gap ∉ ps ∧ parts ps ∈ k.parts ∧ RegularAll ps
  | _ => True

/-- Every node of a run of sketches has the parts of its kind, and no room for trivia
besides. -/
def RegularAll : List Sketch → Prop
  | [] => True
  | s :: ss => Regular s ∧ RegularAll ss

end

theorem regularAll_append {ss ts : List Sketch} (hs : RegularAll ss) (ht : RegularAll ts) :
    RegularAll (ss ++ ts) := by
  induction ss with
  | nil => exact ht
  | cons s ss ih => exact ⟨hs.1, ih hs.2⟩

/-- A run of sketches is regular, leaves no room for trivia, and its parts are a row of a
language. -/
structure Yields (L : Parts) (ss : List Sketch) : Prop where
  gapless : .gap ∉ ss
  parts : parts ss ∈ L
  regular : RegularAll ss

namespace Yields

variable {L M : Parts} {ss ts : List Sketch}

theorem nil : Yields 1 [] := ⟨List.not_mem_nil, rfl, True.intro⟩

theorem word {p : Lexeme → Prop} {w : Word} (h : p w.lexeme) : Yields (wordWhere p) [.word w] :=
  ⟨by simp, ⟨w.lexeme, h, rfl⟩, True.intro, True.intro⟩

theorem mono (h : Yields L ss) (hLM : L ≤ M) : Yields M ss := ⟨h.gapless, hLM h.parts, h.regular⟩

theorem append (hs : Yields L ss) (ht : Yields M ts) : Yields (L * M) (ss ++ ts) where
  gapless := by
    rw [List.mem_append]
    exact not_or_intro hs.gapless ht.gapless
  parts := by
    rw [parts_append]
    exact Language.append_mem_mul hs.parts ht.parts
  regular := regularAll_append hs.regular ht.regular

theorem node {k : Kind} (h : Yields L ss) (hL : L ≤ k.parts) :
    Yields (Parts.node k) [.node k ss] :=
  ⟨by simp, ⟨k, by simp, rfl⟩, ⟨h.gapless, hL h.parts, h.regular⟩, True.intro⟩

end Yields

end Sketch

/-! ## laws of parts -/

namespace Parts

variable {L M N : Parts} {p q : Lexeme → Prop} {ks ls : List Kind}

theorem wordWhere_mono (h : ∀ l, p l → q l) : wordWhere p ≤ wordWhere q := by
  rintro ps ⟨l, hl, rfl⟩
  exact ⟨l, h l hl, rfl⟩

theorem wordWhere_le_anyWord : wordWhere p ≤ anyWord := wordWhere_mono fun _ _ => True.intro

theorem nodeOf_mono (h : ks ⊆ ls) : nodeOf ks ≤ nodeOf ls := by
  rintro ps ⟨k, hk, rfl⟩
  exact ⟨k, h hk, rfl⟩

theorem node_le_type {k : Kind} (hk : k ∈ Kind.types) : node k ≤ type :=
  nodeOf_mono (List.cons_subset.2 ⟨hk, List.nil_subset _⟩)

theorem one_le_optional (L : Parts) : 1 ≤ optional L := le_add_self

theorem le_optional (L : Parts) : L ≤ optional L := le_self_add

/-- A row that is not empty has a first element. -/
theorem several_of_ne_nil {ps : List Part} (h : ps ∈ L∗) (hne : ps ≠ []) : ps ∈ several L := by
  rw [← Language.one_add_self_mul_kstar_eq_kstar] at h
  exact h.resolve_left hne

end Parts

namespace Grammar

namespace Parsed

variable {ws : List Word} {L M : Parts}

/-- What was taken is regular and a row of a language, if it is clean. -/
def Yields (L : Parts) (p : Parsed ws) : Prop :=
  Sketch.CleanAll p.sketches → Sketch.Yields L p.sketches

theorem yields_done : (done ws).Yields 1 := fun _ => .nil

theorem Yields.mono {p : Parsed ws} (hp : p.Yields L) (hLM : L ≤ M) : p.Yields M :=
  fun hc => (hp hc).mono hLM

theorem Yields.append {p : Parsed ws} {q : Parsed p.rest} (hp : p.Yields L) (hq : q.Yields M) :
    (p.append q).Yields (L * M) := fun hc => by
  obtain ⟨hcp, hcq⟩ := Sketch.cleanAll_append.1 hc
  exact (hp hcp).append (hq hcq)

theorem Yields.word {r : List Word} {w : Word} {q : Parsed r} {p : Lexeme → Prop}
    (hq : q.Yields L) (hw : p w.lexeme) : (cons w q).Yields (wordWhere p * L) := fun hc =>
  (Sketch.Yields.word hw).append (hq hc.2)

theorem yields_take {w : Word} {p : Lexeme → Prop} (hw : p w.lexeme) (r : List Word) :
    (take w r).Yields (wordWhere p) := fun _ => .word hw

theorem yields_take_of {w : Word} {k : Kind} (hw : w.kind = k) (r : List Word) :
    (take w r).Yields (Parts.word k) :=
  yields_take (p := (·.kind ∈ [k])) (List.mem_singleton.2 hw) r

theorem Yields.behind {r : List Word} {w : Word} {q : Parsed r} {k : Kind} (hq : q.Yields L)
    (hw : w.kind = k) : (cons w q).Yields (Parts.word k * L) :=
  hq.word (p := (·.kind ∈ [k])) (List.mem_singleton.2 hw)

theorem Yields.node {k : Kind} {p : Parsed ws} (hp : p.Yields L) (hL : L ≤ k.parts) :
    (Parsed.node k p).Yields (Parts.node k) := fun hc => (hp hc.1).node hL

/-- What takes a word and repeats parts has one of them. -/
theorem Yields.several {p : Parsed ws} (hp : p.Yields L∗) (hlt : p.rest.length < ws.length) :
    p.Yields (Parts.several L) := fun hc => by
  obtain ⟨hgapless, hparts, hregular⟩ := hp hc
  refine ⟨hgapless, several_of_ne_nil hparts fun hnil => ?_, hregular⟩
  have htokens := Sketch.tokens_treesOfAll p.sketches
  rw [List.map_eq_nil_iff.1 hnil] at htokens
  exact wordsOfAll_ne_nil hlt (List.map_eq_nil_iff.1 htokens.symm)

end Parsed

namespace Rule

variable {n : Nat} {c d : List Word → Bool} {L M : Parts} {P : Lexeme → Prop}

/-- What a rule takes where a condition holds is regular and a row of a language, if it is
clean. -/
def Yields (c : List Word → Bool) (L : Parts) (p : Rule n) : Prop :=
  ∀ ws h, c ws = true → (p ws h).Yields L

/-- Where a condition holds, a word stands next of which something else does. -/
def Heads (c : List Word → Bool) (P : Lexeme → Prop) : Prop :=
  c [] = false ∧ ∀ w r, c (w :: r) = true → P w.lexeme

theorem Heads.mono {Q : Lexeme → Prop} (h : Heads c P) (hPQ : ∀ l, P l → Q l) : Heads c Q :=
  ⟨h.1, fun w r hc => hPQ _ (h.2 w r hc)⟩

theorem heads_atWord : Heads atWord fun _ => True := ⟨rfl, fun _ _ _ => True.intro⟩

theorem heads_atAny (ks : List Kind) : Heads (atAny ks) (·.kind ∈ ks) :=
  ⟨rfl, fun w r h => by simpa [atAny, kind?, Word.lexeme] using h⟩

theorem heads_at? (k : Kind) : Heads (at? k) (·.kind ∈ [k]) :=
  ⟨rfl, fun w r h => by simpa [at?, kind?, Word.lexeme] using h⟩

theorem heads_atName (names : List String) :
    Heads (atName names) fun l => l.kind = .identifier ∧ l.text ∈ names :=
  ⟨rfl, fun w r h => by simpa [atName, Word.lexeme] using h⟩

theorem Heads.and_left (h : Heads c P) (t : List Word → Bool) :
    Heads (fun ws => c ws && t ws) P :=
  ⟨by simp [h.1], fun w r hc => h.2 w r (Bool.and_elim_left hc)⟩

theorem Heads.of_imp (h : Heads d P) (hcd : ∀ ws, c ws = true → d ws = true) : Heads c P :=
  ⟨Bool.eq_false_iff.2 fun hnil => by simpa [h.1] using hcd [] hnil,
    fun w r hc => h.2 w r (hcd _ hc)⟩

theorem Yields.of_anywhere {p : Rule n} (hp : Yields anywhere L p) : Yields c L p :=
  fun ws h _ => hp ws h rfl

theorem Yields.of_imp {p : Rule n} (hp : Yields d L p) (hcd : ∀ ws, c ws = true → d ws = true) :
    Yields c L p := fun ws h hc => hp ws h (hcd ws hc)

theorem Yields.mono {p : Rule n} (hp : Yields c L p) (hLM : L ≤ M) : Yields c M p :=
  fun ws h hc => (hp ws h hc).mono hLM

theorem yields_done : Yields c 1 (done : Rule n) := fun _ _ _ => Parsed.yields_done

theorem yields_fault (f : Fault) : Yields c L (fault f : Rule n) := fun _ _ _ hc => hc.1.elim

/-- Behind a fault anything may follow. -/
theorem yields_fault_seq (f : Fault) (q : Rule n) : Yields c L (fault f >> q) :=
  fun _ _ _ hc => hc.1.elim

theorem yields_bump (hc : Heads c P) : Yields c (wordWhere P) (bump : Rule n) := fun ws h hcw => by
  cases ws with
  | nil => rw [hc.1] at hcw; cases hcw
  | cons w r => exact Parsed.yields_take (hc.2 w r hcw) r

theorem Yields.seq {p q : Rule n} (hp : Yields c L p) (hq : Yields anywhere M q) :
    Yields c (L * M) (p >> q) := fun ws h hc => (hp ws h hc).append (hq _ _ rfl)

/-- A word, then what the rule for the words behind it takes. -/
theorem Yields.behind {q : Rule n} (hq : Yields d L q) (hc : Heads c P)
    (hd : ∀ w r, c (w :: r) = true → d r = true) : Yields c (wordWhere P * L) (bump >> q) :=
  fun ws h hcw => by
    cases ws with
    | nil => rw [hc.1] at hcw; cases hcw
    | cons w r => exact (hq r _ (hd w r hcw)).word (hc.2 w r hcw)

theorem Yields.node {k : Kind} {p : Rule n} (hp : Yields c L p) (hL : L ≤ k.parts) :
    Yields c (Parts.node k) (node k p) := fun ws h hc => (hp ws h hc).node hL

theorem Yields.ifAt {t : List Word → Bool} {p q : Rule n} (hp : Yields t L p)
    (hq : Yields c L q) : Yields c L (ifAt t p q) := fun ws h hc => by
  unfold Rule.ifAt
  split
  · next ht => exact hp ws h ht
  · exact hq ws h hc

/-- The second rule need only do where the first one's condition fails. -/
theorem Yields.ifAt_else {t : List Word → Bool} {p q : Rule n} (hp : Yields t L p)
    (hq : Yields (fun ws => c ws && !t ws) L q) : Yields c L (Rule.ifAt t p q) := fun ws h hc => by
  unfold Rule.ifAt
  split
  · next ht => exact hp ws h ht
  · next ht => exact hq ws h (by simp [hc, ht])

theorem Yields.optional {t : List Word → Bool} {p : Rule n} (hp : Yields t L p) :
    Yields c (Parts.optional L) (optional t p) :=
  (hp.mono (le_optional L)).ifAt (yields_done.mono (one_le_optional L))

theorem yields_eat (k : Kind) : Yields c (Parts.optional (word k)) (eat k : Rule n) :=
  (yields_bump (heads_at? k)).optional

theorem yields_expect (k : Kind) (f : Fault) : Yields c (word k) (expect k f : Rule n) :=
  (yields_bump (heads_at? k)).ifAt (yields_fault f)

theorem Yields.after {p : Rule n} (hp : Yields anywhere L p) (hc : Heads c P) :
    Yields c (wordWhere P * L) (after p) := fun ws h hcw => by
  cases ws with
  | nil => rw [hc.1] at hcw; cases hcw
  | cons w r => exact (hp r _ rfl).word (hc.2 w r hcw)

theorem Yields.advancing {t : List Word → Bool} {p : Rule (n + 1)} {q : Rule n}
    (hp : Yields t L p) (ha : Advances t p) (hq : Yields anywhere M q) :
    Yields t (L * M) (advancing t p ha q) := fun ws h ht => by
  unfold Rule.advancing
  rw [dif_pos ht]
  exact (hp ws h ht).append (hq _ _ rfl)

theorem ne_nil_of_seq {p q : Rule n} {ws : List Word} {h : ws.length < n}
    (hrest : ((p >> q) ws h).rest ≠ []) : (p ws h).rest ≠ [] :=
  Parsed.ne_nil_of_rest (p := q _ _) hrest

/-- What was expected was there, if nothing is missing. -/
theorem ne_nil_of_cleanAll_expect {k : Kind} {f : Fault} {ws : List Word} {h : ws.length < n}
    (hc : Sketch.CleanAll (expect k f ws h).sketches) : ws ≠ [] := by
  rintro rfl
  exact hc.1

/-! ## loops -/

theorem Yields.many {t : List Word → Bool} {p : Rule n} (hp : Yields t L p) (ha : Advances t p) :
    Yields anywhere L∗ (many t p ha) := fun ws h _ => by
  induction hlen : ws.length using Nat.strongRecOn generalizing ws with
  | ind l ih =>
    unfold Rule.many
    split
    · next ht =>
      have hothers := ih _ (hlen ▸ ha ws h ht) _ (Nat.lt_trans (ha ws h ht) h) rfl rfl
      exact ((hp ws h ht).append hothers).mono mul_kstar_le_kstar
    · exact Parsed.yields_done.mono one_le_kstar

theorem Yields.many_at {t : List Word → Bool} {p : Rule n} (hp : Yields t L p)
    (ha : Advances t p) : Yields t (several L) (Rule.many t p ha) := fun ws h ht => by
  unfold Rule.many
  rw [dif_pos ht]
  exact (hp ws h ht).append (hp.many ha _ _ rfl)

/-- A loop that leaves a word need only be told what its turns take where they leave one. -/
theorem many_of_rest {t : List Word → Bool} {p : Rule n}
    (hp : ∀ ws h, t ws = true → (p ws h).rest ≠ [] → (p ws h).Yields L) (ha : Advances t p)
    (ws : List Word) (h : ws.length < n) (hrest : (Rule.many t p ha ws h).rest ≠ []) :
    (Rule.many t p ha ws h).Yields L∗ := by
  induction hlen : ws.length using Nat.strongRecOn generalizing ws with
  | ind l ih =>
    unfold Rule.many at hrest ⊢
    split
    · next ht =>
      rw [dif_pos ht] at hrest
      have hothers := ih _ (hlen ▸ ha ws h ht) _ (Nat.lt_trans (ha ws h ht) h) hrest rfl
      have hfirst := hp ws h ht (Parsed.ne_nil_of_rest hrest)
      exact (hfirst.append hothers).mono mul_kstar_le_kstar
    · exact Parsed.yields_done.mono one_le_kstar

theorem Yields.whileAt {t : List Word → Bool} {p : Rule n} (hp : Yields d L p)
    (ht : ∀ w r, t (w :: r) = true → P w.lexeme)
    (hd : ∀ w r, t (w :: r) = true → d r = true) :
    Yields anywhere (wordWhere P * L)∗ (whileAt t p) := fun ws h _ => by
  induction hlen : ws.length using Nat.strongRecOn generalizing ws with
  | ind l ih =>
    subst hlen
    cases ws with
    | nil =>
      unfold Rule.whileAt
      exact Parsed.yields_done.mono one_le_kstar
    | cons w r =>
      unfold Rule.whileAt
      split
      · next htw =>
        have hfirst := hp r (Nat.lt_trans (Nat.lt_succ_self _) h) (hd w r htw)
        refine ((hfirst.append (ih _ ?_ _ _ rfl rfl)).word (ht w r htw)).mono ?_
        · exact Nat.lt_succ_of_le (Parsed.length_rest_le _)
        · rw [← mul_assoc]
          exact mul_kstar_le_kstar
      · exact Parsed.yields_done.mono one_le_kstar

theorem Yields.whileAt_at {t : List Word → Bool} {p : Rule n} (hp : Yields d L p)
    (ht : Heads t P) (hd : ∀ w r, t (w :: r) = true → d r = true) :
    Yields t (several (wordWhere P * L)) (Rule.whileAt t p) := fun ws h htw => by
  cases ws with
  | nil => rw [ht.1] at htw; cases htw
  | cons w r =>
    unfold Rule.whileAt
    rw [if_pos htw, several, mul_assoc]
    have hfirst := hp r (Nat.lt_trans (Nat.lt_succ_self _) h) (hd w r htw)
    exact (hfirst.append (hp.whileAt ht.2 hd _ _ rfl)).word (ht.2 w r htw)

/-- A loop that takes one word after the other. -/
theorem yields_whileAt_done {t : List Word → Bool}
    (ht : ∀ w r, t (w :: r) = true → P w.lexeme) :
    Yields anywhere (wordWhere P)∗ (whileAt t done : Rule n) := by
  have hloop := (yields_done (n := n) (c := anywhere)).whileAt ht fun _ _ _ => rfl
  rwa [mul_one] at hloop

/-- What follows the first element of a list, and how the list may end. -/
theorem Yields.commaTail {t : List Word → Bool} {p : Rule n} (hp : Yields t L p)
    (hM : 1 ≤ M) (hcomma : ∀ r, t r = false → word .comma ≤ M) :
    Yields anywhere (more L * M) (commaTail t p) := fun ws h _ => by
  have hend : M ≤ more L * M := by
    have hle := mul_le_mul_left (one_le_kstar (a := word .comma * L)) M
    rwa [one_mul] at hle
  induction hlen : ws.length using Nat.strongRecOn generalizing ws with
  | ind l ih =>
    subst hlen
    cases ws with
    | nil =>
      unfold Rule.commaTail
      exact Parsed.yields_done.mono (hM.trans hend)
    | cons w r =>
      unfold Rule.commaTail
      split
      · next hk =>
        split
        · next ht =>
          have hfirst := hp r (Nat.lt_trans (Nat.lt_succ_self _) h) ht
          refine ((hfirst.append (ih _ ?_ _ _ rfl rfl)).behind hk).mono ?_
          · exact Nat.lt_succ_of_le (Parsed.length_rest_le _)
          · rw [← mul_assoc, ← mul_assoc]
            exact mul_le_mul_left mul_kstar_le_kstar _
        · next ht =>
          exact (Parsed.yields_take_of hk r).mono ((hcomma r (by simpa using ht)).trans hend)
      · exact Parsed.yields_done.mono (hM.trans hend)

theorem Yields.commaList {t : List Word → Bool} {p : Rule n} (hp : Yields t L p) :
    Yields c (looseList L) (commaList t p) := by
  have htail := hp.commaTail (one_le_optional (word .comma)) fun _ _ => le_optional _
  exact (hp.seq htail).optional

/-- A list that asks for another element after every comma has none behind its last one. -/
theorem Yields.commaList_true {p : Rule n} (hp : Yields anywhere L p) :
    Yields c (Parts.list L) (Rule.commaList (fun _ => true) p) := fun ws h _ => by
  have htail : Yields anywhere (more L * 1) (Rule.commaTail (fun _ => true) p) :=
    Yields.commaTail hp le_rfl fun _ ht => absurd ht (by simp)
  rw [mul_one] at htail
  exact (hp.seq htail) ws h rfl

end Rule

end Grammar

end SwiftOutline

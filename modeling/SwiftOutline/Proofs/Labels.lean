import SwiftOutline.Parameter
import SwiftOutline.Proofs.Complete

/-!
# SwiftOutline.Proofs.Labels

The names of parameters in a source file without faults.

* `Tree.labels`, `Tree.behindType` — what is written before the colon of a parameter's type, and
  what stands behind the type;
* `Parameter.Row` — a parameter in order, as the rows of parts of both kinds of parameters are;
* `Tree.Labelled` — the first name that is read is the first one written, and the second name is
  the second one, unless there is none and a word left over behind the type takes its place;
* `Site.labelled_of_mem_all` — so it is for all parameters of a source file without faults.
-/

namespace SwiftOutline

open Parts

/-! ## words in rows of parts -/

/-- The word that a part is. -/
def Part.word? : Part → Option Lexeme
  | .word l => some l
  | .node _ => none

@[simp] theorem Part.word?_word (l : Lexeme) : (Part.word l).word? = some l := rfl

@[simp] theorem Part.word?_node (k : Kind) : (Part.node k).word? = none := rfl

/-- The words directly below a tree are those of its parts. -/
theorem Tree.words_eq_filterMap_parts (t : Tree) : t.words = t.parts.filterMap Part.word? := by
  rw [words, parts]
  induction t.children with
  | nil => rfl
  | cons c cs ih =>
    cases c with
    | node k ts => exact ih
    | token k s =>
      cases h : k.isTrivia <;>
        simpa [List.filter_cons, isWord, isTrivia, isNode, part, Part.word?, kind, ownText, h]
          using ih

namespace Parts

variable {ps : List Part} {L : Parts} {p : Lexeme → Prop}

theorem mem_optional : ps ∈ optional L ↔ ps ∈ L ∨ ps = [] := Iff.rfl

theorem exists_of_mem_optional_wordWhere (h : ps ∈ optional (wordWhere p)) :
    ∃ l : Option Lexeme, (∀ w ∈ l, p w) ∧ ps = l.toList.map .word := by
  obtain ⟨w, hw, rfl⟩ | rfl := mem_optional.1 h
  · exact ⟨some w, by simpa using hw, rfl⟩
  · exact ⟨none, by simp, rfl⟩

theorem eq_of_mem_node {k : Kind} (h : ps ∈ node k) : ps = [.node k] := by
  obtain ⟨j, hj, rfl⟩ := h
  rw [List.mem_singleton.1 hj]

end Parts

/-! ## what is written -/

/-- Whether a part is the type of a parameter, alone or with its colon. -/
def Part.isTyping : Part → Bool
  | .word _ => false
  | .node k => k == .annotatedType || k.isType

/-- Whether a part ends the names of a parameter. -/
def Part.endsLabels : Part → Bool
  | .word l => l.kind == .colon
  | .node k => k == .annotatedType || k.isType

namespace Tree

/-- The names of a parameter as written: the words before the colon. -/
def labels (t : Tree) : List Lexeme :=
  (t.parts.takeWhile (!·.endsLabels)).filterMap Part.word?

/-- What stands directly behind the type of a parameter. -/
def behindType (t : Tree) : List Part := (t.parts.dropWhile (!·.isTyping)).tail

/-- The words directly behind the type of a parameter. -/
def leftovers (t : Tree) : List Lexeme := t.behindType.filterMap Part.word?

end Tree

namespace Parameter

/-- Names are read up to a colon. -/
theorem namesIn_append {ls : List Lexeme} (h : ∀ w ∈ ls, w.kind ∈ Grammar.parameterWords)
    (ws : List Lexeme) : namesIn (ls ++ ws) = (ls.map fun w => unescape w.text) ++ namesIn ws := by
  have hkinds {k : Kind} (hk : k ∉ Grammar.parameterWords) : ∀ w ∈ ls, (w.kind != k) = true := by
    intro w hw
    have hne : w.kind ≠ k := fun heq => hk (heq ▸ h w hw)
    simpa using hne
  rw [namesIn, List.takeWhile_append_of_pos (hkinds (by decide)), List.filter_append,
    List.filter_eq_self.2 (hkinds (by decide)), List.map_append, namesIn]

theorem namesIn_cons_colon {w : Lexeme} (h : w.kind = .colon) (ws : List Lexeme) :
    namesIn (w :: ws) = [] := by
  simp [namesIn, h]

/-- What may stand behind the type of a parameter. -/
def tail : Parts := row [optional (word .ellipsis), optional (node .initializer), words]

/-- A parameter in order. -/
structure Row where
  attributes : List Part
  names : List Lexeme
  colon : Option Lexeme
  type : Kind
  behind : List Part
  eq_attributeList : ∀ p ∈ attributes, p = .node .attributeList
  names_kind : ∀ w ∈ names, w.kind ∈ Grammar.parameterWords
  names_length : names.length ≤ 2
  colon_kind : ∀ w ∈ colon, w.kind = .colon
  type_kind : (Part.node type).isTyping = true
  behind_mem : behind ∈ tail

namespace Row

/-- The parts of a parameter. -/
def parts (r : Row) : List Part :=
  r.attributes ++ (r.names.map .word ++ (r.colon.toList.map .word ++ .node r.type :: r.behind))

theorem exists_of_functionParameter {ps : List Part} (h : ps ∈ Kind.parts .functionParameter) :
    ∃ r : Row, ps = r.parts ∧ r.names ≠ [] ∧ r.colon = none := by
  obtain ⟨attributes, hattributes, _, ⟨_, ⟨first, hfirst, rfl⟩, _, ⟨_, hsecond, _,
    ⟨_, htype, behind, hbehind, rfl⟩, rfl⟩, rfl⟩, rfl⟩ := h
  obtain ⟨second, hkind, rfl⟩ := exists_of_mem_optional_wordWhere hsecond
  obtain rfl := eq_of_mem_node htype
  refine ⟨⟨attributes, first :: second.toList, none, .annotatedType, behind, ?_, ?_, ?_, by simp,
    rfl, hbehind⟩, by simp [parts], by simp, rfl⟩
  · intro p hp
    obtain hmem | rfl := mem_optional.1 hattributes
    · rw [eq_of_mem_node hmem] at hp
      exact List.mem_singleton.1 hp
    · cases hp
  · rw [List.forall_mem_cons]
    exact ⟨hfirst, fun w hw => hkind w (Option.mem_toList.1 hw)⟩
  · cases second <;> simp

/-- The label of a type is one name or two with a colon, or nothing. -/
theorem exists_of_typeLabel {ps : List Part} (h : ps ∈ typeLabel) :
    ∃ (names : List Lexeme) (colon : Option Lexeme), (∀ w ∈ names, w.kind = .identifier) ∧
      names.length ≤ 2 ∧ (∀ w ∈ colon, w.kind = .colon) ∧
      ps = names.map .word ++ colon.toList.map .word := by
  obtain ⟨_, ⟨first, hfirst, rfl⟩, _, ⟨colon, hcolon, rfl⟩, rfl⟩ |
    ⟨_, ⟨first, hfirst, rfl⟩, _, ⟨_, ⟨second, hsecond, rfl⟩, _, ⟨colon, hcolon, rfl⟩, rfl⟩, rfl⟩ |
    rfl := h
  · exact ⟨[first], some colon, by simpa using hfirst, by simp, by simpa using hcolon, rfl⟩
  · refine ⟨[first, second], some colon, ?_, le_rfl, by simpa using hcolon, rfl⟩
    simpa using And.intro (List.mem_singleton.1 hfirst) (List.mem_singleton.1 hsecond)
  · exact ⟨[], none, by simp, by simp, by simp, rfl⟩

theorem exists_of_enumCaseParameter {ps : List Part} (h : ps ∈ Kind.parts .enumCaseParameter) :
    ∃ r : Row, ps = r.parts ∧ r.behind.filterMap Part.word? = [] := by
  obtain ⟨_, hlabel, _, ⟨_, ⟨type, htype, rfl⟩, behind, hbehind, rfl⟩, rfl⟩ := h
  obtain ⟨names, colon, hnames, hlength, hcolon, rfl⟩ := exists_of_typeLabel hlabel
  have htail : behind ∈ tail := by
    refine ⟨[], .inr rfl, behind, ⟨behind, hbehind, [], Language.nil_mem_kstar _, ?_⟩, rfl⟩
    exact List.append_nil _
  refine ⟨⟨[], names, colon, type, behind, by simp, ?_, hlength, hcolon, ?_, htail⟩,
    by simp [parts], ?_⟩
  · intro w hw
    simp [hnames w hw, Grammar.parameterWords]
  · revert htype
    cases type <;> decide
  · obtain hmem | hnil := mem_optional.1 hbehind
    · simp [eq_of_mem_node hmem]
    · simp [hnil]

variable {r : Row} {t : Tree}

theorem word?_of_mem_attributes : r.attributes.filterMap Part.word? = [] := by
  rw [List.filterMap_eq_nil_iff]
  intro p hp
  rw [r.eq_attributeList p hp]
  rfl

theorem labels_eq (h : t.parts = r.parts) : t.labels = r.names := by
  have hattributes : ∀ p ∈ r.attributes, (!p.endsLabels) = true := fun p hp => by
    rw [r.eq_attributeList p hp]
    rfl
  have hnames : ∀ p ∈ r.names.map Part.word, (!p.endsLabels) = true := by
    simp only [List.forall_mem_map]
    intro w hw
    have hkind := r.names_kind w hw
    have hcolon : w.kind ≠ .colon := by
      rintro heq
      rw [heq] at hkind
      revert hkind
      decide
    simpa [Part.endsLabels] using hcolon
  have hend : (r.colon.toList.map Part.word ++ .node r.type :: r.behind).takeWhile
      (!·.endsLabels) = [] := by
    cases hcolon : r.colon with
    | none =>
      simpa [Part.endsLabels, Part.isTyping, Classical.or_iff_not_imp_left] using r.type_kind
    | some w => simp [Part.endsLabels, r.colon_kind w hcolon]
  rw [Tree.labels, h, parts, List.takeWhile_append_of_pos hattributes,
    List.takeWhile_append_of_pos hnames, hend]
  simp [word?_of_mem_attributes, Function.comp_def]

theorem behindType_eq (h : t.parts = r.parts) : t.behindType = r.behind := by
  have hattributes : ∀ p ∈ r.attributes, (!p.isTyping) = true := fun p hp => by
    rw [r.eq_attributeList p hp]
    rfl
  have hwords (ls : List Lexeme) : ∀ p ∈ ls.map Part.word, (!p.isTyping) = true := by
    simp [Part.isTyping]
  rw [Tree.behindType, h, parts, List.dropWhile_append_of_pos hattributes,
    List.dropWhile_append_of_pos (hwords _), List.dropWhile_append_of_pos (hwords _),
    List.dropWhile_cons_of_neg (by simp [r.type_kind]), List.tail_cons]

theorem words_eq (h : t.parts = r.parts) :
    t.words = r.names ++ (r.colon.toList ++ r.behind.filterMap Part.word?) := by
  simp [Tree.words_eq_filterMap_parts, h, parts, word?_of_mem_attributes, Function.comp_def,
    List.filterMap_cons]

/-- The names that are read are those written and those that are read behind the type. -/
theorem namesIn_words (h : t.parts = r.parts) (hr : r.colon = none ∨ t.leftovers = []) :
    namesIn t.words = (t.labels.map fun w => unescape w.text) ++ namesIn t.leftovers := by
  rw [words_eq h, namesIn_append r.names_kind, labels_eq h]
  rw [Tree.leftovers, behindType_eq h] at hr ⊢
  cases hcolon : r.colon with
  | none => rfl
  | some w =>
    rw [hr.resolve_left (by simp [hcolon]), Option.toList_some, List.singleton_append,
      namesIn_cons_colon (r.colon_kind w hcolon)]
    rfl

end Row

end Parameter

/-! ## names that are read -/

/-- The names that are read for a parameter, by what is written for it. -/
structure Tree.Labelled (t : Tree) : Prop where
  length_labels_le : t.labels.length ≤ 2
  labels_kind : ∀ w ∈ t.labels, w.kind ∈ Grammar.parameterWords
  /-- The parameters of a function have names. -/
  labels_ne_nil : t.kind = .functionParameter → t.labels ≠ []
  /-- Behind the type there may be an ellipsis and a default, and any words. -/
  behind : t.behindType ∈ Parameter.tail
  /-- Nothing is left over in an enum case. -/
  leftovers_eq_nil : t.kind = .enumCaseParameter → t.leftovers = []
  first : (Parameter.ofNode t).firstName = (t.labels[0]?).map fun w => unescape w.text
  second : (Parameter.ofNode t).secondName =
    ((t.labels.map fun w => unescape w.text) ++ Parameter.namesIn t.leftovers)[1]?
  /-- The second name is as written if there is one, or if nothing but ellipses is left over before
  a colon. -/
  second_iff : ((Parameter.ofNode t).secondName = (t.labels[1]?).map fun w => unescape w.text) ↔
    t.labels.length = 2 ∨ ∀ w ∈ t.leftovers.takeWhile (·.kind != .colon), w.kind = .ellipsis

namespace Parameter

theorem namesIn_eq_nil_iff {ws : List Lexeme} :
    namesIn ws = [] ↔ ∀ w ∈ ws.takeWhile (·.kind != .colon), w.kind = .ellipsis := by
  simp [namesIn]

/-- Of two names and more the second one is as it was, of one it is the next, if there is one. -/
theorem getElem?_one_append_iff {α : Type} {ls : List α} (h : ls.length ≤ 2) (ms : List α)
    (hne : ls ≠ [] ∨ ms = []) : (ls ++ ms)[1]? = ls[1]? ↔ ls.length = 2 ∨ ms = [] := by
  match ls, ms with
  | [], _ => simp_all
  | [a], [] => simp
  | [a], b :: ms => simp
  | [a, b], ms => simp
  | a :: b :: c :: ls, _ => simp at h

/-- The names of a parameter that is written in order. -/
theorem Row.labelled {r : Row} {t : Tree} (h : t.parts = r.parts)
    (hfunction : t.kind = .functionParameter → r.names ≠ [])
    (hcase : t.kind = .enumCaseParameter → t.leftovers = [])
    (hr : (r.names ≠ [] ∧ r.colon = none) ∨ t.leftovers = []) : t.Labelled := by
  have hnames := r.namesIn_words h (hr.imp_left (·.2))
  have hlabels := labels_eq h
  have hnil : t.leftovers = [] → namesIn t.leftovers = [] := fun hnil => by simp [hnil, namesIn]
  have hne : (t.labels.map fun w => unescape w.text) ≠ [] ∨ namesIn t.leftovers = [] := by
    refine hr.imp (fun hrow => ?_) hnil
    simpa [hlabels] using hrow.1
  have hlength : t.labels.length ≤ 2 := hlabels ▸ r.names_length
  refine ⟨hlength, hlabels ▸ r.names_kind, hlabels ▸ hfunction, behindType_eq h ▸ r.behind_mem,
    hcase, ?_, ?_, ?_⟩
  · rw [ofNode, hnames, ← List.getElem?_map]
    obtain hne | hnil := hne
    · exact List.getElem?_append_left (List.length_pos_iff.2 hne)
    · rw [hnil, List.append_nil]
  · rw [ofNode, hnames]
  · rw [← namesIn_eq_nil_iff, ← List.getElem?_map, ofNode, hnames]
    simpa using getElem?_one_append_iff (by simpa using hlength) _ hne

end Parameter

namespace Site

variable {source : String} {s : Site}

/-- In a source file without faults a node has the parts of its kind. -/
theorem parts_mem_of_kind (hclean : (parse source).faults = []) (h : s ∈ all (parse source).tree)
    {k : Kind} (hk : s.node.kind = k) : s.node.tree.parts ∈ k.parts := by
  obtain ⟨hnode, hregular⟩ := regular_of_mem_all hclean h
  obtain ⟨⟨t, start⟩, above⟩ := s
  cases t with
  | token => cases hnode
  | node j cs =>
    obtain rfl : j = k := hk
    rw [Tree.parts, Tree.children, ← Tree.map_part_bareAll]
    exact hregular.1

/-- The names that are read for the parameters of functions and enum cases in a source file without
faults: the first name is the first one written before the colon of the type, and the second name is
the second one written there. Where only one is written, a word that is left over behind the type
takes the place of the second, which happens to functions alone. -/
theorem labelled_of_mem_all (hclean : (parse source).faults = [])
    (h : s ∈ all (parse source).tree)
    (hk : s.node.kind = .functionParameter ∨ s.node.kind = .enumCaseParameter) :
    s.node.tree.Labelled := by
  obtain hk | hk := hk
  · obtain ⟨r, hr, hne, hcolon⟩ :=
      Parameter.Row.exists_of_functionParameter (parts_mem_of_kind hclean h hk)
    exact Parameter.Row.labelled hr (fun _ => hne) (fun hcase => by cases hk.symm.trans hcase)
      (.inl ⟨hne, hcolon⟩)
  · obtain ⟨r, hr, hnil⟩ :=
      Parameter.Row.exists_of_enumCaseParameter (parts_mem_of_kind hclean h hk)
    have hleft : s.node.tree.leftovers = [] := by
      rw [Tree.leftovers, Parameter.Row.behindType_eq hr, hnil]
    exact Parameter.Row.labelled hr (fun hfunction => by cases hk.symm.trans hfunction)
      (fun _ => hleft) (.inr hleft)

/-- The theorem applies to the parameters of functions and enum cases, with a word left over behind
the type of one that has two names. -/
theorem labelled_of_mem_all_two :
    let source := "func f(@m a b: Int y, c: Int... = 3) {}
enum E { case g(_ x: Int, Int) }"
    (parse source).faults = [] ∧
      (∃ s ∈ all (parse source).tree, s.node.kind = .functionParameter ∧
        s.node.tree.leftovers ≠ []) ∧
      (∃ s ∈ all (parse source).tree, s.node.kind = .enumCaseParameter) ∧
      ∀ s ∈ all (parse source).tree,
        s.node.kind = .functionParameter ∨ s.node.kind = .enumCaseParameter →
          s.node.tree.Labelled := by
  intro source
  have hclean : (parse source).faults = [] := by decide +kernel
  refine ⟨hclean, ?_, ?_, fun s h hk => labelled_of_mem_all hclean h hk⟩
  · have hany : ((all (parse source).tree).any fun s =>
      s.node.kind == .functionParameter && s.node.tree.leftovers != []) = true := by
      decide +kernel
    simpa using hany
  · have hany : ((all (parse source).tree).any (·.node.kind == .enumCaseParameter)) = true := by
      decide +kernel
    simpa using hany

/-- A word behind the type of a parameter with one name becomes its second name. -/
theorem second_name_behind_type :
    let source := "func f(x: Int y) {}"
    (parse source).faults = [] ∧
      ∃ s ∈ all (parse source).tree, s.node.kind = .functionParameter ∧
        s.node.tree.labels = [⟨.identifier, "x"⟩] ∧
        s.node.tree.leftovers = [⟨.identifier, "y"⟩] ∧
        (Parameter.ofNode s.node.tree).secondName = some "y" := by
  intro source
  have hany : ((all (parse source).tree).any fun s => s.node.kind == .functionParameter &&
      (s.node.tree.labels == [⟨.identifier, "x"⟩] &&
        (s.node.tree.leftovers == [⟨.identifier, "y"⟩] &&
          (Parameter.ofNode s.node.tree).secondName == some "y"))) = true := by
    decide +kernel
  exact ⟨by decide +kernel, by simpa using hany⟩

end Site

end SwiftOutline

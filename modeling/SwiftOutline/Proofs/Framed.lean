import SwiftOutline.Proofs.Frame
import SwiftOutline.Proofs.Shape

/-!
# SwiftOutline.Proofs.Framed

Laws that the grammar keeps in whatever frames a node stands.

* `Kind.isNoted` — the kinds of nodes that such a law may say something of;
* `Made`, `MadeType` — nodes of these kinds as the rules for them make them: of a scope it is known
  that it ends where it must (`Stopping`), of a value what nodes stand around it, of an accessor
  that too and that it was announced, of a branch that the items in it fit, and of a conditional
  block that a brace behind it is the one that ends the block around (`Leads`);
* `NestedLaw.Local` — a law that holds of every such node; `NestedLaw.Local.about` is for laws about
  nodes of one kind;
* `NestedLaw.Local.keepsAll_fileSketch` — every node of a source file keeps such a law.

The lemmas follow the rules of the grammar, from types to items.
-/

namespace SwiftOutline

open Grammar

/-! ## kinds -/

namespace Kind

/-- The kinds of nodes that a law of the grammar may say something of. -/
def isNoted : Kind → Bool
  | .attribute | .expression | .statement | .functionDecl | .accessorDecl | .ifConfigDecl
  | .ifConfigClause => true
  | k => k.isBlock || k.isType

/-- The kinds of nodes below which no node is of a noted kind. -/
def isInert : Kind → Bool
  | .attributeArguments | .attributeArgument | .modifierList | .modifier | .modifierDetail | .name
  | .identifierPattern | .tuplePattern | .accessorParameter | .effectSpecifiers | .importPath
  | .precedenceDesignation | .precedenceGroupAttribute | .ifConfigCondition => true
  | _ => false

theorem isNoted_of_isInert {k : Kind} (h : k.isInert = true) : k.isNoted = false := by
  revert h
  cases k <;> decide

/-- What may stand in an inert node is inert. -/
theorem isInert_of_content {k : Kind} (h : k.isInert = true) :
    ∀ j ∈ k.content.once ++ k.content.many, j.isInert = true := by
  revert h
  cases k <;> decide

end Kind

namespace Grammar

/-- The rule for the items of a scope goes on up to a word that ends the scope. -/
def Stopping {n : Nat} (inside : List Kind → Rule n) : Prop :=
  ∀ stop ws h, atOther stop (inside stop ws h).rest = false

/-- The elements of a tuple and what closes it. -/
def tupleElements {n : Nat} (inside : Rule n) : Rule n :=
  Rule.commaList (atOther [.closeParen]) (tupleElement inside) >>
    Rule.expect .closeParen .unclosedTupleType

end Grammar

/-- A type as the rules make it: as a whole, with some of its suffixes, or as the tuple at the start
of a type of functions. -/
inductive Grammar.MadeType : Kind → List Sketch → List Word → Prop where
  | whole {ws : List Word} {k : Kind} {ps : List Sketch}
      (hps : (typeFrom ws).sketches = [.node k ps]) : MadeType k ps (typeFrom ws).rest
  | suffixed {n : Nat} {ws us vs : List Word} {k : Kind} {ps : List Sketch}
      (h : ws.length < n + 1) (hrest : (primaryType type ws h).rest = us ++ vs)
      (hwrap : wrapSuffixes (primaryType type ws h).sketches us = ([.node k ps], [])) :
      MadeType k ps vs
  | tuple {n : Nat} {w : Word} {r : List Word} (h : r.length < n) (hw : w.kind = .openParen) :
      MadeType .typeTuple (Parsed.cons w (tupleElements type r h)).sketches
        (tupleElements type r h).rest

/-- Another node of a noted kind, as the rule for it makes it, with the frames around it and the
words behind it. -/
inductive Grammar.Made : List Frame → Kind → List Sketch → List Word → Prop where
  | oneAttribute {n : Nat} {ws : List Word} {above : List Frame} {ps : List Sketch}
      (h : ws.length < n) (hat : at? .atSign ws = true)
      (hps : (oneAttribute ws h).sketches = [.node .attribute ps]) :
      Made above .attribute ps (oneAttribute ws h).rest
  | expression {n : Nat} {ws : List Word} {ps : List Sketch} (h : ws.length < n)
      (behind : List Word) (owner : Frame) (above : List Frame)
      (hps : (expression (owner.kind == .patternBinding) ws h).sketches =
        [.node .expression ps]) :
      Made (⟨.initializer, behind⟩ :: owner :: above) .expression ps
        (expression (owner.kind == .patternBinding) ws h).rest
  | statement {n : Nat} {ws : List Word} {ps : List Sketch} (h : ws.length < n)
      (above : List Frame) (hother : atOther (stops (above.map (·.kind))) ws = true)
      (hsemicolon : at? .semicolon ws = false)
      (hps : (statement (stops (above.map (·.kind))) ws h).sketches = [.node .statement ps]) :
      Made above .statement ps (statement (stops (above.map (·.kind))) ws h).rest
  | function {n : Nat} (inside : List Kind → Rule n) (stop : List Kind) {ws : List Word}
      {above : List Frame} {ps : List Sketch} (h : ws.length < n + 1)
      (hps : (declaration inside stop ws h).sketches = [.node .functionDecl ps]) :
      Made above .functionDecl ps (declaration inside stop ws h).rest
  | accessor {n : Nat} (inside : List Kind → Rule n) {ws : List Word} {above : List Frame}
      {ps : List Sketch} (h : ws.length < n + 1) (hat : atAccessor ws = true) (behind : List Word)
      (hps : (oneAccessor inside ws h).sketches = [.node .accessorDecl ps]) :
      Made (⟨.accessorBlock, behind⟩ :: above) .accessorDecl ps (oneAccessor inside ws h).rest
  | memberBlock {n : Nat} {inside : List Kind → Rule n} (hstop : Stopping inside) {ws : List Word}
      {above : List Frame} {ps : List Sketch} (h : ws.length < n + 1)
      (hps : (memberBlock inside ws h).sketches = [.node .memberBlock ps]) :
      Made above .memberBlock ps (memberBlock inside ws h).rest
  | codeBlock {n : Nat} {inside : List Kind → Rule n} (hstop : Stopping inside) {ws : List Word}
      {above : List Frame} {ps : List Sketch} (h : ws.length < n + 1)
      (hps : (codeBlock inside ws h).sketches = [.node .codeBlock ps]) :
      Made above .codeBlock ps (codeBlock inside ws h).rest
  | accessorBlock {n : Nat} {inside : List Kind → Rule n} (hstop : Stopping inside)
      {ws : List Word} {above : List Frame} {ps : List Sketch} (h : ws.length < n + 1)
      (hps : (accessorBlock inside ws h).sketches = [.node .accessorBlock ps]) :
      Made above .accessorBlock ps (accessorBlock inside ws h).rest
  | branch {n : Nat} {inside : List Kind → Rule n}
      (hfits : ∀ stop, Rule.Fits (.any Kind.items) (inside stop)) (stop : List Kind)
      {ws : List Word} {above : List Frame} {ps : List Sketch} (h : ws.length < n + 1)
      (hat : atBranch ws = true)
      (hps : (branch inside stop ws h).sketches = [.node .ifConfigClause ps]) :
      Made above .ifConfigClause ps (branch inside stop ws h).rest
  | conditional {n : Nat} {inside : List Kind → Rule n} (hstop : Stopping inside) {ws : List Word}
      {ps : List Sketch} (h : ws.length < n + 1) (above : List Frame)
      (hps : (declaration inside (stops (above.map (·.kind))) ws h).sketches =
        [.node .ifConfigDecl ps])
      (hleads : Leads above (declaration inside (stops (above.map (·.kind))) ws h).rest) :
      Made above .ifConfigDecl ps (declaration inside (stops (above.map (·.kind))) ws h).rest

theorem Grammar.Made.notMem_types {above : List Frame} {k : Kind} {ps : List Sketch}
    {rest : List Word} (h : Made above k ps rest) : k ∉ Kind.types := by
  cases h <;> decide

/-- A law that holds of every node of a noted kind as the rule for it makes it, and of all other
nodes. -/
structure NestedLaw.Local (L : NestedLaw) : Prop where
  free : ∀ {k : Kind}, k.isNoted = false → ∀ above ps rest, L above k ps rest
  types : ∀ {k : Kind} {ps : List Sketch} {rest : List Word}, k ∈ Kind.types →
    MadeType k ps rest → ∀ above, L above k ps rest
  made : ∀ {above : List Frame} {k : Kind} {ps : List Sketch} {rest : List Word},
    Made above k ps rest → L above k ps rest

/-- A law about nodes of one kind, other than types, has to hold of those as their rule makes
them. -/
theorem NestedLaw.Local.about {j : Kind} {P : List Frame → List Sketch → List Word → Prop}
    (hnoted : j.isNoted = true) (htype : j ∉ Kind.types)
    (h : ∀ {above ps rest}, Made above j ps rest → P above ps rest) :
    NestedLaw.Local fun above k ps rest => k = j → P above ps rest where
  free hk _ _ _ := by
    rintro rfl
    exact absurd (hk.symm.trans hnoted) Bool.false_ne_true
  types hk _ _ := by
    rintro rfl
    exact absurd hk htype
  made hmade := by
    rintro rfl
    exact h hmade

namespace NestedLaw.Local

variable {L : NestedLaw}

mutual

/-- Where only inert nodes stand, there is nothing to keep. -/
theorem keeps_of_shaped (hL : L.Local) {above : List Frame} {s : Sketch} {rest : List Word}
    (hs : s.Shaped) (hinert : ∀ k ∈ Sketch.kinds [s], k.isInert = true) : s.Keeps L above rest := by
  cases s with
  | node k ps =>
    have hk := hinert k List.mem_cons_self
    exact ⟨hL.free (Kind.isNoted_of_isInert hk) _ _ _, hL.keepsAll_of_shaped hs.2 fun j hj =>
      Kind.isInert_of_content hk j (hs.1.mem hj)⟩
  | word w => exact True.intro
  | fault f => exact True.intro
  | gap => exact True.intro

theorem keepsAll_of_shaped (hL : L.Local) {above : List Frame} {ss : List Sketch} {rest : List Word}
    (hs : Sketch.ShapedAll ss) (hinert : ∀ k ∈ Sketch.kinds ss, k.isInert = true) :
    Sketch.KeepsAll L above ss rest := by
  cases ss with
  | nil => exact True.intro
  | cons s ss =>
    rw [← List.singleton_append, Sketch.kinds_append] at hinert
    exact ⟨hL.keeps_of_shaped hs.1 fun k hk => hinert k (List.mem_append_left _ hk),
      hL.keepsAll_of_shaped hs.2 fun k hk => hinert k (List.mem_append_right _ hk)⟩

end

/-- A rule that takes only inert nodes. -/
theorem keeps_of_fits (hL : L.Local) {n : Nat} {c : Content} {p : Rule n} (hp : Rule.Fits c p)
    (hc : (c.once ++ c.many).all Kind.isInert = true) : Rule.Keeps L p := by
  intro above ws h
  refine hL.keepsAll_of_shaped (hp ws h).shaped fun k hk => ?_
  exact List.all_eq_true.1 hc k ((hp ws h).admits.mem hk)

end NestedLaw.Local

namespace Grammar

open Rule

variable {n : Nat} {L : NestedLaw} (hL : L.Local)

include hL

/-- A node of a kind that no law says anything of. -/
theorem Rule.Keeps.free {k : Kind} {p : Rule n} (hp : Keeps L p) (hk : k.isNoted = false) :
    Keeps L (Rule.node k p) := hp.node (hL.free hk)

/-! ## attributes and modifiers -/

theorem keeps_attributeList : Keeps L (attributeList : Rule n) := by
  have hparts : Keeps L (bump >> (attributeName >> optional atJoinedParen attributeArguments) :
      Rule n) :=
    keeps_bump.seq ((hL.keeps_of_fits fits_attributeName (by decide)).seq
      ((hL.keeps_of_fits fits_attributeArguments (by decide)).optional _))
  have hlist : Keeps L (many (at? .atSign) oneAttribute advances_oneAttribute.of_atWord : Rule n) :=
    fun above => keeps_many (fun ws h hat => (hparts _ ws h).node
      (hL.made (.oneAttribute h hat rfl))) _
  exact (hlist.free hL (by decide)).optional _

theorem keeps_attributesAndModifiers : Keeps L (attributesAndModifiers : Rule n) :=
  (keeps_attributeList hL).seq (hL.keeps_of_fits fits_modifierList (by decide))

/-! ## types, given the rule for those inside -/

section

variable (hin : Keeps L (type : Rule n))

include hin

theorem keeps_genericArguments : Keeps L (genericArguments (type : Rule n)) :=
  (keeps_bump.seq ((hin.commaList _).seq (keeps_expect _ _))).free hL (by decide)

theorem keeps_pathSegment : Keeps L (pathSegment (type : Rule n)) :=
  (((keeps_genericArguments hL hin).optional _).after).free hL (by decide)

theorem keeps_tupleElement : Keeps L (tupleElement (type : Rule n)) := by
  have hnone : Keeps L (fault .noType >> optional (atOther [.comma, .closeParen]) bump :
      Rule n) := (keeps_fault _).seq (keeps_bump.optional _)
  have hlabel : Keeps L (label : Rule n) := hL.keeps_of_fits fits_label (by decide)
  exact (hlabel.seq ((hin.ifAt hnone _).seq (keeps_eat _))).free hL (by decide)

theorem keeps_tupleElements : Keeps L (tupleElements (type : Rule n)) :=
  ((keeps_tupleElement hL hin).commaList _).seq (keeps_expect _ _)

theorem keeps_functionTypeTail : Keeps L (functionTypeTail (type : Rule n)) :=
  (hL.keeps_of_fits fits_effectSpecifiers (by decide)).seq ((keeps_expect _ _).seq hin)

/-- What keeps a law below the node that it makes keeps it altogether, if the node does. -/
def KeepsBelow {ws : List Word} (L : NestedLaw) (p : Parsed ws) : Prop :=
  ∀ above, (∀ k ∈ Kind.types, ∀ ps, p.sketches = [.node k ps] → L above k ps p.rest) →
    p.Keeps L above

omit hL hin in
theorem keepsBelow_node {ws : List Word} {k : Kind} {p : Parsed ws}
    (hp : ∀ above, p.Keeps L above) (hk : k ∈ Kind.types) : KeepsBelow L (p.node k) :=
  fun _ hlaw => (hp _).node (hlaw k hk _ rfl)

theorem keepsBelow_path (ws : List Word) (h : ws.length < n + 1) :
    KeepsBelow L (path (type : Rule n) ws h) := by
  have hsegments := keeps_pathSegment hL hin
  exact keepsBelow_node (fun above => (hsegments.seq (hsegments.whileAt atPathTail)) above ws h)
    (by decide)

omit hL in
theorem keepsBelow_collectionType (ws : List Word) (h : ws.length < n + 1) :
    KeepsBelow L (collectionType (type : Rule n) ws h) := by
  cases ws with
  | nil => exact fun _ _ => Parsed.keeps_mark (by simp) rfl
  | cons w r =>
    have hr := Nat.lt_of_succ_lt_succ h
    have hclose : Keeps L (expect .closeBracket .unclosedCollectionType : Rule n) :=
      keeps_expect _ _
    have hvalue := keeps_bump.seq (hin.seq hclose)
    unfold collectionType onWord
    dsimp only
    split
    · exact keepsBelow_node
        (fun above => ((hin above r hr).append (hvalue above _ _)).word w) (by decide)
    · exact keepsBelow_node
        (fun above => ((hin above r hr).append (hclose above _ _)).word w) (by decide)

/-- The tuple of a function type is a type of its own. -/
theorem keepsBelow_tupleOrFunctionType {ws : List Word} (h : ws.length < n + 1)
    (hparen : at? .openParen ws = true) :
    KeepsBelow L (tupleOrFunctionType (type : Rule n) ws h) := by
  cases ws with
  | nil => exact fun _ _ => Parsed.keeps_mark (by simp) rfl
  | cons w r =>
    have hr := Nat.lt_of_succ_lt_succ h
    have hw : w.kind = .openParen := by simpa [at?, kind?] using hparen
    have helements := keeps_tupleElements hL hin
    have htail := keeps_functionTypeTail hL hin
    have htuple : KeepsBelow L ((Parsed.cons w (tupleElements type r hr)).node .typeTuple) :=
      keepsBelow_node (fun above => (helements above r hr).word w) (by decide)
    unfold tupleOrFunctionType onWord
    dsimp only
    split
    · refine keepsBelow_node (fun above => ?_) (by decide)
      refine (htuple above fun k _ ps hps => ?_).append (htail above _ _)
      obtain ⟨rfl, rfl⟩ := Sketch.node.inj (List.cons.inj hps).1
      exact hL.types (by decide) (.tuple hr hw) above
    · exact htuple

theorem keepsBelow_primaryType (ws : List Word) (h : ws.length < n + 1) :
    KeepsBelow L (primaryType (type : Rule n) ws h) := by
  unfold primaryType ifAt
  split
  · next hparen => exact keepsBelow_tupleOrFunctionType hL hin h hparen
  split
  · exact keepsBelow_collectionType hin ws h
  split
  · exact keepsBelow_path hL hin ws h
  · exact fun above _ => (keeps_gap.seq (keeps_fault .noType)) above ws h

omit hin hL in
theorem wrapSuffixes_of_wrapped {ss ts : List Sketch} {us : List Word} (vs : List Word)
    (h : wrapSuffixes ss us = (ts, [])) : wrapSuffixes ss (us ++ vs) = wrapSuffixes ts vs := by
  fun_induction wrapSuffixes ss us with
  | case1 ss =>
    obtain rfl : ss = ts := congrArg Prod.fst h
    rfl
  | case2 ss w r k hk ih =>
    have hat : suffixKind? (w :: (r ++ vs)) = some k := hk
    rw [List.cons_append, wrapSuffixes, hat]
    exact ih h
  | case3 ss w r hk => cases congrArg Prod.snd h

omit hin hL in
theorem mem_types_of_suffixKind? {k : Kind} {ws : List Word} (h : suffixKind? ws = some k) :
    k ∈ Kind.types := by
  unfold suffixKind? at h
  split at h
  · cases h
  split at h
  · cases h
    decide
  split at h
  · cases h
    decide
  · cases h

omit hin in
/-- All that suffixes make of a type keeps the law, with one suffix more at every step. -/
theorem keeps_wrapSuffixes {ws : List Word} (h : ws.length < n + 1) {us vs : List Word}
    {ss : List Sketch} (hrest : (primaryType type ws h).rest = us ++ vs)
    (hwrap : wrapSuffixes (primaryType type ws h).sketches us = (ss, []))
    (hss : ∀ above, Sketch.KeepsAll L above ss vs) (above : List Frame) :
    Sketch.KeepsAll L above (wrapSuffixes ss vs).1 (wrapSuffixes ss vs).2 := by
  induction vs generalizing us ss with
  | nil => exact hss above
  | cons w r ih =>
    rw [wrapSuffixes]
    split
    · next k hk =>
      have hk' : suffixKind? [w] = some k := hk
      have hnext : wrapSuffixes (primaryType type ws h).sketches (us ++ [w]) =
          ([.node k (ss ++ [.word w])], []) := by
        rw [wrapSuffixes_of_wrapped [w] hwrap, wrapSuffixes, hk']
        rfl
      have hbehind : (primaryType type ws h).rest = (us ++ [w]) ++ r := by simp [hrest]
      refine ih hbehind hnext fun above => ⟨⟨?_, ?_⟩, True.intro⟩
      · exact hL.types (mem_types_of_suffixKind? hk) (.suffixed h hbehind hnext) above
      · exact Sketch.keepsAll_append (hss _) ⟨True.intro, True.intro⟩
    · exact hss above

theorem keeps_suffixedType : Keeps L (suffixedType (type : Rule n)) := by
  intro above ws h
  have hnone : (primaryType type ws h).rest = [] ++ (primaryType type ws h).rest := rfl
  refine keeps_wrapSuffixes hL h hnone (by rw [wrapSuffixes]) (fun above => ?_) above
  refine keepsBelow_primaryType hL hin ws h above fun k hk ps hps => ?_
  exact hL.types hk (.suffixed h hnone (by rw [wrapSuffixes, hps])) above

theorem keepsBelow_composedType (ws : List Word) (h : ws.length < n + 1) :
    KeepsBelow L (composedType (type : Rule n) ws h) := by
  have hsuffixed := keeps_suffixedType hL hin
  unfold composedType
  dsimp only
  split
  · exact keepsBelow_node
      (fun above => (hsuffixed above ws h).append ((hsuffixed.whileAt _) above _ _)) (by decide)
  · exact fun above _ => hsuffixed above ws h

omit hin in
theorem keeps_typeAttributes : Keeps L (typeAttributes : Rule n) :=
  ((keeps_attributeList hL).ifAt keeps_bump _).seq
    ((keeps_done.whileAt _).seq (keeps_attributeList hL))

theorem keepsBelow_typeWith (ws : List Word) (h : ws.length < n + 1) :
    KeepsBelow L (typeWith (type : Rule n) ws h) := by
  unfold typeWith ifAt
  split
  · split
    · exact keepsBelow_node (fun above => hin.after above ws h) (by decide)
    · exact keepsBelow_node (fun above => hin.after above ws h) (by decide)
  split
  · exact keepsBelow_node
      (fun above => ((keeps_typeAttributes hL).advancing _ hin) above ws h) (by decide)
  · exact keepsBelow_composedType hL hin ws h

end

theorem keeps_typeFrom (above : List Frame) (ws : List Word) : (typeFrom ws).Keeps L above := by
  induction hlen : ws.length using Nat.strongRecOn generalizing ws above with
  | ind m ih =>
    subst hlen
    have hin : Keeps L (type : Rule ws.length) := fun above r hr => ih _ hr above r rfl
    have hbelow := keepsBelow_typeWith hL hin ws (Nat.lt_succ_self _) above
    have hlaw : ∀ k ∈ Kind.types, ∀ ps, (typeFrom ws).sketches = [.node k ps] →
        L above k ps (typeFrom ws).rest := fun k hk ps hps => hL.types hk (.whole hps) above
    rw [typeFrom] at hlaw ⊢
    exact hbelow hlaw

theorem keeps_type : Keeps L (type : Rule n) := fun above ws _ => keeps_typeFrom hL above ws

/-! ## clauses and declarations that hold no scope -/

theorem keeps_annotatedType : Keeps L (annotatedType : Rule n) :=
  (keeps_bump.seq (keeps_type hL)).free hL (by decide)

theorem keeps_typeInitializer : Keeps L (typeInitializer : Rule n) :=
  (keeps_bump.seq (keeps_type hL)).free hL (by decide)

theorem keeps_returnClause : Keeps L (returnClause : Rule n) :=
  ((keeps_bump.seq (keeps_type hL)).free hL (by decide)).optional _

theorem keeps_identifierName : Keeps L (identifierName : Rule n) :=
  hL.keeps_of_fits fits_identifierName (by decide)

/-- The value of a binding ends before accessors, any other value goes on. -/
theorem keeps_initializer (owner : Frame) (above : List Frame) :
    KeepsIn L (owner :: above) (initializer (owner.kind == .patternBinding) : Rule n) := by
  intro ws h
  have hvalue (behind : List Word) : KeepsIn L (⟨.initializer, behind⟩ :: owner :: above)
      (expression (owner.kind == .patternBinding) : Rule n) := by
    intro ws h
    have hshaped := (fits_expression (owner.kind == .patternBinding) ws h).shaped.1
    refine ⟨⟨hL.made (.expression h _ owner above rfl), ?_⟩, True.intro⟩
    exact hL.keepsAll_of_shaped hshaped.2 fun _ hk => absurd (hshaped.1.mem hk) List.not_mem_nil
  exact (keeps_bump.seqIn (hvalue _) ws h).node (hL.free rfl _ _ _)

theorem keeps_genericParameters : Keeps L (genericParameters : Rule n) := by
  have hparameter : Keeps L (genericParameter : Rule n) :=
    ((keeps_attributeList hL).seq ((keeps_bump.optional _).seq ((keeps_identifierName hL).seq
      (((keeps_bump.seq (keeps_type hL)).optional _).seq (keeps_eat _))))).free hL (by decide)
  exact ((keeps_bump.seq ((hparameter.commaList _).seq (keeps_expect _ _))).free hL
    (by decide)).optional _

theorem keeps_genericRequirements : Keeps L (genericRequirements : Rule n) := by
  have hright : Keeps L (bump >> type : Rule n) := keeps_bump.seq (keeps_type hL)
  have hrequirement : Keeps L (genericRequirement : Rule n) :=
    ((keeps_type hL).seq (hright.ifAt (hright.ifAt (keeps_fault _) _) _)).free hL (by decide)
  exact ((keeps_bump.seq (hrequirement.commaList _)).free hL (by decide)).optional _

theorem keeps_inheritance : Keeps L (inheritance : Rule n) := by
  have htype : Keeps L (node .inheritedType type : Rule n) := (keeps_type hL).free hL (by decide)
  exact ((keeps_bump.seq (htype.commaList _)).free hL (by decide)).optional _

theorem keeps_parameters : Keeps L (parameters : Rule n) := by
  have hparameter : Keeps L (parameter : Rule n) :=
    keeps_node (fun behind above => (keeps_attributeList hL).seqIn
      ((hL.keeps_of_fits fits_parameterNames (by decide)).seqIn
        (((keeps_annotatedType hL).ifAt (keeps_fault _) _).seqIn ((keeps_eat _).seqIn
          (((keeps_initializer hL ⟨_, behind⟩ above).optional _).seq (keeps_done.whileAt _))))))
      (hL.free (by decide))
  have hlist := keeps_bump.seq ((hparameter.commaList (atOther [.closeParen])).seq
    (keeps_expect .closeParen .unclosedParameters))
  exact (hlist.ifAt (keeps_fault _) _).free hL (by decide)

theorem keeps_signature : Keeps L (signature : Rule n) :=
  ((keeps_parameters hL).seq ((hL.keeps_of_fits fits_effectSpecifiers (by decide)).seq
    (keeps_returnClause hL))).free hL (by decide)

theorem keeps_typeAlias : Keeps L (typeAlias : Rule n) :=
  keeps_bump.seq ((keeps_identifierName hL).seq ((keeps_genericParameters hL).seq
    (((keeps_typeInitializer hL).ifAt (keeps_fault _) _).seq (keeps_genericRequirements hL))))

theorem keeps_associatedType : Keeps L (associatedType : Rule n) :=
  keeps_bump.seq ((keeps_identifierName hL).seq ((keeps_inheritance hL).seq
    (((keeps_typeInitializer hL).optional _).seq (keeps_genericRequirements hL))))

theorem keeps_enumCases : Keeps L (enumCases : Rule n) := by
  have hvalue : Keeps L (associatedValue : Rule n) :=
    keeps_node (fun behind above => (hL.keeps_of_fits fits_label (by decide)).seqIn
      ((keeps_type hL).seqIn ((keeps_initializer hL ⟨_, behind⟩ above).optional _)))
      (hL.free (by decide))
  have hvalues : Keeps L (associatedValues : Rule n) :=
    ((keeps_bump.seq ((hvalue.commaList _).seq (keeps_expect _ _))).free hL (by decide)).optional _
  have helement : Keeps L (enumCaseElement : Rule n) :=
    keeps_node (fun behind above => (keeps_identifierName hL).seqIn (hvalues.seqIn
      ((keeps_initializer hL ⟨_, behind⟩ above).optional _))) (hL.free (by decide))
  exact keeps_bump.seq (helement.commaList _)

/-! ## blocks and declarations, given the items inside -/

/-- The rule for the items of a scope keeps a law wherever it is told the words that end the scope,
and a brace that it leaves is the one that ends the block around. -/
def KeepsInside (L : NestedLaw) (inside : List Kind → Rule n) : Prop :=
  ∀ (above : List Frame) ws h, Leads above (inside (stops (above.map (·.kind))) ws h).rest →
    (inside (stops (above.map (·.kind))) ws h).Keeps L above

section

variable {inside : List Kind → Rule n} (hstop : Stopping inside) (hin : KeepsInside L inside)

include hin

omit hL hin in
theorem rest_expect {k : Kind} {ws : List Word} (hk : at? k ws = true) (f : Fault)
    (h : ws.length < n) : (expect k f ws h).rest = ws.tail := by
  unfold expect ifAt
  rw [if_pos hk]
  cases ws <;> rfl

omit hL hin in
theorem rest_expect_not {k : Kind} {ws : List Word} (hk : at? k ws = false) (f : Fault)
    (h : ws.length < n) : (expect k f ws h).rest = ws := by
  unfold expect ifAt
  rw [hk, if_neg Bool.false_ne_true]
  rfl

omit hL in
/-- The brace behind the items of a block is its own. -/
theorem keeps_braced {k : Kind} (hk : k.isBlock = true) (unclosed : Fault) (above : List Frame)
    (ws : List Word) (h : ws.length < n + 1) :
    (braced inside unclosed ws h).Keeps L (⟨k, (braced inside unclosed ws h).rest⟩ :: above) := by
  cases ws with
  | nil => exact Parsed.keeps_mark (by simp) rfl
  | cons w r =>
    have hr := Nat.lt_of_succ_lt_succ h
    let block : Frame := ⟨k, (braced inside unclosed (w :: r) h).rest⟩
    have hitems := hin (block :: above) r hr
    rw [List.map_cons, Kind.stops_of_isBlock hk] at hitems
    refine ((hitems fun hbrace _ => ⟨block, ?_, ?_⟩).append (keeps_expect _ _ _ _ _)).word w
    · simp [block, Frame.block?, hk]
    · exact (rest_expect hbrace unclosed _).symm

include hstop

theorem keeps_memberBlock : Keeps L (memberBlock inside) := by
  intro above ws h
  refine Parsed.Keeps.node ?_ (hL.made (.memberBlock hstop h rfl))
  unfold ifAt
  split
  · exact keeps_braced hin rfl _ above ws h
  · exact keeps_fault _ _ ws h

theorem keeps_body : Keeps L (body inside) := by
  have hblock : Keeps L (codeBlock inside) := fun above ws h =>
    (keeps_braced hin rfl _ above ws h).node (hL.made (.codeBlock hstop h rfl))
  exact hblock.optional _

theorem keeps_oneAccessor (behind : List Word) (above : List Frame) (ws : List Word)
    (h : ws.length < n + 1) (hat : atAccessor ws = true) :
    (oneAccessor inside ws h).Keeps L (⟨.accessorBlock, behind⟩ :: above) := by
  have hparts : Keeps L ((attributesAndModifiers >> bump) >>
      (accessorParameter >> effectSpecifiers >> body inside)) :=
    ((keeps_attributesAndModifiers hL).seq keeps_bump).seq
      ((hL.keeps_of_fits fits_accessorParameter (by decide)).seq
        ((hL.keeps_of_fits fits_effectSpecifiers (by decide)).seq (keeps_body hL hstop hin)))
  exact (hparts _ ws h).node (hL.made (.accessor inside h hat behind rfl))

theorem keeps_accessors (behind : List Word) (above : List Frame) (ws : List Word)
    (h : ws.length < n + 1) :
    (accessors inside ws h).Keeps L (⟨.accessorBlock, behind⟩ :: above) := by
  refine keeps_many (fun ws h _ => ?_) _ ws h
  unfold ifAt
  split
  · next hat => exact keeps_oneAccessor hL hstop hin behind above ws h hat
  · exact ((keeps_fault _).seq keeps_bump) _ ws h

theorem keeps_optionalAccessors : Keeps L (optionalAccessors inside) := by
  have hblock : Keeps L (accessorBlock inside) := by
    intro above ws h
    refine Parsed.Keeps.node ?_ (hL.made (.accessorBlock hstop h rfl))
    unfold ifAt
    split
    · exact (keeps_bump _ ws h).append
        ((keeps_accessors hL hstop hin _ above _ _).append (keeps_expect _ _ _ _ _))
    · exact keeps_braced hin rfl _ above ws h
  exact hblock.optional _

theorem keeps_bindings : Keeps L (bindings inside) := by
  have hbinding : Keeps L (patternBinding inside) :=
    keeps_node (fun behind above => (hL.keeps_of_fits fits_pattern (by decide)).seqIn
      (((keeps_annotatedType hL).optional _).seqIn
        (((keeps_initializer hL ⟨_, behind⟩ above).optional _).seq
          (keeps_optionalAccessors hL hstop hin)))) (hL.free (by decide))
  exact keeps_bump.seq ((hbinding.commaList _).free hL (by decide))

theorem keeps_function : Keeps L (function inside) :=
  keeps_bump.seq ((hL.keeps_of_fits fits_operatorName (by decide)).seq
    ((keeps_genericParameters hL).seq ((keeps_signature hL).seq
      ((keeps_genericRequirements hL).seq (keeps_body hL hstop hin)))))

theorem keeps_initializerDeclaration : Keeps L (initializerDeclaration inside) :=
  keeps_bump.seq ((keeps_bump.optional _).seq
    ((keeps_genericParameters hL).seq ((keeps_signature hL).seq
      ((keeps_genericRequirements hL).seq (keeps_body hL hstop hin)))))

theorem keeps_subscript : Keeps L (subscript inside) :=
  keeps_bump.seq ((keeps_genericParameters hL).seq
    ((keeps_parameters hL).seq ((keeps_returnClause hL).seq
      ((keeps_genericRequirements hL).seq (keeps_optionalAccessors hL hstop hin)))))

theorem keeps_nominal : Keeps L (nominal inside) :=
  keeps_bump.seq ((keeps_identifierName hL).seq
    ((keeps_genericParameters hL).seq ((keeps_inheritance hL).seq
      ((keeps_genericRequirements hL).seq (keeps_memberBlock hL hstop hin)))))

theorem keeps_extensionDeclaration : Keeps L (extensionDeclaration inside) :=
  keeps_bump.seq ((keeps_type hL).seq
    ((keeps_inheritance hL).seq
      ((keeps_genericRequirements hL).seq (keeps_memberBlock hL hstop hin))))

variable (hfits : ∀ stop, Fits (.any Kind.items) (inside stop))

include hfits

omit hstop in
theorem keeps_branch {above : List Frame} (behind : List Word) (ws : List Word)
    (h : ws.length < n + 1) (hat : atBranch ws = true)
    (hleads : Leads above (branch inside (stops (above.map (·.kind))) ws h).rest) :
    (branch inside (stops (above.map (·.kind))) ws h).Keeps L
      (⟨.ifConfigDecl, behind⟩ :: above) := by
  let clause : Frame :=
    ⟨.ifConfigClause, (branch inside (stops (above.map (·.kind))) ws h).rest⟩
  have hinside := hin (clause :: ⟨.ifConfigDecl, behind⟩ :: above)
  have hcondition : Keeps L (condition : Rule n) := hL.keeps_of_fits fits_condition (by decide)
  have hleads' := hleads.branch clause.behind behind
  refine Parsed.Keeps.node ?_ (hL.made (.branch hfits _ h hat rfl))
  revert hleads'
  show Leads (clause :: _) (ifAt _ _ _ ws h).rest → (ifAt _ _ _ ws h).Keeps L (clause :: _)
  cases ws with
  | nil =>
    intro _
    unfold ifAt
    split <;> exact Parsed.keeps_mark (by simp) rfl
  | cons w r =>
    unfold ifAt
    split
    · intro hleads'
      exact (hinside r _ hleads').word w
    · intro hleads'
      exact ((hcondition _ r _).append (hinside _ _ hleads')).word w

omit hL hin hstop hfits in
/-- A brace that the branches of a block leave behind them is left by the block too. -/
theorem Leads.of_expect {above : List Frame} {ws : List Word} {f : Fault} (h : ws.length < n)
    (hleads : Leads above (expect .poundEndif f ws h).rest) : Leads above ws := by
  intro hbrace
  have hat : at? .poundEndif ws = false := by
    simp only [at?, beq_iff_eq] at hbrace ⊢
    simp [hbrace]
  rw [rest_expect_not hat] at hleads
  exact hleads hbrace

omit hL hin hstop hfits in
/-- A loop over branches: a brace that one of them leaves is left by the loop. -/
theorem keeps_branches {above frames : List Frame} {p : Rule n} (ha : Advances atBranch p)
    (hp : ∀ ws h, atBranch ws = true → Leads above (p ws h).rest → (p ws h).Keeps L frames)
    (ws : List Word)
    (h : ws.length < n) (hleads : Leads above (many atBranch p ha ws h).rest) :
    (many atBranch p ha ws h).Keeps L frames := by
  induction hlen : ws.length using Nat.strongRecOn generalizing ws with
  | ind l ih =>
    unfold Rule.many at hleads ⊢
    split at hleads
    · next hc =>
      rw [dif_pos hc]
      refine (hp ws h hc fun hbrace => ?_).append (ih _ (hlen ▸ ha ws h hc) _ _ hleads rfl)
      have hat : ¬atBranch (p ws h).rest = true := by
        simp only [at?, beq_iff_eq] at hbrace
        simp [atBranch, atAny, hbrace]
      rw [Parsed.rest_append] at hleads
      unfold Rule.many at hleads
      rw [dif_neg hat] at hleads
      exact hleads hbrace
    · next hc =>
      rw [dif_neg hc]
      exact Parsed.keeps_done

omit hstop in
theorem keeps_conditionalBlock {above : List Frame} (behind : List Word) (ws : List Word)
    (h : ws.length < n + 1)
    (hleads : Leads above (conditionalBlock inside (stops (above.map (·.kind))) ws h).rest) :
    (conditionalBlock inside (stops (above.map (·.kind))) ws h).Keeps L
      (⟨.ifConfigDecl, behind⟩ :: above) := by
  have ha : Advances atBranch (branch inside (stops (above.map (·.kind)))) :=
    (advances_branch inside _).of_atWord
  have hloop := Leads.of_expect (Parsed.length_rest_lt (many atBranch _ ha ws h) h) hleads
  exact (keeps_branches ha (keeps_branch hL hin hfits behind) ws h hloop).append
    (keeps_expect _ _ _ _ _)

omit hL hin hstop hfits in
/-- Of the nodes of declarations, only those of functions and of conditional blocks are noted. -/
theorem isNoted_form (inside : List Kind → Rule n) (stop : List Kind) (ws : List Word)
    (hblock : (form inside stop ws).1 ≠ .ifConfigDecl)
    (hfunction : (form inside stop ws).1 ≠ .functionDecl) :
    (form inside stop ws).1.isNoted = false := by
  revert hblock hfunction
  unfold form
  split
  case h_6 => exact fun _ hfunction => absurd rfl hfunction
  case h_18 => exact fun hblock => absurd rfl hblock
  case h_19 => split <;> exact fun _ _ => rfl
  all_goals exact fun _ _ => rfl

theorem keeps_form {above : List Frame} (behind : List Word) (at' ws : List Word)
    (h : ws.length < n + 1)
    (hleads : Leads above ((form inside (stops (above.map (·.kind))) at').2 ws h).rest) :
    ((form inside (stops (above.map (·.kind))) at').2 ws h).Keeps L
      (⟨(form inside (stops (above.map (·.kind))) at').1, behind⟩ :: above) := by
  revert hleads
  unfold form
  split
  case h_5 => exact fun _ => keeps_extensionDeclaration hL hstop hin _ ws h
  case h_6 => exact fun _ => keeps_function hL hstop hin _ ws h
  case h_7 => exact fun _ => keeps_initializerDeclaration hL hstop hin _ ws h
  case h_8 => exact fun _ => (keeps_bump.seq (keeps_body hL hstop hin)) _ ws h
  case h_9 => exact fun _ => keeps_subscript hL hstop hin _ ws h
  case h_10 => exact fun _ => keeps_bindings hL hstop hin _ ws h
  case h_11 => exact fun _ => keeps_bindings hL hstop hin _ ws h
  case h_12 => exact fun _ => keeps_typeAlias hL _ ws h
  case h_13 => exact fun _ => keeps_associatedType hL _ ws h
  case h_14 => exact fun _ => hL.keeps_of_fits fits_importDeclaration (by decide) _ ws h
  case h_15 => exact fun _ => hL.keeps_of_fits fits_operatorDeclaration (by decide) _ ws h
  case h_16 => exact fun _ => hL.keeps_of_fits fits_precedenceGroup (by decide) _ ws h
  case h_17 => exact fun _ => keeps_enumCases hL _ ws h
  case h_18 => exact fun hleads => keeps_conditionalBlock hL hin hfits behind ws h hleads
  case h_19 =>
    split
    · exact fun _ => keeps_nominal hL hstop hin _ ws h
    · exact fun _ => ((keeps_fault _).seq (keeps_bump.optional _)) _ ws h
  all_goals exact fun _ => keeps_nominal hL hstop hin _ ws h

theorem keeps_declaration {above : List Frame} (ws : List Word) (h : ws.length < n + 1)
    (hleads : Leads above (declaration inside (stops (above.map (·.kind))) ws h).rest) :
    (declaration inside (stops (above.map (·.kind))) ws h).Keeps L above := by
  let lead : Parsed ws := attributesAndModifiers ws h
  have hparts := (keeps_attributesAndModifiers hL _ ws h).append
    (keeps_form hL hstop hin hfits (declaration inside (stops (above.map (·.kind))) ws h).rest
      lead.rest lead.rest (lead.length_rest_lt h) hleads)
  let parts : Parsed ws :=
    lead.append ((form inside (stops (above.map (·.kind))) lead.rest).2 lead.rest
      (lead.length_rest_lt h))
  refine hparts.node ?_
  have hsketches : (declaration inside (stops (above.map (·.kind))) ws h).sketches =
      [.node (form inside (stops (above.map (·.kind))) lead.rest).1 parts.sketches] := rfl
  by_cases hblock : (form inside (stops (above.map (·.kind))) lead.rest).1 = .ifConfigDecl
  · rw [hblock] at hsketches ⊢
    exact hL.made (.conditional hstop h above hsketches hleads)
  by_cases hfunction : (form inside (stops (above.map (·.kind))) lead.rest).1 = .functionDecl
  · rw [hfunction] at hsketches ⊢
    exact hL.made (.function inside _ h hsketches)
  · exact hL.free (isNoted_form inside _ _ hblock hfunction) _ _ _

theorem keeps_item {above : List Frame} (ws : List Word) (h : ws.length < n + 1)
    (hother : atOther (stops (above.map (·.kind))) ws = true)
    (hleads : Leads above (item inside (stops (above.map (·.kind))) ws h).rest) :
    (item inside (stops (above.map (·.kind))) ws h).Keeps L above := by
  revert hleads
  unfold item ifAt
  split
  · exact fun _ => keeps_bump _ ws h
  next hsemicolon =>
  split
  · exact keeps_declaration hL hstop hin hfits ws h
  · intro _
    have hshaped := (fits_statement (stops (above.map (·.kind))) ws h).shaped.1
    refine ⟨⟨hL.made (.statement h above hother (by simpa using hsemicolon) rfl), ?_⟩, True.intro⟩
    exact hL.keepsAll_of_shaped hshaped.2 fun _ hk => absurd (hshaped.1.mem hk) List.not_mem_nil

end

omit hL in
theorem rest_itemsFrom_of_not {stop : List Kind} {ws : List Word} (h : atOther stop ws = false) :
    (itemsFrom stop ws).rest = ws := by
  rw [itemsFrom, dif_neg (by rw [h]; exact Bool.false_ne_true)]
  rfl

omit hL in
theorem atOther_of_closeBrace {stop : List Kind} {ws : List Word}
    (hbrace : at? .closeBrace ws = true) (hmem : .closeBrace ∈ stop) : atOther stop ws = false := by
  simp only [at?, beq_iff_eq] at hbrace
  simp [atOther, atAny, hbrace, hmem]

/-- The items of a scope. -/
theorem keeps_itemsFrom {above : List Frame} (ws : List Word)
    (hleads : Leads above (itemsFrom (stops (above.map (·.kind))) ws).rest) :
    (itemsFrom (stops (above.map (·.kind))) ws).Keeps L above := by
  induction hlen : ws.length using Nat.strongRecOn generalizing above ws with
  | ind m ih =>
    subst hlen
    have hstop : Stopping fun stop r (_ : r.length < ws.length) => itemsFrom stop r :=
      fun stop r _ => atOther_rest_itemsFrom stop r
    have hin : KeepsInside L fun stop r (_ : r.length < ws.length) => itemsFrom stop r :=
      fun above r hr hleads => ih _ hr r hleads rfl
    rw [itemsFrom] at hleads ⊢
    split at hleads
    · next hc =>
      rw [dif_pos hc]
      have hlt := advances_item (fun stop r (_ : r.length < ws.length) => itemsFrom stop r)
        (stops (above.map (·.kind))) ws (Nat.lt_succ_self _) hc
      have hfits : ∀ stop, Fits (.any Kind.items)
          fun r (_ : r.length < ws.length) => itemsFrom stop r := fun stop r _ =>
        fits_itemsFrom stop r
      refine (keeps_item hL hstop hin hfits ws _ hc fun hbrace hmem => ?_).append
        (ih _ hlt _ hleads rfl)
      -- the items end where one of them leaves a brace that ends the scope
      have hdone := rest_itemsFrom_of_not (atOther_of_closeBrace hbrace hmem)
      exact (congrArg (Leads above) hdone).mp hleads hbrace hmem
    · next hc =>
      rw [dif_neg hc]
      exact Parsed.keeps_done

end Grammar

/-! ## source files -/

/-- No words are left behind the items of a source file. -/
theorem Grammar.rest_fileItems (ws : List Word) : (fileItems ws).rest = [] := by
  have hcovers := (fileItems ws).covers
  rw [wordsOfAll_fileItems] at hcovers
  exact List.append_right_eq_self.1 hcovers

/-- Every node of a source file keeps such a law. -/
theorem NestedLaw.Local.keepsAll_fileSketch {L : NestedLaw} (hL : L.Local) (source : String) :
    Sketch.KeepsAll L [] (fileSketch source) [] := by
  have hrest := rest_fileItems (Word.ofLexemes (Lexeme.lex source))
  have hleads : Leads [] (fileItems (Word.ofLexemes (Lexeme.lex source))).rest :=
    fun _ hmem => nomatch hmem
  have hkeeps : (fileItems (Word.ofLexemes (Lexeme.lex source))).Keeps L [] :=
    keeps_itemsFrom hL _ hleads
  rwa [Parsed.Keeps, hrest] at hkeeps

end SwiftOutline

import SwiftOutline.Proofs.Lookahead

/-!
# SwiftOutline.Proofs.Content

Which nodes may stand directly in which and how often, and at which words.

* `Content` — the kinds that may stand in a node: some once, some any number of times;
* `Kind.content` — the content of every kind of node;
* `Sketch.Shaped`, `Tree.Shaped` — every node has the content of its kind;
* `Kind.Origin` — the words at which a node of a kind may start;
* `Sketch.Sited` — every node starts at such words, and only an `error` reports that a
  declaration is missing, only a condition at the end of a file that there is none;
* `Rule.Fits` — what a rule takes is shaped and sited, and its outermost nodes are as a content
  says.

A rule is judged by its parts: `Fits.seq` adds contents up, `Fits.node` compares one with the
content of the node, and a loop repeats what may stand any number of times.
-/

namespace SwiftOutline

/-! ## contents -/

/-- The kinds of nodes that may stand in a row: each kind in `once` as often as it is listed,
each kind in `many` any number of times. -/
structure Content where
  once : List Kind
  many : List Kind
  deriving DecidableEq, Repr

namespace Content

/-- No nodes. -/
def empty : Content := ⟨[], []⟩

/-- One node of a kind at most. -/
def one (k : Kind) : Content := ⟨[k], []⟩

/-- Any number of nodes of some kinds. -/
def any (ks : List Kind) : Content := ⟨[], ks⟩

/-- What may stand in a row after another row. -/
def append (c d : Content) : Content := ⟨c.once ++ d.once, c.many ++ d.many⟩

instance : Append Content := ⟨append⟩

/-- Whether a row of kinds is as a content says. -/
def Admits (c : Content) (ks : List Kind) : Prop :=
  ∀ k ∈ ks, k ∈ c.many ∨ ks.count k ≤ c.once.count k

/-- Whether a content allows no more than another one. -/
def within (c d : Content) : Bool :=
  c.many.all d.many.contains &&
    c.once.all fun k => d.many.contains k || decide (c.once.count k ≤ d.once.count k)

variable {c d : Content} {ks ls : List Kind}

@[simp] theorem admits_nil (c : Content) : c.Admits [] := by simp [Admits]

theorem Admits.mono (h : c.Admits ks) (hcd : c.within d = true) : d.Admits ks := by
  intro k hk
  simp only [within, Bool.and_eq_true, List.all_eq_true, List.contains_iff_mem, Bool.or_eq_true,
    decide_eq_true_eq] at hcd
  obtain hmany | hcount := h k hk
  · exact .inl (hcd.1 k hmany)
  · have hpos : 0 < c.once.count k := Nat.lt_of_lt_of_le (List.count_pos_iff.2 hk) hcount
    obtain hmany | hle := hcd.2 k (List.count_pos_iff.1 hpos)
    · exact .inl hmany
    · exact .inr (Nat.le_trans hcount hle)

/-- One row after another adds their contents up. -/
theorem Admits.append (hc : c.Admits ks) (hd : d.Admits ls) : (c ++ d).Admits (ks ++ ls) := by
  have hcount {e : Content} {row : List Kind} (h : e.Admits row) (k : Kind) :
      k ∈ e.many ∨ row.count k ≤ e.once.count k := by
    by_cases hk : k ∈ row
    · exact h k hk
    · exact .inr (by rw [List.count_eq_zero.2 hk]; exact Nat.zero_le _)
  intro k _
  show k ∈ c.many ++ d.many ∨ (ks ++ ls).count k ≤ (c.once ++ d.once).count k
  rw [List.mem_append, List.count_append, List.count_append]
  obtain hmany | hle := hcount hc k
  · exact .inl (.inl hmany)
  · obtain hmany | hle' := hcount hd k
    · exact .inl (.inr hmany)
    · exact .inr (Nat.add_le_add hle hle')

/-- What may stand any number of times may be followed by itself. -/
theorem Admits.append_any {js : List Kind} (hk : (any js).Admits ks) (hl : (any js).Admits ls) :
    (any js).Admits (ks ++ ls) := by
  refine (hk.append hl).mono ?_
  have happend : any js ++ any js = any (js ++ js) := rfl
  rw [happend]
  simp [within, any]

theorem admits_one (k : Kind) : (one k).Admits [k] := by
  intro j _
  exact .inr (Nat.le_refl _)

/-- A kind that a content does not list is in no row that it admits. -/
theorem Admits.mem (h : c.Admits ks) {k : Kind} (hk : k ∈ ks) : k ∈ c.once ++ c.many := by
  rw [List.mem_append]
  obtain hmany | hcount := h k hk
  · exact .inr hmany
  · exact .inl (List.count_pos_iff.1 (Nat.lt_of_lt_of_le (List.count_pos_iff.2 hk) hcount))

end Content

namespace Kind

/-- Nodes that are a whole type, as a list. -/
def types : List Kind := [
  .typePath, .typeOptional, .typeImplicitlyUnwrapped, .typeArray, .typeDictionary, .typeTuple,
  .typeFunction, .typeComposition, .typeSome, .typeAny, .typeAttributed]

/-- Nodes that introduce a declaration, as a list. -/
def declarations : List Kind := [
  .classDecl, .structDecl, .enumDecl, .protocolDecl, .actorDecl, .extensionDecl, .functionDecl,
  .initializerDecl, .deinitializerDecl, .subscriptDecl, .variableDecl, .typeAliasDecl,
  .associatedTypeDecl, .importDecl, .operatorDecl, .precedenceGroupDecl, .enumCaseDecl,
  .ifConfigDecl]

/-- The items of a scope. -/
def items : List Kind := declarations ++ [.statement, .error]

/-- What may stand before the keyword of a declaration. -/
def lead : List Kind := [.attributeList, .modifierList]

/-- The nodes that may stand directly in a node of a kind. -/
def content : Kind → Content
  | .sourceFile | .memberBlock | .codeBlock => .any items
  | .attributeList => .any [.attribute]
  | .attribute => ⟨[.name, .attributeArguments], []⟩
  | .attributeArguments => .any [.attributeArgument]
  | .modifierList => .any [.modifier]
  | .modifier => .one .modifierDetail
  | .genericParameterClause => .any [.genericParameter]
  | .genericParameter => ⟨[.attributeList, .name], types⟩
  | .genericWhereClause => .any [.genericRequirement]
  | .genericRequirement => .any types
  | .genericArgumentClause => .any types
  | .inheritanceClause => .any [.inheritedType]
  | .inheritedType | .annotatedType | .typeInitializer | .returnClause => .any types
  | .initializer => .one .expression
  | .classDecl | .structDecl | .enumDecl | .protocolDecl | .actorDecl =>
    ⟨lead ++ [.name, .genericParameterClause, .inheritanceClause, .genericWhereClause,
      .memberBlock], []⟩
  | .extensionDecl =>
    ⟨lead ++ [.inheritanceClause, .genericWhereClause, .memberBlock], types⟩
  | .functionDecl =>
    ⟨lead ++ [.name, .genericParameterClause, .functionSignature, .genericWhereClause,
      .codeBlock], []⟩
  | .initializerDecl =>
    ⟨lead ++ [.genericParameterClause, .functionSignature, .genericWhereClause, .codeBlock], []⟩
  | .deinitializerDecl => ⟨lead ++ [.codeBlock], []⟩
  | .subscriptDecl =>
    ⟨lead ++ [.genericParameterClause, .parameterClause, .returnClause, .genericWhereClause,
      .accessorBlock], []⟩
  | .variableDecl => ⟨lead ++ [.patternBindingList], []⟩
  | .typeAliasDecl =>
    ⟨lead ++ [.name, .genericParameterClause, .typeInitializer, .genericWhereClause], []⟩
  | .associatedTypeDecl =>
    ⟨lead ++ [.name, .inheritanceClause, .typeInitializer, .genericWhereClause], []⟩
  | .importDecl => ⟨lead ++ [.importPath], []⟩
  | .operatorDecl => ⟨lead ++ [.name, .precedenceDesignation], []⟩
  | .precedenceGroupDecl => ⟨lead ++ [.name], [.precedenceGroupAttribute]⟩
  | .enumCaseDecl => ⟨lead, [.enumCaseElement]⟩
  | .ifConfigDecl => ⟨lead, [.ifConfigClause]⟩
  | .error => ⟨lead, []⟩
  | .patternBindingList => .any [.patternBinding]
  | .patternBinding =>
    ⟨[.identifierPattern, .tuplePattern, .annotatedType, .initializer, .accessorBlock], []⟩
  | .accessorBlock => .any (.accessorDecl :: items)
  | .accessorDecl => ⟨lead ++ [.accessorParameter, .effectSpecifiers, .codeBlock], []⟩
  | .functionSignature => ⟨[.parameterClause, .effectSpecifiers, .returnClause], []⟩
  | .parameterClause => .any [.functionParameter]
  | .functionParameter => ⟨[.attributeList, .annotatedType, .initializer], []⟩
  | .enumCaseElement => ⟨[.name, .enumCaseParameterClause, .initializer], []⟩
  | .enumCaseParameterClause => .any [.enumCaseParameter]
  | .enumCaseParameter => ⟨[.initializer], types⟩
  | .ifConfigClause => ⟨[.ifConfigCondition], items⟩
  | .typePath => .any [.typePathSegment]
  | .typePathSegment => .one .genericArgumentClause
  | .typeOptional | .typeImplicitlyUnwrapped | .typeArray | .typeDictionary => .any types
  | .typeTuple => .any [.typeTupleElement]
  | .typeTupleElement => .any types
  | .typeFunction => ⟨[.effectSpecifiers], types⟩
  | .typeComposition | .typeSome | .typeAny => .any types
  | .typeAttributed => .any (.attributeList :: types)
  | _ => .empty

end Kind

/-! ## origins -/

namespace Kind

/-- Nodes that stand where a declaration was announced. -/
def isAnnounced (k : Kind) : Bool := k.isDeclaration || k == .error

/-- The words at which a node of a kind may start. Where a declaration was announced, its node
is of the kind that the word behind attributes and then modifiers makes. -/
def Origin (k : Kind) (ws : List Word) : Prop :=
  k.isAnnounced = true →
    Grammar.atDeclaration ws = true ∧ Grammar.declared (Grammar.afterLead ws) = k

end Kind

/-- Whether a content may fill a node of a kind, wherever the node stands and with nothing to report
that only nodes of this kind do. -/
def Content.fills (c : Content) (k : Kind) : Bool :=
  !k.isAnnounced && k != .ifConfigCondition && c.within k.content

/-- The faults that only nodes of one kind report. -/
def Fault.isOwn : Fault → Bool
  | .noDeclaration | .noCondition => true
  | _ => false

/-! ## sketches -/

namespace Sketch

/-- The kinds of the outermost nodes of a run of sketches. -/
def kinds : List Sketch → List Kind
  | [] => []
  | .node k _ :: ss => k :: kinds ss
  | _ :: ss => kinds ss

theorem kinds_append (ss ts : List Sketch) : kinds (ss ++ ts) = kinds ss ++ kinds ts := by
  induction ss with
  | nil => rfl
  | cons s ss ih => cases s <;> simp [kinds, ih]

mutual

/-- Every node of a sketch has the content of its kind. -/
def Shaped : Sketch → Prop
  | .node k ps => k.content.Admits (kinds ps) ∧ ShapedAll ps
  | _ => True

/-- Every node of a run of sketches has the content of its kind. -/
def ShapedAll : List Sketch → Prop
  | [] => True
  | s :: ss => Shaped s ∧ ShapedAll ss

end

theorem shapedAll_append {ss ts : List Sketch} (hs : ShapedAll ss) (ht : ShapedAll ts) :
    ShapedAll (ss ++ ts) := by
  induction ss with
  | nil => exact ht
  | cons s ss ih => exact ⟨hs.1, ih hs.2⟩

/-- The parts of a node report that a declaration is missing exactly if it is an `error`, and that a
condition is missing exactly if it is a condition and no words are left. Some words stand after the
node. -/
def Reporting (k : Kind) (ps : List Sketch) (rest : List Word) : Prop :=
  (.fault .noDeclaration ∈ ps ↔ k = .error) ∧
    (.fault .noCondition ∈ ps ↔ k = .ifConfigCondition ∧ wordsOfAll ps ++ rest = [])

mutual

/-- Every node of a sketch starts at words that its kind may start at, and reports what only nodes
of its kind do. Some words stand after the sketch. -/
def Sited : Sketch → List Word → Prop
  | .node k ps, rest =>
    k.Origin (wordsOfAll ps ++ rest) ∧ Reporting k ps rest ∧ SitedAll ps rest
  | _, _ => True

/-- Every node of a run of sketches starts at words that its kind may start at, and reports what
only nodes of its kind do. -/
def SitedAll : List Sketch → List Word → Prop
  | [], _ => True
  | s :: ss, rest => Sited s (wordsOfAll ss ++ rest) ∧ SitedAll ss rest

end

theorem sitedAll_append {ss ts : List Sketch} {rest : List Word}
    (hs : SitedAll ss (wordsOfAll ts ++ rest)) (ht : SitedAll ts rest) :
    SitedAll (ss ++ ts) rest := by
  induction ss with
  | nil => exact ht
  | cons s ss ih =>
    have hwords : wordsOfAll (ss ++ ts) ++ rest = wordsOfAll ss ++ (wordsOfAll ts ++ rest) := by
      rw [wordsOfAll_append, List.append_assoc]
    refine ⟨?_, ih hs.2⟩
    show Sited s (wordsOfAll (ss ++ ts) ++ rest)
    rw [hwords]
    exact hs.1

/-- A run of sketches before some words is shaped and sited, and its outermost nodes are as a
content says. -/
structure Fits (c : Content) (ss : List Sketch) (rest : List Word) : Prop where
  admits : c.Admits (kinds ss)
  shaped : ShapedAll ss
  sited : SitedAll ss rest
  quiet : ∀ f, .fault f ∈ ss → f.isOwn = false

namespace Fits

variable {c d : Content} {ss ts : List Sketch} {rest : List Word}

theorem nil : Fits c [] rest := ⟨c.admits_nil, True.intro, True.intro, nofun⟩

theorem word (w : Word) (h : Fits c ss rest) : Fits c (.word w :: ss) rest where
  admits := h.admits
  shaped := ⟨True.intro, h.shaped⟩
  sited := ⟨True.intro, h.sited⟩
  quiet := by simpa using h.quiet

/-- A mark, but for a fault that only nodes of one kind report. -/
theorem mark {s : Sketch} (hs : s = .gap ∨ ∃ f, s = .fault f ∧ f.isOwn = false) :
    Fits c [s] rest := by
  obtain rfl | ⟨f, rfl, hf⟩ := hs
  · exact ⟨c.admits_nil, ⟨True.intro, True.intro⟩, ⟨True.intro, True.intro⟩, by simp⟩
  · exact ⟨c.admits_nil, ⟨True.intro, True.intro⟩, ⟨True.intro, True.intro⟩, by simp [hf]⟩

theorem mono (h : Fits c ss rest) (hcd : c.within d = true) : Fits d ss rest :=
  ⟨h.admits.mono hcd, h.shaped, h.sited, h.quiet⟩

theorem append (hs : Fits c ss (wordsOfAll ts ++ rest)) (ht : Fits d ts rest) :
    Fits (c ++ d) (ss ++ ts) rest where
  admits := by
    rw [kinds_append]
    exact hs.admits.append ht.admits
  shaped := shapedAll_append hs.shaped ht.shaped
  sited := sitedAll_append hs.sited ht.sited
  quiet f hf := (List.mem_append.1 hf).elim (hs.quiet f) (ht.quiet f)

theorem append_any {ks : List Kind} (hs : Fits (.any ks) ss (wordsOfAll ts ++ rest))
    (ht : Fits (.any ks) ts rest) : Fits (.any ks) (ss ++ ts) rest := by
  obtain ⟨_, hshaped, hsited, hquiet⟩ := hs.append ht
  refine ⟨?_, hshaped, hsited, hquiet⟩
  rw [kinds_append]
  exact hs.admits.append_any ht.admits

/-- A node that starts at words its kind may start at, and reports what only nodes of its kind
do. -/
theorem reporting {k : Kind} (hadmits : k.content.Admits (kinds ss)) (hshaped : ShapedAll ss)
    (hsited : SitedAll ss rest) (horigin : k.Origin (wordsOfAll ss ++ rest))
    (hreports : Reporting k ss rest) : Fits (.one k) [.node k ss] rest :=
  ⟨Content.admits_one k, ⟨⟨hadmits, hshaped⟩, True.intro⟩,
    ⟨⟨horigin, hreports, hsited⟩, True.intro⟩, by simp⟩

/-- Parts that report nothing of the kind are those of a node of another kind. -/
theorem reporting_of_ne {k : Kind} (h : Fits c ss rest) (herror : k ≠ .error)
    (hcondition : k ≠ .ifConfigCondition) : Reporting k ss rest :=
  ⟨iff_of_false (fun hf => Bool.noConfusion (h.quiet _ hf)) herror,
    iff_of_false (fun hf => Bool.noConfusion (h.quiet _ hf)) fun hk => hcondition hk.1⟩

/-- A node around a run of sketches that the content of its kind allows. -/
theorem node {k : Kind} (h : Fits c ss rest) (hk : c.fills k = true) :
    Fits (.one k) [.node k ss] rest := by
  obtain ⟨ho, hk⟩ := Bool.and_eq_true_iff.1 hk
  obtain ⟨ho, hcondition⟩ := Bool.and_eq_true_iff.1 ho
  rw [Bool.not_eq_true'] at ho
  have hne : k ≠ .error := by
    rintro rfl
    cases ho
  have horigin : k.Origin (wordsOfAll ss ++ rest) := by
    intro hannounced
    rw [ho] at hannounced
    cases hannounced
  exact reporting (h.admits.mono hk) h.shaped h.sited horigin
    (h.reporting_of_ne hne (by simpa using hcondition))

end Fits

end Sketch

/-! ## shaped trees -/

namespace Tree

/-- The kinds of the nodes among trees. -/
def kinds : List Tree → List Kind
  | [] => []
  | .node k _ :: ts => k :: kinds ts
  | .token .. :: ts => kinds ts

theorem kinds_append (ts us : List Tree) : kinds (ts ++ us) = kinds ts ++ kinds us := by
  induction ts with
  | nil => rfl
  | cons t ts ih => cases t <;> simp [kinds, ih]

mutual

/-- Every node of a tree has the content of its kind. -/
def Shaped : Tree → Prop
  | .node k cs => k.content.Admits (kinds cs) ∧ ShapedAll cs
  | .token .. => True

/-- Every node of trees has the content of its kind. -/
def ShapedAll : List Tree → Prop
  | [] => True
  | t :: ts => Shaped t ∧ ShapedAll ts

end

theorem shapedAll_append {ts us : List Tree} (ht : ShapedAll ts) (hu : ShapedAll us) :
    ShapedAll (ts ++ us) := by
  induction ts with
  | nil => exact hu
  | cons t ts ih => exact ⟨ht.1, ih ht.2⟩

theorem ShapedAll.mem {ts : List Tree} (h : ShapedAll ts) {t : Tree} (ht : t ∈ ts) :
    t.Shaped := by
  induction ts with
  | nil => cases ht
  | cons u us ih =>
    obtain rfl | ht := List.mem_cons.1 ht
    · exact h.1
    · exact ih h.2 ht

theorem mem_kinds {ts : List Tree} {t : Tree} (ht : t ∈ ts) (hn : t.isNode = true) :
    t.kind ∈ kinds ts := by
  induction ts with
  | nil => cases ht
  | cons u us ih =>
    obtain rfl | hu := List.mem_cons.1 ht
    · cases t with
      | node k cs => exact List.mem_cons_self
      | token k s => cases hn
    · cases u with
      | node k cs => exact List.mem_cons_of_mem _ (ih hu)
      | token k s => exact ih hu

end Tree

/-! ## rules -/

namespace Grammar

namespace Parsed

variable {c d : Content} {ws : List Word}

/-- What was taken is shaped and sited, and its outermost nodes are as a content says. -/
def Fits (c : Content) (p : Parsed ws) : Prop := Sketch.Fits c p.sketches p.rest

theorem Fits.mono {p : Parsed ws} (hp : p.Fits c) (hcd : c.within d = true) : p.Fits d :=
  Sketch.Fits.mono hp hcd

theorem fits_done : (done ws).Fits c := .nil

theorem Fits.word {r : List Word} {p : Parsed r} (hp : p.Fits c) (w : Word) :
    (cons w p).Fits c := Sketch.Fits.word w hp

theorem fits_take (w : Word) (r : List Word) : (take w r).Fits c := fits_done.word w

theorem Fits.before {p : Parsed ws} (hp : p.Fits c) (q : Parsed p.rest) :
    Sketch.Fits c p.sketches (Sketch.wordsOfAll q.sketches ++ q.rest) := by
  rw [q.covers]
  exact hp

theorem Fits.append {p : Parsed ws} {q : Parsed p.rest} (hp : p.Fits c) (hq : q.Fits d) :
    (p.append q).Fits (c ++ d) := (hp.before q).append hq

theorem Fits.append_any {m : List Kind} {p : Parsed ws} {q : Parsed p.rest}
    (hp : p.Fits (.any m)) (hq : q.Fits (.any m)) : (p.append q).Fits (.any m) :=
  (hp.before q).append_any hq

/-- A node where a declaration was announced, after some words that fit. -/
theorem Fits.announced {k : Kind} {p : Parsed ws} {q : Parsed p.rest} (hp : p.Fits c)
    (hadmits : d.Admits (Sketch.kinds q.sketches)) (hshaped : Sketch.ShapedAll q.sketches)
    (hsited : Sketch.SitedAll q.sketches q.rest) (hcd : (c ++ d).within k.content = true)
    (ho : k.Origin ws) (hne : k ≠ .ifConfigCondition)
    (hreports : Sketch.Reporting k q.sketches q.rest) :
    (Parsed.node k (p.append q)).Fits (.one k) := by
  have hall : (Sketch.kinds (p.append q).sketches) =
      Sketch.kinds p.sketches ++ Sketch.kinds q.sketches := Sketch.kinds_append _ _
  have hfault (f : Fault) (hf : f.isOwn = true) :
      .fault f ∈ (p.append q).sketches ↔ .fault f ∈ q.sketches := by
    refine List.mem_append.trans (or_iff_right fun hmem => ?_)
    rw [hp.quiet f hmem] at hf
    cases hf
  refine Sketch.Fits.reporting ?_ (Sketch.shapedAll_append hp.shaped hshaped)
    (Sketch.sitedAll_append (hp.before q).sited hsited) ?_ ⟨?_, ?_⟩
  · rw [hall]
    exact (hp.admits.append hadmits).mono hcd
  · show k.Origin (Sketch.wordsOfAll (p.append q).sketches ++ (p.append q).rest)
    rw [(p.append q).covers]
    exact ho
  · exact (hfault _ rfl).trans hreports.1
  · exact (hfault _ rfl).trans (hreports.2.trans (by simp [hne]))

theorem Fits.node {k : Kind} {p : Parsed ws} (hp : p.Fits c) (hk : c.fills k = true) :
    (Parsed.node k p).Fits (.one k) := Sketch.Fits.node hp hk

end Parsed

namespace Rule

variable {n : Nat} {c d : Content} {m : List Kind}

/-- What a rule takes is shaped and sited, and its outermost nodes are as a content says. -/
def Fits (c : Content) (p : Rule n) : Prop := ∀ ws h, (p ws h).Fits c

theorem Fits.mono {p : Rule n} (hp : Fits c p) (hcd : c.within d = true) : Fits d p :=
  fun ws h => (hp ws h).mono hcd

/-- A rule that takes no node stands wherever any other one may. -/
theorem Fits.of_empty {p : Rule n} (hp : Fits .empty p) : Fits c p := hp.mono rfl

theorem fits_done : Fits c (done : Rule n) := fun _ _ => Parsed.fits_done

theorem fits_fault (f : Fault) (hf : f.isOwn = false) :
    Fits .empty (fault f : Rule n) :=
  fun _ _ => Sketch.Fits.mark (.inr ⟨f, rfl, hf⟩)

theorem fits_gap : Fits .empty (gap : Rule n) := fun _ _ => Sketch.Fits.mark (.inl rfl)

theorem fits_bump : Fits .empty (bump : Rule n) := fun ws _ => by
  cases ws with
  | nil => exact Sketch.Fits.mark (.inl rfl)
  | cons w r => exact Parsed.fits_take w r

theorem Fits.seq {p q : Rule n} (hp : Fits c p) (hq : Fits d q) : Fits (c ++ d) (p >> q) :=
  fun ws h => (hp ws h).append (hq _ _)

theorem Fits.seq_any {p q : Rule n} (hp : Fits (.any m) p) (hq : Fits (.any m) q) :
    Fits (.any m) (p >> q) := fun ws h => (hp ws h).append_any (hq _ _)

theorem Fits.node {p : Rule n} (hp : Fits c p) {k : Kind} (hk : c.fills k = true) :
    Fits (.one k) (node k p) := fun ws h => (hp ws h).node hk

theorem Fits.ifAt {p q : Rule n} (hp : Fits c p) (hq : Fits c q) (t : List Word → Bool) :
    Fits c (ifAt t p q) := fun ws h => by
  unfold Rule.ifAt
  split
  · exact hp ws h
  · exact hq ws h

theorem Fits.optional {p : Rule n} (hp : Fits c p) (t : List Word → Bool) :
    Fits c (optional t p) := hp.ifAt fits_done t

theorem fits_eat (k : Kind) : Fits .empty (eat k : Rule n) := fits_bump.optional _

theorem fits_expect (k : Kind) (f : Fault) (hf : f.isOwn = false) :
    Fits .empty (expect k f : Rule n) := fits_bump.ifAt (fits_fault f hf) _

theorem fits_onWord {p : (w : Word) → (r : List Word) → r.length < n → Parsed (w :: r)}
    (hp : ∀ w r h, (p w r h).Fits c) : Fits c (onWord p) := fun ws h => by
  cases ws with
  | nil => exact Sketch.Fits.mark (.inl rfl)
  | cons w r => exact hp w r _

theorem Fits.after {p : Rule n} (hp : Fits c p) : Fits c (after p) :=
  fits_onWord fun w r h => (hp r h).word w

theorem Fits.advancing {t : List Word → Bool} {p : Rule (n + 1)} {q : Rule n}
    (hp : Fits c p) (ha : Advances t p) (hq : Fits d q) (hcd : c.within (c ++ d) = true) :
    Fits (c ++ d) (advancing t p ha q) := fun ws h => by
  unfold Rule.advancing
  split
  · exact (hp ws h).append (hq _ _)
  · exact (hp ws h).mono hcd

/-! ## loops -/

theorem Fits.many {t : List Word → Bool} {p : Rule n} (hp : Fits (.any m) p)
    (ha : Advances t p) : Fits (.any m) (many t p ha) := fun ws h => by
  induction hlen : ws.length using Nat.strongRecOn generalizing ws with
  | ind l ih =>
    unfold Rule.many
    split
    · next ht => exact (hp ws h).append_any (ih _ (hlen ▸ ha ws h ht) _ _ rfl)
    · exact Parsed.fits_done

theorem Fits.whileAt {p : Rule n} (hp : Fits (.any m) p) (t : List Word → Bool) :
    Fits (.any m) (whileAt t p) := fun ws h => by
  induction hlen : ws.length using Nat.strongRecOn generalizing ws with
  | ind l ih =>
    subst hlen
    cases ws with
    | nil =>
      unfold Rule.whileAt
      exact Parsed.fits_done
    | cons w r =>
      unfold Rule.whileAt
      split
      · refine ((hp r _).append_any (ih _ ?_ _ _ rfl)).word w
        exact Nat.lt_succ_of_le (Parsed.length_rest_le _)
      · exact Parsed.fits_done

theorem Fits.commaTail {p : Rule n} (hp : Fits (.any m) p) (t : List Word → Bool) :
    Fits (.any m) (commaTail t p) := fun ws h => by
  induction hlen : ws.length using Nat.strongRecOn generalizing ws with
  | ind l ih =>
    subst hlen
    cases ws with
    | nil =>
      unfold Rule.commaTail
      exact Parsed.fits_done
    | cons w r =>
      unfold Rule.commaTail
      split
      · split
        · refine ((hp r _).append_any (ih _ ?_ _ _ rfl)).word w
          exact Nat.lt_succ_of_le (Parsed.length_rest_le _)
        · exact Parsed.fits_take w r
      · exact Parsed.fits_done

theorem Fits.commaList {p : Rule n} (hp : Fits (.any m) p) (t : List Word → Bool) :
    Fits (.any m) (commaList t p) := (hp.seq_any (hp.commaTail t)).optional t

end Rule

end Grammar

end SwiftOutline

import SwiftOutline.Declaration.Inspection

/-!
# SwiftOutline.Proofs.Remembered

What is found out of a declaration does not depend on how often or in which order it is asked for.

* `Property.valueAt` — what a property is by the node alone, told property by property;
* `Inspection.askAll` — questions about one node, asked one after the other;
* `Inspection.settled` — the value of a property once questions are asked: what is known before,
  or what it is by the node with the first question about it;
* `settled_ask` — a step: asking one question settles it for all that follow;
* `Inspection.Counted` — a closure for a name was run once if the name is known, and none before;
* `answers_of_start` — every answer is what its property is by the node with the first question
  about it, and no closure but the first one is run.
-/

namespace SwiftOutline

/-- What a property is by a node alone: the name that a closure gives the node, the first token
directly below it, what its modifiers, attributes and generic clauses read as, the types in its
clause of inheritance, and the declarations collected in its first block of a kind. -/
def Property.valueAt (node : Located) (config : Config) : (p : Property) → p.Request → p.Value
  | .name, resolve => resolve node
  | .keyword, _ => (node.tree.words.head?.map (·.text)).getD ""
  | .modifiers, _ => Modifiers.ofDeclaration node.tree
  | .attributes, _ => Attribute.ofDeclaration node.tree
  | .genericParameters, _ => GenericParameter.ofDeclaration node.tree
  | .genericRequirements, _ => GenericRequirement.ofDeclaration node.tree
  | .inheritance, _ => ((node.tree.childOf? .inheritanceClause).map fun clause =>
      (clause.childrenOf .inheritedType).map Tree.normalizedText).getD []
  | .members, (block, owner) => (node.children.find? fun c => c.tree.isNodeOf block).map
      (Declaration.collect config (some owner))

/-- A property asked for, with what it is asked with. -/
structure Question where
  property : Property
  request : property.Request

/-- A property with its value. -/
structure Answer where
  property : Property
  value : property.Value

namespace Question

/-- What a question asks a property with, if it is about that property. -/
def request? (p : Property) (q : Question) : Option p.Request :=
  if h : q.property = p then some (h ▸ q.request) else none

/-- What the first question about a property asks it with. -/
def first? (p : Property) (qs : List Question) : Option p.Request := qs.findSome? (request? p)

@[simp] theorem request?_self (q : Question) : request? q.property q = some q.request := by
  simp [request?]

theorem request?_of_ne {p : Property} {q : Question} (h : q.property ≠ p) :
    request? p q = none := by
  simp [request?, h]

theorem first?_cons (p : Property) (q : Question) (qs : List Question) :
    first? p (q :: qs) = (request? p q).or (first? p qs) := by
  cases h : request? p q <;> simp [first?, h]

theorem isSome_first? (p : Property) (qs : List Question) :
    (first? p qs).isSome = qs.any (·.property == p) := by
  induction qs with
  | nil => rfl
  | cons q qs ih =>
    by_cases h : q.property = p
    · subst h
      simp [first?_cons]
    · simp [first?_cons, request?_of_ne h, ih, h]

end Question

namespace Inspection

/-- Ask one question after the other. -/
def askAll (i : Inspection) : List Question → List Answer × Inspection
  | [] => ([], i)
  | q :: qs =>
    let (v, j) := i.ask q.property q.request
    let (answers, k) := j.askAll qs
    (⟨q.property, v⟩ :: answers, k)

/-- The value of a property once questions are asked. -/
def settled (i : Inspection) (qs : List Question) (p : Property) : Option p.Value :=
  (i.known p).or ((Question.first? p qs).map (p.valueAt i.node i.config))

/-! ## finding out -/

/-- What is found out is what the property is by the node. -/
theorem fst_find (i : Inspection) (p : Property) (r : p.Request) :
    (i.find p r).1 = p.valueAt i.node i.config r := by
  cases p with
  | inheritance =>
    show inheritedTypes i.node.tree = _
    rw [inheritedTypes, Property.valueAt]
    cases i.node.tree.childOf? .inheritanceClause <;> rfl
  | _ => rfl

/-- Finding out a property changes no cell; it runs a closure just if it is the name. -/
theorem snd_find (i : Inspection) (p : Property) (r : p.Request) :
    (i.find p r).2 = { i with namings := i.namings + if p = .name then 1 else 0 } := by
  cases p <;> rfl

/-! ## one question -/

theorem ask_of_known {i : Inspection} {p : Property} {v : p.Value} (r : p.Request)
    (h : i.known p = some v) : i.ask p r = (v, i) := by
  rw [ask, h]

theorem ask_of_unknown {i : Inspection} {p : Property} (r : p.Request) (h : i.known p = none) :
    i.ask p r = (p.valueAt i.node i.config r,
      (i.find p r).2.fill p (p.valueAt i.node i.config r)) := by
  rw [ask, h, ← fst_find]

/-- A question leaves the node and what is collected in it as they are. -/
theorem node_config_ask (i : Inspection) (p : Property) (r : p.Request) :
    (i.ask p r).2.node = i.node ∧ (i.ask p r).2.config = i.config := by
  cases h : i.known p with
  | some v => rw [ask_of_known r h]; exact ⟨rfl, rfl⟩
  | none =>
    rw [ask_of_unknown r h, node_fill, config_fill, snd_find]
    exact ⟨rfl, rfl⟩

theorem known_ask_self (i : Inspection) (p : Property) (r : p.Request) :
    (i.ask p r).2.known p = some (i.ask p r).1 := by
  cases h : i.known p with
  | some v => rw [ask_of_known r h, h]
  | none => rw [ask_of_unknown r h, known_fill_self]

theorem known_ask_of_ne (i : Inspection) {p q : Property} (r : p.Request) (h : p ≠ q) :
    (i.ask p r).2.known q = i.known q := by
  cases hp : i.known p with
  | some v => rw [ask_of_known r hp]
  | none =>
    rw [ask_of_unknown r hp, known_fill_of_ne _ _ h, snd_find]
    cases q <;> rfl

/-- A question gets the value that its property has with it and any that follow. -/
theorem settled_cons_self (i : Inspection) (q : Question) (qs : List Question) :
    i.settled (q :: qs) q.property = some (i.ask q.property q.request).1 := by
  rw [settled, Question.first?_cons, Question.request?_self]
  cases h : i.known q.property with
  | some v => rw [ask_of_known _ h, Option.some_or]
  | none => rw [ask_of_unknown _ h]; rfl

/-- Asking a question settles its property for all that follow, and no other. -/
theorem settled_ask (i : Inspection) (q : Question) (qs : List Question) :
    (i.ask q.property q.request).2.settled qs = i.settled (q :: qs) := by
  obtain ⟨hnode, hconfig⟩ := i.node_config_ask q.property q.request
  funext p
  by_cases h : q.property = p
  · subst h
    rw [settled_cons_self, settled, known_ask_self, Option.some_or]
  · rw [settled, settled, known_ask_of_ne i _ h, hnode, hconfig, Question.first?_cons,
      Question.request?_of_ne h, Option.none_or]

/-! ## many questions -/

theorem answers_cons (i : Inspection) (q : Question) (qs : List Question) :
    (i.askAll (q :: qs)).1 =
      ⟨q.property, (i.ask q.property q.request).1⟩ ::
        ((i.ask q.property q.request).2.askAll qs).1 := rfl

/-- After questions are asked, each property has the value that they settle. -/
theorem known_askAll (i : Inspection) (qs : List Question) :
    (i.askAll qs).2.known = i.settled qs := by
  induction qs generalizing i with
  | nil =>
    funext p
    simp [askAll, settled, Question.first?]
  | cons q qs ih => exact (ih _).trans (settled_ask i q qs)

/-- Every answer is the value that all questions together settle. -/
theorem answers_eq (i : Inspection) (qs : List Question) :
    (i.askAll qs).1 = qs.map fun q => ⟨q.property,
      (i.settled qs q.property).getD (q.property.valueAt i.node i.config q.request)⟩ := by
  induction qs generalizing i with
  | nil => rfl
  | cons q qs ih =>
    obtain ⟨hnode, hconfig⟩ := i.node_config_ask q.property q.request
    have htail := ih (i.ask q.property q.request).2
    rw [settled_ask, hnode, hconfig] at htail
    rw [answers_cons, List.map_cons, settled_cons_self, Option.getD_some, htail]

/-! ## closures that are run -/

/-- A closure for a name was run once if the name is known, and not at all if it is not. -/
def Counted (i : Inspection) : Prop := i.namings = if (i.known .name).isSome then 1 else 0

theorem Counted.ask {i : Inspection} (h : i.Counted) (p : Property) (r : p.Request) :
    (i.ask p r).2.Counted := by
  cases hp : i.known p with
  | some v => rwa [ask_of_known r hp]
  | none =>
    have hcount : (i.ask p r).2.namings = i.namings + if p = .name then 1 else 0 := by
      rw [ask_of_unknown r hp, namings_fill, snd_find]
    rw [Counted] at h ⊢
    rw [hcount, h]
    by_cases hname : p = .name
    · subst hname
      rw [known_ask_self, hp]
      rfl
    · rw [known_ask_of_ne i r hname, if_neg hname, Nat.add_zero]

theorem Counted.askAll {i : Inspection} (h : i.Counted) (qs : List Question) :
    (i.askAll qs).2.Counted := by
  induction qs generalizing i with
  | nil => exact h
  | cons q qs ih => exact ih (h.ask q.property q.request)

/-! ## runs from the start -/

variable (node : Located) (owner : Option DeclarationKind) (config : Config)

theorem known_start (p : Property) : (start node owner config).known p = none := by
  cases p <;> rfl

theorem settled_start (qs : List Question) (p : Property) :
    (start node owner config).settled qs p =
      (Question.first? p qs).map (p.valueAt node config) := by
  rw [settled, known_start, Option.none_or]
  rfl

theorem counted_start : (start node owner config).Counted := rfl

/-- Whatever is asked of a node and in whatever order, every answer is what its property is by the
node alone with the first question about that property: a name is what the first closure gives,
members are those of the first block asked for, under the first owner. One closure for a name is run
if any question is about the name, else none. -/
theorem answers_of_start (qs : List Question) :
    ((start node owner config).askAll qs).1 = (qs.map fun q =>
      ⟨q.property, q.property.valueAt node config
        ((Question.first? q.property qs).getD q.request)⟩) ∧
    ((start node owner config).askAll qs).2.namings =
      if qs.any (·.property == .name) then 1 else 0 := by
  refine ⟨?_, ?_⟩
  · rw [answers_eq]
    refine List.map_congr_left fun q _ => ?_
    rw [settled_start]
    cases Question.first? q.property qs <;> rfl
  · have h := (counted_start node owner config).askAll qs
    rw [Counted, known_askAll, settled_start, Option.isSome_map, Question.isSome_first?] at h
    exact h

/-- Names and members asked for in turns. The second closure and what the later questions about
members ask with are ignored; there is no block of code. -/
theorem answers_of_start_interleaved :
    let block : Tree := .node .memberBlock [.token .openBrace "\x7b", .token .closeBrace "\x7d"]
    let node : Located := ⟨.node .classDecl [.token .kwClass "class", .token .whitespace " ",
      .node .name [.token .identifier "A"], .token .whitespace " ", block], 0⟩
    let answers := (start node none .default).askAll
      [⟨.members, (.memberBlock, .extensionOfType)⟩, ⟨.name, fun _ => "A"⟩, ⟨.keyword, ()⟩,
        ⟨.members, (.codeBlock, .function)⟩, ⟨.name, fun l => l.tree.keyword⟩,
        ⟨.members, (.memberBlock, .classType)⟩, ⟨.modifiers, ()⟩]
    let members := some (Declaration.collect .default (some .extensionOfType) ⟨block, 8⟩)
    answers.1 = [⟨.members, members⟩, ⟨.name, "A"⟩, ⟨.keyword, "class"⟩, ⟨.members, members⟩,
      ⟨.name, "A"⟩, ⟨.members, members⟩, ⟨.modifiers, .empty⟩] ∧ answers.2.namings = 1 :=
  ⟨(answers_of_start _ _ _ _).1.trans rfl, (answers_of_start _ _ _ _).2.trans rfl⟩

end Inspection

end SwiftOutline

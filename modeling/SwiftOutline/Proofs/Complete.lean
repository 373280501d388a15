import SwiftOutline.Proofs.Regular

/-!
# SwiftOutline.Proofs.Complete

No type is missing in a source file without faults.

* `TypeShape.Complete` — a shape that is empty at no depth;
* `Parts.Holds`, `Kind.typeCount` — how many types a node of a kind holds at least, by the rows of
  parts that it may have;
* `complete_ofTree` — in a tree whose nodes have the parts of their kinds, every type has a complete
  shape: each place that a type is looked for holds one;
* `Site.complete_ofTree_of_mem_all` — so it is for the types of a source file without faults.
-/

namespace SwiftOutline

open scoped Computability

/-! ## complete shapes -/

namespace TypeShape

mutual

/-- No type is missing in a shape, at any depth. -/
def Complete : TypeShape → Prop
  | empty => False
  | simple _ => True
  | optional t => t.Complete
  | array t => t.Complete
  | set t => t.Complete
  | dictionary k v => k.Complete ∧ v.Complete
  | tuple ts => CompleteAll ts
  | closure inputs _ _ _ output => CompleteAll inputs ∧ output.Complete
  | result s f => s.Complete ∧ f.Complete
  | void => True

/-- No type is missing in any of some shapes. -/
def CompleteAll : List TypeShape → Prop
  | [] => True
  | t :: ts => t.Complete ∧ CompleteAll ts

end

theorem completeAll_iff {ts : List TypeShape} : CompleteAll ts ↔ ∀ t ∈ ts, t.Complete := by
  induction ts with
  | nil => simp [CompleteAll]
  | cons t ts ih => simp [CompleteAll, ih]

theorem Complete.withEscaping {t : TypeShape} (h : t.Complete) (escaping : Bool) :
    (t.withEscaping escaping).Complete := by
  cases t with
  | closure => simpa [TypeShape.withEscaping, Complete] using h
  | _ => exact h

theorem complete_first {ts : List TypeShape} (h : ∀ t ∈ ts, t.Complete) (hpos : 0 < ts.length) :
    (first ts).Complete := by
  cases ts with
  | nil => simp at hpos
  | cons t ts => simpa [first] using h t List.mem_cons_self

/-- A type that is known by its name is complete if its arguments are. -/
theorem complete_ofName? {name : String} {ts : List TypeShape} {u : TypeShape}
    (h : ∀ t ∈ ts, t.Complete) (hu : ofName? name ts = some u) : u.Complete := by
  unfold ofName? at hu
  split at hu <;> cases hu <;> simp_all [Complete]

theorem complete_ofPath {written : String} {segments : List (String × List TypeShape)}
    (h : ∀ segment ∈ segments, ∀ t ∈ segment.2, t.Complete) :
    (ofPath written segments).Complete := by
  have hknown (known : Option TypeShape) (hk : ∀ u, known = some u → u.Complete) :
      (known.getD (simple written)).Complete := by
    cases known with
    | none => simp [Complete]
    | some u => exact hk u rfl
  unfold ofPath
  refine hknown _ fun u hu => ?_
  split at hu
  · exact complete_ofName? (h _ List.mem_cons_self) hu
  · split at hu
    · exact complete_ofName? (h _ (List.mem_cons_of_mem _ List.mem_cons_self)) hu
    · cases hu
  · cases hu

theorem Element.complete_value {e : Element} (h : e.shape.Complete) : e.value.Complete := by
  unfold Element.value
  split <;> simpa [Complete] using h

theorem complete_ofElements {es : List Element} (h : ∀ e ∈ es, e.shape.Complete) :
    (ofElements es).Complete := by
  have hvalues {es : List Element} (h : ∀ e ∈ es, e.shape.Complete) :
      (tuple (es.map Element.value)).Complete := by
    rw [Complete, completeAll_iff]
    simpa using fun e he => Element.complete_value (h e he)
  unfold ofElements
  split
  · simp [Complete]
  · next e =>
    split
    · exact hvalues h
    · exact h e List.mem_cons_self
  · exact hvalues h

end TypeShape

/-! ## types in rows of parts -/

/-- Whether a part is a type. -/
def Part.isType : Part → Bool
  | .word _ => false
  | .node k => k.isType

theorem Tree.isType_part (t : Tree) : t.part.isType = t.isType := by
  cases t <;> rfl

namespace Parts

variable {p : Part → Bool} {L M : Parts} {m n : Nat}

/-- Every row of a language holds at least some number of parts of a sort. -/
def Holds (p : Part → Bool) (n : Nat) (L : Parts) : Prop := ∀ ps ∈ L, n ≤ ps.countP p

theorem holds_zero (p : Part → Bool) (L : Parts) : Holds p 0 L := fun _ _ => Nat.zero_le _

theorem holds_nodeOf {ks : List Kind} (h : ∀ k ∈ ks, p (.node k) = true) :
    Holds p 1 (nodeOf ks) := by
  rintro _ ⟨k, hk, rfl⟩
  simp [h k hk]

theorem Holds.mul (hL : Holds p m L) (hM : Holds p n M) : Holds p (m + n) (L * M) := by
  rintro _ ⟨ps, hps, qs, hqs, rfl⟩
  have hleft := hL ps hps
  have hright := hM qs hqs
  simp only [List.countP_append]
  omega

/-- What stands before a row takes nothing away from it. -/
theorem Holds.behind (hM : Holds p n M) (L : Parts) : Holds p n (L * M) := by
  simpa using (holds_zero p L).mul hM

/-- Nor does what stands after it. -/
theorem Holds.before (hL : Holds p n L) (M : Parts) : Holds p n (L * M) :=
  hL.mul (holds_zero p M)

end Parts

open Parts

namespace Kind

/-- How many types a node holds at least, for kinds that ask for types by their place. -/
def typeCount : Kind → Nat
  | .typeDictionary | .typeFunction => 2
  | .typeOptional | .typeImplicitlyUnwrapped | .typeArray | .typeTupleElement | .typeAttributed
  | .annotatedType => 1
  | _ => 0

/-- A node with the parts of its kind holds the types that are asked for. -/
theorem holds_parts (k : Kind) : Holds Part.isType k.typeCount k.parts := by
  have htype : Holds Part.isType 1 type := holds_nodeOf (by decide)
  have htuple : Holds Part.isType 1 (node .typeTuple) := holds_nodeOf (by decide)
  unfold typeCount
  split
  · exact (htype.mul ((htype.before _).behind _)).behind _
  · exact htuple.mul ((htype.behind _).behind _)
  · exact htype.before _
  · exact htype.before _
  · exact (htype.before _).behind _
  · exact (htype.before _).behind _
  · exact ((htype.behind _).behind _).behind _
  · exact htype.behind _
  · exact holds_zero _ _

end Kind

/-! ## shapes of regular trees -/

namespace TypeShape

theorem length_typesIn (ts : List Tree) :
    (typesIn ts).length = (ts.map Tree.part).countP Part.isType := by
  induction ts with
  | nil => rfl
  | cons t ts ih =>
    rw [typesIn, List.map_cons, List.countP_cons, Tree.isType_part]
    split <;> simp [*]

/-- A node with the parts of its kind has its first type, if its kind asks for one. -/
theorem typeCount_le {k : Kind} {cs : List Tree} (h : (Tree.node k cs).Regular) :
    k.typeCount ≤ (typesIn cs).length := by
  rw [length_typesIn]
  exact k.holds_parts _ h.1

mutual

/-- Where every node has the parts of its kind, the shape of a type is complete. -/
theorem complete_ofTree {t : Tree} (h : t.Regular) (ht : t.isType = true) :
    (ofTree t).Complete := by
  cases t with
  | token k s => cases ht
  | node k cs =>
    have htypes := complete_typesIn h.2
    have hcount := typeCount_le h
    have hfirst (hk : 1 ≤ k.typeCount) : (first (typesIn cs)).Complete :=
      complete_first htypes (by omega)
    have hsecond (hk : 2 ≤ k.typeCount) : (first (typesIn cs).tail).Complete :=
      complete_first (fun t ht => htypes t (List.mem_of_mem_tail ht))
        (by rw [List.length_tail]; omega)
    unfold ofTree
    split
    · exact complete_ofPath (complete_segmentsIn h.2)
    · exact hfirst le_rfl
    · exact hfirst le_rfl
    · exact hfirst le_rfl
    · exact ⟨hfirst (by decide), hsecond le_rfl⟩
    · exact complete_ofElements (complete_elementsIn h.2)
    · refine ⟨completeAll_iff.2 ?_, hsecond le_rfl⟩
      simpa using fun e he => Element.complete_value (complete_inputsIn h.2 e he)
    · exact (hfirst le_rfl).withEscaping _
    · simp [Complete]
    · simp [Complete]
    · simp [Complete]
    · simp_all [Tree.isType, Tree.isNode, Tree.kind, Kind.isType]

theorem complete_typesIn {ts : List Tree} (h : Tree.RegularAll ts) :
    ∀ t ∈ typesIn ts, t.Complete := by
  cases ts with
  | nil => simp [typesIn]
  | cons t ts =>
    have hothers := complete_typesIn h.2
    rw [typesIn]
    split
    · next ht => exact List.forall_mem_cons.2 ⟨complete_ofTree h.1 ht, hothers⟩
    · exact hothers

theorem complete_segmentsIn {ts : List Tree} (h : Tree.RegularAll ts) :
    ∀ segment ∈ segmentsIn ts, ∀ t ∈ segment.2, t.Complete := by
  cases ts with
  | nil => simp [segmentsIn]
  | cons t ts =>
    have hothers := complete_segmentsIn h.2
    unfold segmentsIn
    split
    · next hnil => cases hnil
    · next cs us heq =>
      obtain ⟨rfl, rfl⟩ := List.cons.inj heq
      exact List.forall_mem_cons.2 ⟨complete_argumentsIn h.1.2, hothers⟩
    · next heq =>
      obtain ⟨rfl, rfl⟩ := List.cons.inj heq
      exact hothers

theorem complete_argumentsIn {ts : List Tree} (h : Tree.RegularAll ts) :
    ∀ t ∈ argumentsIn ts, t.Complete := by
  cases ts with
  | nil => simp [argumentsIn]
  | cons t ts =>
    have hothers := complete_argumentsIn h.2
    unfold argumentsIn
    split
    · next hnil => cases hnil
    · next heq =>
      obtain ⟨rfl, rfl⟩ := List.cons.inj heq
      exact complete_typesIn h.1.2
    · next heq =>
      obtain ⟨rfl, rfl⟩ := List.cons.inj heq
      exact hothers

theorem complete_elementsIn {ts : List Tree} (h : Tree.RegularAll ts) :
    ∀ e ∈ elementsIn ts, e.shape.Complete := by
  cases ts with
  | nil => simp [elementsIn]
  | cons t ts =>
    have hothers := complete_elementsIn h.2
    unfold elementsIn
    split
    · next hnil => cases hnil
    · next cs us heq =>
      obtain ⟨rfl, rfl⟩ := List.cons.inj heq
      have hcount := typeCount_le h.1
      exact List.forall_mem_cons.2
        ⟨complete_first (complete_typesIn h.1.2) (Nat.lt_of_lt_of_le Nat.one_pos hcount), hothers⟩
    · next heq =>
      obtain ⟨rfl, rfl⟩ := List.cons.inj heq
      exact hothers

theorem complete_inputsIn {ts : List Tree} (h : Tree.RegularAll ts) :
    ∀ e ∈ inputsIn ts, e.shape.Complete := by
  cases ts with
  | nil => simp [inputsIn]
  | cons t ts =>
    have hothers := complete_inputsIn h.2
    unfold inputsIn
    split
    · next hnil => cases hnil
    · next heq =>
      obtain ⟨rfl, rfl⟩ := List.cons.inj heq
      exact complete_elementsIn h.1.2
    · next heq =>
      obtain ⟨rfl, rfl⟩ := List.cons.inj heq
      exact hothers

end

end TypeShape

/-! ## source files -/

namespace Site

variable {source : String} {s : Site}

/-- Without trivia, every node of a source file without faults is regular. -/
theorem regular_of_mem_all (hclean : (parse source).faults = [])
    (h : s ∈ all (parse source).tree) : s.node.tree.isNode = true ∧ s.node.tree.bare.Regular := by
  have hsketch := yields_fileSketch hclean
  have hroot : (parse source).tree.bare.Regular := by
    rw [bare_parse]
    exact ⟨hsketch.parts, Sketch.regular_treesOfAll hsketch.regular⟩
  exact of_mem_nodesIn (P := fun t => t.bare.Regular) (fun _ _ ht _ hc => Tree.Regular.of_mem ht hc)
    hroot h

/-- In a source file without faults, no type is missing inside a type. -/
theorem complete_ofTree_of_mem_all (hclean : (parse source).faults = [])
    (h : s ∈ all (parse source).tree) (ht : s.node.tree.isType = true) :
    (TypeShape.ofTree s.node.tree).Complete := by
  have hregular := (regular_of_mem_all hclean h).2
  rw [← TypeShape.ofTree_bare]
  exact TypeShape.complete_ofTree hregular (by simpa [Tree.isType] using ht)

end Site

end SwiftOutline

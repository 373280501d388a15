import SwiftOutline.Declaration

/-!
# SwiftOutline.Declaration.Path

Finding declarations by name and by path.

* `nested` — what is directly inside a declaration: its members, or for a conditional block
  what its branches declare;
* `findNamed?` — the first declaration of a name, each declaration before what is inside it;
* `atPath?` — the declaration at a path such as `Outer.Inner`. A name may hold dots itself, so
  the whole path is tried as one name first. The first part of a path may be anywhere, each
  other part is looked for inside what the part before it names.
-/

namespace SwiftOutline.Declaration

/-- The members of a declaration in source order, then what its branches declare, each branch
in source order. -/
def nested (d : Declaration) : List Declaration :=
  inSourceOrder (d.members?.getD []) ++
    d.branches.flatMap fun branch => inSourceOrder branch.declarations

theorem mem_inSourceOrder {d : Declaration} {ds : List Declaration} :
    d ∈ inSourceOrder ds ↔ d ∈ ds := by
  simp [inSourceOrder, sortByPosition, List.mem_mergeSort, grouped, ofKind,
    DeclarationKind.mem_all]

theorem sizeOf_lt_of_mem_scope {c d : Declaration} {s : Scope} (hs : s ∈ d.scopes)
    (hc : c ∈ s.declarations) : sizeOf c < sizeOf d := by
  obtain ⟨f, ss⟩ := d
  obtain ⟨h, ds⟩ := s
  have h₁ := List.sizeOf_lt_of_mem hs
  have h₂ := List.sizeOf_lt_of_mem hc
  simp only [scopes, Scope.declarations] at h₁ h₂
  simp only [Declaration.mk.sizeOf_spec, Scope.mk.sizeOf_spec] at h₁ h₂ ⊢
  omega

theorem sizeOf_lt_of_mem_nested {c d : Declaration} (h : c ∈ d.nested) :
    sizeOf c < sizeOf d := by
  simp only [nested, List.mem_append, List.mem_flatMap, mem_inSourceOrder] at h
  rcases h with h | ⟨s, hs, hc⟩
  · cases hf : d.scopes.find? (·.isMembers) with
    | none => simp [members?, hf] at h
    | some s =>
      exact sizeOf_lt_of_mem_scope (List.mem_of_find?_eq_some hf)
        (by simpa [members?, hf] using h)
  · exact sizeOf_lt_of_mem_scope (List.mem_filter.1 hs).1 hc

/-- The declaration itself if it has a name, else the first inside it that has it. -/
def named? (name : String) (d : Declaration) : Option Declaration :=
  if d.name = name then some d
  else d.nested.attach.findSome? fun ⟨c, h⟩ =>
    have := sizeOf_lt_of_mem_nested h
    named? name c
  termination_by sizeOf d

theorem named?_eq (name : String) (d : Declaration) :
    named? name d =
      if d.name = name then some d else d.nested.findSome? (named? name) := by
  rw [named?, List.findSome?_subtype (g := named? name) (fun _ _ => rfl), List.unattach_attach]

/-- The first of some declarations and of all that is inside them that has a name. -/
def findNamed? (name : String) (ds : List Declaration) : Option Declaration :=
  ds.findSome? (named? name)

/-- Follow names inwards. -/
def follow? (d : Declaration) : List String → Option Declaration
  | [] => some d
  | name :: rest => (findNamed? name d.nested).bind fun e => follow? e rest

/-- The names that the dots of a path separate; an empty one stays. -/
def namesOfPath (path : String) : List String :=
  (path.toList.splitOn '.').map String.ofList

/-- The declaration at a path. -/
def atPath? (path : String) (ds : List Declaration) : Option Declaration :=
  (findNamed? path ds).or <|
    match namesOfPath path with
    | [] => none
    | first :: rest => (findNamed? first ds).bind fun d => d.follow? rest

end SwiftOutline.Declaration

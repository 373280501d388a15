import Mathlib.Data.List.DropRight
import Mathlib.Data.List.Nodup
import SwiftOutline.Modifier
import SwiftOutline.Proofs.Filed

/-!
# SwiftOutline.Proofs.Summary

What the modifiers of a declaration keep of those that are written.

* `Modifiers.IsLast` — a modifier after which no other one of its name is written;
* `Modifiers.Summarises` — what is kept of some modifiers: each name where it comes up first, with
  the detail that it has where it comes up last;
* `Summarises.insert` — a step: one more modifier is kept as well;
* `Summarises.insertAll` — many of them, one after the other;
* `ofDeclaration_summarises` — so it is for every declaration.

Place and detail of a name come from two different modifiers, so neither the list of names nor the
details can be told from one of the modifiers alone.
-/

namespace SwiftOutline

/-! ## what comes up first -/

section
variable {α : Type} [DecidableEq α]

/-- Keeping what comes up first leaves no more, and leaves as many only where nothing comes up
twice. -/
theorem length_eraseDups (as : List α) :
    as.eraseDups.length ≤ as.length ∧ (as.eraseDups.length = as.length ↔ as.Nodup) := by
  induction as using List.reverseRecOn with
  | nil => simp
  | append_singleton as a ih =>
    obtain ⟨hle, hiff⟩ := ih
    have hnodup : (as ++ [a]).Nodup ↔ a ∉ as ∧ as.Nodup := by
      rw [← List.concat_eq_append, List.nodup_concat]
    rw [eraseDups_concat, List.length_append, List.length_singleton, hnodup, ← hiff]
    by_cases h : a ∈ as
    · rw [if_pos h]
      exact ⟨by omega, fun heq => by omega, fun hnew => absurd h hnew.1⟩
    · rw [if_neg h, List.length_append, List.length_singleton]
      exact ⟨by omega, fun heq => ⟨h, by omega⟩, fun heq => by rw [heq.2]⟩

end

namespace Modifiers

/-! ## what comes up last -/

/-- Whether no other one of its name stands behind some modifier. -/
def IsLast (ms : List Modifier) (m : Modifier) : Prop :=
  ∃ before after, ms = before ++ m :: after ∧ ∀ x ∈ after, x.name ≠ m.name

theorem not_isLast_nil (m : Modifier) : ¬ IsLast [] m := by
  rintro ⟨before, after, h, -⟩
  simp at h

/-- Of more modifiers, the last one is the last of its name, and those of other names stay so. -/
theorem isLast_concat {ms : List Modifier} {m x : Modifier} :
    IsLast (ms ++ [m]) x ↔ x = m ∨ x.name ≠ m.name ∧ IsLast ms x := by
  constructor
  · rintro ⟨before, after, h, hafter⟩
    obtain rfl | ⟨after, y, rfl⟩ := List.eq_nil_or_concat after
    · exact .inl (List.head_eq_of_cons_eq (List.append_inj_right' h rfl)).symm
    · rw [List.concat_eq_append] at h hafter
      rw [← List.cons_append, ← List.append_assoc] at h
      obtain ⟨rfl, hm⟩ := List.append_inj' h rfl
      obtain rfl : m = y := List.head_eq_of_cons_eq hm
      refine .inr ⟨(hafter m (by simp)).symm, before, after, rfl, fun z hz => hafter z ?_⟩
      exact List.mem_append_left _ hz
  · rintro (rfl | ⟨hname, before, after, rfl, hafter⟩)
    · exact ⟨ms, [], rfl, by simp⟩
    · refine ⟨before, after ++ [m], by simp, fun y hy => ?_⟩
      obtain hy | hy := List.mem_append.1 hy
      · exact hafter y hy
      · rw [List.mem_singleton.1 hy]
        exact hname.symm

/-! ## one modifier -/

/-- A name that is there keeps its place, and a new one goes to the end. -/
theorem map_name_insertInto (m : Modifier) (ms : List Modifier) :
    (insertInto m ms).map (·.name) =
      if m.name ∈ ms.map (·.name) then ms.map (·.name) else ms.map (·.name) ++ [m.name] := by
  induction ms with
  | nil => rfl
  | cons x xs ih =>
    rw [insertInto]
    by_cases hname : x.name = m.name
    · simp [hname]
    · rw [if_neg hname, List.map_cons, ih]
      by_cases hmem : m.name ∈ xs.map (·.name)
      · have hold : m.name ∈ (x :: xs).map (·.name) := List.mem_cons_of_mem _ hmem
        rw [if_pos hmem, if_pos hold, List.map_cons]
      · have hnew : m.name ∉ (x :: xs).map (·.name) := by
          rw [List.map_cons, List.mem_cons, not_or]
          exact ⟨fun h => hname h.symm, hmem⟩
        rw [if_neg hmem, if_neg hnew, List.map_cons, List.cons_append]

/-- No name is there twice. -/
def Distinct (ms : List Modifier) : Prop := ms.Pairwise fun x y => x.name ≠ y.name

/-- Among modifiers without a name twice, the first one of a name is the only one. -/
theorem find?_of_mem {ms : List Modifier} (h : Distinct ms) {m : Modifier} (hm : m ∈ ms) :
    ms.find? (·.name == m.name) = some m := by
  induction ms with
  | nil => cases hm
  | cons x xs ih =>
    obtain ⟨hx, hxs⟩ := List.pairwise_cons.1 h
    obtain rfl | hm := List.mem_cons.1 hm
    · simp
    · rw [List.find?_cons_of_neg (by simpa using hx m hm), ih hxs hm]

/-- Where no name is there twice, a modifier takes the place of the one of its name. -/
theorem mem_insertInto_iff {ms : List Modifier} (h : Distinct ms) {m x : Modifier} :
    x ∈ insertInto m ms ↔ x = m ∨ x.name ≠ m.name ∧ x ∈ ms := by
  induction ms with
  | nil => simp [insertInto]
  | cons y ys ih =>
    obtain ⟨hy, hys⟩ := List.pairwise_cons.1 h
    rw [insertInto]
    split
    next hname =>
      rw [List.mem_cons, List.mem_cons]
      refine or_congr_right ⟨fun hx => ⟨fun hx' => hy x hx (hname.trans hx'.symm), .inr hx⟩, ?_⟩
      rintro ⟨hx, rfl | hmem⟩
      · exact absurd hname hx
      · exact hmem
    next hname =>
      rw [List.mem_cons, List.mem_cons, ih hys]
      constructor
      · rintro (rfl | rfl | ⟨hx, hmem⟩)
        · exact .inr ⟨hname, .inl rfl⟩
        · exact .inl rfl
        · exact .inr ⟨hx, .inr hmem⟩
      · rintro (rfl | ⟨hx, rfl | hmem⟩)
        · exact .inr (.inl rfl)
        · exact .inl rfl
        · exact .inr (.inr ⟨hx, hmem⟩)

theorem distinct_insertInto {m : Modifier} {ms : List Modifier} (h : Distinct ms) :
    Distinct (insertInto m ms) := by
  induction ms with
  | nil => exact List.pairwise_singleton ..
  | cons x xs ih =>
    obtain ⟨hx, hxs⟩ := List.pairwise_cons.1 h
    rw [insertInto]
    split
    · next hname => exact List.pairwise_cons.2 ⟨fun y hy => hname ▸ hx y hy, hxs⟩
    · next hname =>
      refine List.pairwise_cons.2 ⟨fun y hy => ?_, ih hxs⟩
      obtain rfl | ⟨-, hy⟩ := (mem_insertInto_iff hxs).1 hy
      · exact hname
      · exact hx y hy

/-- A modifier of a new name goes to the end. -/
theorem insertInto_of_notMem {m : Modifier} {ms : List Modifier}
    (h : ∀ x ∈ ms, x.name ≠ m.name) : insertInto m ms = ms ++ [m] := by
  induction ms with
  | nil => rfl
  | cons x xs ih =>
    rw [insertInto, if_neg (h x List.mem_cons_self),
      ih fun y hy => h y (List.mem_cons_of_mem x hy), List.cons_append]

/-! ## many modifiers -/

/-- What is kept of some modifiers: no name twice, each name where it comes up first, and of each
name the modifier that comes up last. -/
structure Summarises (s : Modifiers) (ms : List Modifier) : Prop where
  distinct : Distinct s.toList
  names : s.names = (ms.map (·.name)).eraseDups
  entries : ∀ m, m ∈ s.toList ↔ IsLast ms m

namespace Summarises
variable {s : Modifiers} {ms : List Modifier}

theorem empty : Summarises empty [] :=
  ⟨List.Pairwise.nil, rfl, fun m => iff_of_false List.not_mem_nil (not_isLast_nil m)⟩

/-- One more modifier is kept as well. -/
theorem insert (h : Summarises s ms) (m : Modifier) :
    Summarises (s.insert m) (ms ++ [m]) := by
  refine ⟨distinct_insertInto h.distinct, ?_, fun x => ?_⟩
  · have hnames : s.toList.map (·.name) = (ms.map (·.name)).eraseDups := h.names
    rw [List.map_append, List.map_singleton, eraseDups_concat, ← hnames]
    show (insertInto m s.toList).map (·.name) = _
    rw [map_name_insertInto]
    have hmem : m.name ∈ s.toList.map (·.name) ↔ m.name ∈ ms.map (·.name) := by
      rw [hnames, List.mem_eraseDups]
    simp only [hmem]
  · show x ∈ insertInto m s.toList ↔ _
    rw [mem_insertInto_iff h.distinct, h.entries, isLast_concat]

/-- More modifiers, put in one after the other, are kept as well. -/
theorem insertAll (h : Summarises s ms) (more : List Modifier) :
    Summarises (more.foldl Modifiers.insert s) (ms ++ more) := by
  induction more generalizing s ms with
  | nil => rwa [List.append_nil]
  | cons m more ih =>
    rw [← List.singleton_append, ← List.append_assoc]
    exact ih (h.insert m)

theorem ofList (ms : List Modifier) : Summarises (ofList ms) ms := empty.insertAll ms

theorem contains_iff (h : Summarises s ms) (name : String) :
    s.contains name = true ↔ ∃ m ∈ ms, m.name = name := by
  rw [contains, List.contains_iff_mem, h.names, List.mem_eraseDups, List.mem_map]

theorem detail?_eq_some_iff (h : Summarises s ms) (name detail : String) :
    s.detail? name = some detail ↔
      ∃ m, IsLast ms m ∧ m.name = name ∧ m.detail = some detail := by
  rw [detail?, Option.bind_eq_some_iff]
  constructor
  · rintro ⟨m, hm, hdetail⟩
    have hname : m.name = name := by simpa using List.find?_some hm
    exact ⟨m, (h.entries m).1 (List.mem_of_find?_eq_some hm), hname, hdetail⟩
  · rintro ⟨m, hm, rfl, hdetail⟩
    exact ⟨m, find?_of_mem h.distinct ((h.entries m).2 hm), hdetail⟩

theorem anyWithDetail_iff (h : Summarises s ms) (detail : String) :
    s.anyWithDetail detail = true ↔ ∃ m, IsLast ms m ∧ m.detail = some detail := by
  simp only [anyWithDetail, List.any_eq_true, beq_iff_eq, h.entries]

theorem size_eq (h : Summarises s ms) : s.size = (ms.map (·.name)).eraseDups.length := by
  rw [← h.names, Modifiers.names, List.length_map, size]

/-- Modifiers without a name twice are kept as they are. -/
theorem foldl_insert_of_distinct {front more : List Modifier} (h : Distinct (front ++ more)) :
    more.foldl Modifiers.insert ⟨front⟩ = ⟨front ++ more⟩ := by
  induction more generalizing front with
  | nil => rw [List.append_nil]; rfl
  | cons m more ih =>
    have hnew : ∀ x ∈ front, x.name ≠ m.name := fun x hx =>
      (List.pairwise_append.1 h).2.2 x hx m List.mem_cons_self
    rw [← List.singleton_append, ← List.append_assoc] at h ⊢
    rw [List.singleton_append, List.foldl_cons, Modifiers.insert, insertInto_of_notMem hnew]
    exact ih h

/-- Putting in what is kept, in its order, gives the same again. -/
theorem rebuild (h : Summarises s ms) : Modifiers.ofList s.toList = s :=
  foldl_insert_of_distinct (show Distinct ([] ++ s.toList) from h.distinct)

end Summarises

/-- The modifiers of a declaration, told by the modifier nodes in its first list of modifiers: the
names are theirs, each where it comes up first; what is kept of a name is the modifier of that name
that comes up last, and with it its detail; there are at most as many as there are nodes, and as
many only if no name is written twice. Put in again one after the other, they give the same. -/
theorem ofDeclaration_summarises (t : Tree) :
    let nodes := ((t.children.find? (Tree.isNodeOf .modifierList)).map fun list =>
      list.children.filter (Tree.isNodeOf .modifier)).getD []
    let ms : List Modifier := nodes.map fun n =>
      ⟨(n.words.head?.map (·.text)).getD "", (n.childOf? .modifierDetail).map fun d =>
        Unicode.trim (.ofList ((d.normalizedText.toList.dropWhile (· == '(')).rdropWhile
          (· == ')')))⟩
    let s := ofDeclaration t
    s.names = (ms.map (·.name)).eraseDups ∧
      (∀ m, m ∈ s.toList ↔ IsLast ms m) ∧
      (∀ name detail, s.detail? name = some detail ↔
        ∃ m, IsLast ms m ∧ m.name = name ∧ m.detail = some detail) ∧
      (∀ name, s.contains name = true ↔ ∃ m ∈ ms, m.name = name) ∧
      (∀ detail, s.anyWithDetail detail = true ↔ ∃ m, IsLast ms m ∧ m.detail = some detail) ∧
      s.size ≤ nodes.length ∧ (s.size = nodes.length ↔ (ms.map (·.name)).Nodup) ∧
      ofList s.toList = s := by
  intro nodes ms s
  have hread : written t = ms := by
    rw [written, Tree.childOf?]
    dsimp only [ms, nodes]
    cases t.children.find? (Tree.isNodeOf .modifierList) <;> rfl
  have h : Summarises s ms := hread ▸ .ofList (written t)
  have hlength : (ms.map (·.name)).length = nodes.length := by
    rw [List.length_map, List.length_map]
  obtain ⟨hle, hiff⟩ := length_eraseDups (ms.map (·.name))
  rw [← h.size_eq, hlength] at hle hiff
  exact ⟨h.names, h.entries, h.detail?_eq_some_iff, h.contains_iff, h.anyWithDetail_iff, hle, hiff,
    h.rebuild⟩

/-- Of `private(set) public private(get)` two are kept: `private` in its first place and with its
last detail, so no modifier has the detail `set` any more. -/
theorem ofDeclaration_summarises_repeated :
    let parens (word : String) : Tree := .node .modifierDetail
      [.token .openParen "(", .token .identifier word, .token .closeParen ")"]
    let t : Tree := .node .variableDecl [.node .modifierList [
        .node .modifier [.token .kwPrivate "private", parens "set"], .token .whitespace " ",
        .node .modifier [.token .kwPublic "public"], .token .whitespace " ",
        .node .modifier [.token .kwPrivate "private", parens "get"]],
      .token .whitespace " ", .token .kwVar "var"]
    let s := ofDeclaration t
    s.names = ["private", "public"] ∧ s.detail? "private" = some "get" ∧
      s.contains "public" = true ∧ s.anyWithDetail "set" = false ∧ s.size < 3 := by
  dsimp only
  obtain ⟨hnames, -, hdetail, hcontains, -, hle, hsize, -⟩ := ofDeclaration_summarises _
  refine ⟨hnames.trans ?_, (hdetail _ _).2 ⟨⟨"private", some "get"⟩, ?_, rfl, rfl⟩,
    (hcontains _).2 ?_, ?_, lt_of_le_of_ne hle (mt hsize.1 ?_)⟩
  · decide +kernel
  · refine ⟨[⟨"private", some "set"⟩, ⟨"public", none⟩], [], ?_, by simp⟩
    decide +kernel
  · decide +kernel
  · decide +kernel
  · decide +kernel

end Modifiers

end SwiftOutline

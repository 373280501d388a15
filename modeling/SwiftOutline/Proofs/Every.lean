import SwiftOutline.Proofs.Framed
import SwiftOutline.Proofs.Sites
import SwiftOutline.Proofs.Visit

/-!
# SwiftOutline.Proofs.Every

Laws that the nodes of every source file obey, with faults or without.

* `Kind.ends`, `EndsScope` — the words that end a scope, by the kind of the node that the scope is;
* `Law` — what may be said of a node: of the node around it, of its parts and of what is behind it;
* `Law.Scoped` — a law about statements and accessors only, which what the grammar makes of these
  two obeys;
* `Law.framed` — a law of the node around a node says something of all the frames around it;
  `Law.Scoped.framed` — if it is about statements and accessors only, the grammar keeps it;
* `Tree.Every` — every node of a tree is as a predicate says, as `Law.Scoped.every_of_mem_all` finds
  of the nodes of a source file.
-/

namespace SwiftOutline

open Grammar

/-- The words that end a scope, by the kind of the node that the scope is. -/
def Kind.ends : Kind → List Kind
  | .ifConfigClause => .closeBrace :: branchEnds
  | _ => [.closeBrace]

/-- What may be said of a node: of the kind of the node around it, of its own kind, of its parts
and of the words behind it. -/
def Law : Type := Kind → Kind → List Sketch → List Word → Prop

/-! ## scopes -/

/-- The words that end a scope are those that the rule for its items is told, and a closing
brace. -/
def EndsScope (around : Kind) (stop : List Kind) : Prop :=
  ∀ k, k ∈ around.ends ↔ k ∈ stop ∨ k = .closeBrace

theorem EndsScope.endsStatement_eq {around : Kind} {stop : List Kind} (h : EndsScope around stop)
    (begun : Bool) (ws : List Word) :
    endsStatement stop begun ws = (atAny around.ends ws || startsLine begun ws) := by
  have hany : (atAny stop ws || at? .closeBrace ws) = atAny around.ends ws := by
    rw [atAny, atAny, at?]
    cases kind? ws with
    | none => rfl
    | some k =>
      refine Bool.eq_iff_iff.2 ?_
      simpa using (h k).symm
  rw [endsStatement, hany]

theorem endsScope_branch {stop : List Kind} (h : stop ⊆ .closeBrace :: branchEnds) :
    EndsScope .ifConfigClause (branchEnds ++ stop) := by
  intro k
  have hk := @h k
  simp only [Kind.ends, List.mem_cons, List.mem_append] at hk ⊢
  grind

theorem endsScope_closeBrace {around : Kind} (h : around ≠ .ifConfigClause) :
    EndsScope around [.closeBrace] := by
  intro k
  unfold Kind.ends
  split
  · contradiction
  · simp

/-! ## laws about statements and accessors -/

/-- A law about statements and accessors only, which what the grammar makes of these two obeys. A
statement is read where the scope around it has not ended, and at no semicolon. -/
structure Law.Scoped (L : Law) : Prop where
  free : ∀ {k : Kind}, k ≠ .statement → k ≠ .accessorDecl →
    ∀ (around : Kind) (ps : List Sketch) (rest : List Word), L around k ps rest
  statement : ∀ {n : Nat} {around : Kind} {stop : List Kind} {ws : List Word}
    (h : ws.length < n), EndsScope around stop → atOther stop ws = true →
    at? .semicolon ws = false → ∀ ps, (statement stop ws h).sketches = [.node .statement ps] →
      L around .statement ps (statement stop ws h).rest
  accessor : ∀ {n : Nat} (inside : List Kind → Rule n) {ws : List Word} (h : ws.length < n + 1),
    atAccessor ws = true → ∀ ps, (oneAccessor inside ws h).sketches = [.node .accessorDecl ps] →
      L .accessorBlock .accessorDecl ps (oneAccessor inside ws h).rest

/-! ## frames -/

/-- The kind of the innermost of some frames, or of a file if there is none. -/
def Frame.kindAround (above : List Frame) : Kind := (above.head?.map (·.kind)).getD .sourceFile

/-- The words that end the scope inside some frames are those that end the innermost of them. -/
theorem endsScope_stops (above : List Frame) :
    EndsScope (Frame.kindAround above) (stops (above.map (·.kind))) := by
  have hkinds : Frame.kindAround above = (above.map (·.kind)).head?.getD .sourceFile := by
    simp [Frame.kindAround]
  rw [hkinds]
  generalize above.map (·.kind) = ks
  unfold stops
  split
  · simp [EndsScope, Kind.ends]
  · exact endsScope_branch (stops_subset _)
  · exact endsScope_branch (stops_subset _)
  · next hclause => exact endsScope_closeBrace hclause

/-- A law of the node around a node, as one of all the frames around it. -/
def Law.framed (L : Law) : NestedLaw := fun above => L (Frame.kindAround above)

/-- The grammar keeps a law about statements and accessors in whatever frames they stand. -/
theorem Law.Scoped.framed {L : Law} (hL : L.Scoped) : L.framed.Local := by
  have hother {k : Kind} (hk : k ≠ .statement ∧ k ≠ .accessorDecl) (above : List Frame)
      (ps : List Sketch) (rest : List Word) : L.framed above k ps rest :=
    hL.free hk.1 hk.2 _ ps rest
  have hfree : ∀ k : Kind, k.isNoted = false → k ≠ .statement ∧ k ≠ .accessorDecl := by
    intro k
    cases k <;> decide
  have htypes : ∀ k ∈ Kind.types, k ≠ .statement ∧ k ≠ .accessorDecl := by decide
  refine ⟨fun hk => hother (hfree _ hk), fun hk _ _ => hother (htypes _ hk) _ _ _, ?_⟩
  intro above k ps rest hmade
  cases hmade with
  | statement h _ hbegun hsemicolon hps =>
    exact hL.statement h (endsScope_stops above) hbegun hsemicolon _ hps
  | accessor inside h hat _ hps => exact hL.accessor inside h hat _ hps
  | oneAttribute | expression | function | memberBlock | codeBlock | accessorBlock | branch
  | conditional => exact hother (by decide) _ _ _

/-! ## trees -/

namespace Tree

mutual

/-- Every node of a tree is as a predicate says of its kind and its children. -/
def Every (Q : Kind → List Tree → Prop) : Tree → Prop
  | node k cs => Q k cs ∧ EveryOfAll Q cs
  | token .. => True

/-- Every node of a run of trees is as a predicate says of its kind and its children. -/
def EveryOfAll (Q : Kind → List Tree → Prop) : List Tree → Prop
  | [] => True
  | t :: ts => Every Q t ∧ EveryOfAll Q ts

end

variable {Q : Kind → List Tree → Prop}

theorem everyOfAll_iff {ts : List Tree} : EveryOfAll Q ts ↔ ∀ t ∈ ts, t.Every Q := by
  induction ts with
  | nil => simp [EveryOfAll]
  | cons t ts ih => simp [EveryOfAll, ih]

theorem everyOfAll_append {ts us : List Tree} :
    EveryOfAll Q (ts ++ us) ↔ EveryOfAll Q ts ∧ EveryOfAll Q us := by
  simp only [everyOfAll_iff, List.mem_append, or_imp, forall_and]

/-- What holds of every node of a tree without trivia does so below every part of the tree. -/
theorem Every.of_mem {k : Kind} {cs : List Tree} (h : (node k cs).bare.Every Q) {c : Tree}
    (hc : c ∈ cs) : c.bare.Every Q := by
  by_cases htrivia : c.isTrivia = true
  · cases c with
    | node j ds => cases htrivia
    | token j x => exact True.intro
  · refine everyOfAll_iff.1 h.2 _ ?_
    rw [bareAll_eq]
    exact List.mem_map_of_mem (List.mem_filter.2 ⟨hc, by simpa using htrivia⟩)

end Tree

namespace Sketch

variable {L : NestedLaw} {Q : Kind → List Tree → Prop}

mutual

/-- A law of the nodes of a sketch is one of the nodes of its trees. -/
theorem every_trees (hLQ : ∀ above k ps rest, L above k ps rest → Q k (treesOfAll ps))
    {above : List Frame} {s : Sketch} {rest : List Word} (h : s.Keeps L above rest) :
    Tree.EveryOfAll Q s.trees := by
  cases s with
  | node k ps => exact ⟨⟨hLQ _ _ _ _ h.1, every_treesOfAll hLQ h.2⟩, True.intro⟩
  | word w => exact ⟨True.intro, True.intro⟩
  | fault f => exact True.intro
  | gap => exact True.intro

theorem every_treesOfAll (hLQ : ∀ above k ps rest, L above k ps rest → Q k (treesOfAll ps))
    {above : List Frame} {ss : List Sketch} {rest : List Word} (h : KeepsAll L above ss rest) :
    Tree.EveryOfAll Q (treesOfAll ss) := by
  cases ss with
  | nil => exact True.intro
  | cons s ss =>
    exact Tree.everyOfAll_append.2 ⟨every_trees hLQ h.1, every_treesOfAll hLQ h.2⟩

end

end Sketch

/-! ## source files -/

/-- Every node of a source file and all below it, trivia left out, are as a law about statements
and accessors has them. -/
theorem Law.Scoped.every_of_mem_all {L : Law} (hL : L.Scoped) {source : String}
    {Q : Kind → List Tree → Prop}
    (hLQ : ∀ around k ps rest, L around k ps rest → Q k (Sketch.treesOfAll ps)) {s : Site}
    (h : s ∈ Site.all (parse source).tree) : s.node.tree.bare.Every Q := by
  have hfile : (parse source).tree.bare.Every Q := by
    have hroot := hL.free (k := .sourceFile) (by decide) (by decide) .sourceFile
      (fileSketch source) []
    have hparts := hL.framed.keepsAll_fileSketch source
    rw [bare_parse]
    exact ⟨hLQ _ _ _ _ hroot, Sketch.every_treesOfAll (fun _ => hLQ _) hparts⟩
  exact (Site.of_mem_nodesIn (P := fun t => t.bare.Every Q)
    (fun _ _ ht _ hc => Tree.Every.of_mem ht hc) hfile h).2

end SwiftOutline

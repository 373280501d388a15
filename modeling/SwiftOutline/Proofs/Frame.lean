import SwiftOutline.Grammar.Declaration

/-!
# SwiftOutline.Proofs.Frame

Laws about the nodes of a sketch and all the nodes around them.

* `Frame` — a node around others, and what is left behind it;
* `NestedLaw` — what may be said of a node: of the frames around it, of its parts and of the words
  behind it;
* `Sketch.Keeps`, `Rule.Keeps` — every node of a sketch, or of what a rule takes, keeps a law in
  whatever frames it stands; there is a lemma for every way in which rules are put together;
* `stops` — the words that end the scope inside some frames;
* `Leads` — a brace that ends the scope is the one behind which the innermost block is left.
-/

namespace SwiftOutline

open Grammar

/-- A node around others: its kind, and the words behind it. -/
structure Frame where
  kind : Kind
  behind : List Word

/-- What may be said of a node: of the frames around it, innermost first, of its own kind, of its
parts and of the words behind it. -/
def NestedLaw : Type := List Frame → Kind → List Sketch → List Word → Prop

/-! ## sketches -/

namespace Sketch

variable {L : NestedLaw} {above : List Frame} {rest : List Word}

mutual

/-- Every node of a sketch keeps a law. The sketch stands in some frames, and some words stand
after it. -/
def Keeps (L : NestedLaw) (above : List Frame) : Sketch → List Word → Prop
  | .node k ps, rest => L above k ps rest ∧ KeepsAll L (⟨k, rest⟩ :: above) ps rest
  | _, _ => True

/-- Every node of a run of sketches keeps a law. -/
def KeepsAll (L : NestedLaw) (above : List Frame) : List Sketch → List Word → Prop
  | [], _ => True
  | s :: ss, rest => Keeps L above s (wordsOfAll ss ++ rest) ∧ KeepsAll L above ss rest

end

theorem keepsAll_append {ss ts : List Sketch} (hs : KeepsAll L above ss (wordsOfAll ts ++ rest))
    (ht : KeepsAll L above ts rest) : KeepsAll L above (ss ++ ts) rest := by
  induction ss with
  | nil => exact ht
  | cons s ss ih =>
    obtain ⟨hfirst, hothers⟩ := hs
    constructor
    · show Keeps L above s (wordsOfAll (ss ++ ts) ++ rest)
      rwa [wordsOfAll_append, List.append_assoc]
    · exact ih hothers

end Sketch

namespace Grammar

/-! ## rules -/

/-- Every node among what was taken keeps a law, if it stands in some frames. -/
def Parsed.Keeps {ws : List Word} (L : NestedLaw) (above : List Frame) (p : Parsed ws) : Prop :=
  Sketch.KeepsAll L above p.sketches p.rest

namespace Parsed

variable {ws : List Word} {L : NestedLaw} {above : List Frame}

theorem keeps_done : (done ws).Keeps L above := by simp [Keeps, done, Sketch.KeepsAll]

theorem keeps_mark {s : Sketch} (hs : ∀ k ps, s ≠ .node k ps) (hwords : s.words = []) :
    (mark s hwords ws).Keeps L above := by
  cases s with
  | node k ps => exact absurd rfl (hs k ps)
  | word w => simp [Keeps, mark, Sketch.KeepsAll, Sketch.Keeps]
  | fault f => simp [Keeps, mark, Sketch.KeepsAll, Sketch.Keeps]
  | gap => simp [Keeps, mark, Sketch.KeepsAll, Sketch.Keeps]

theorem Keeps.word {r : List Word} {p : Parsed r} (hp : p.Keeps L above) (w : Word) :
    (cons w p).Keeps L above := ⟨True.intro, hp⟩

theorem Keeps.append {p : Parsed ws} {q : Parsed p.rest} (hp : p.Keeps L above)
    (hq : q.Keeps L above) : (p.append q).Keeps L above := by
  refine Sketch.keepsAll_append ?_ hq
  show Sketch.KeepsAll L above p.sketches (Sketch.wordsOfAll q.sketches ++ q.rest)
  rwa [q.covers]

theorem Keeps.node {k : Kind} {p : Parsed ws} (hp : p.Keeps L (⟨k, p.rest⟩ :: above))
    (hk : L above k p.sketches p.rest) : (p.node k).Keeps L above :=
  ⟨⟨hk, hp⟩, True.intro⟩

end Parsed

namespace Rule

variable {n : Nat} {L : NestedLaw} {c : List Word → Bool} {p q : Rule n}

/-- Every node among what a rule takes keeps a law, in whatever frames it stands. -/
def Keeps (L : NestedLaw) (p : Rule n) : Prop := ∀ above ws h, (p ws h).Keeps L above

theorem keeps_done : Keeps L (done : Rule n) := fun _ _ _ => Parsed.keeps_done

theorem keeps_bump : Keeps L (bump : Rule n) := by
  intro above ws h
  cases ws with
  | nil => exact Parsed.keeps_mark (by simp) rfl
  | cons w r => exact Parsed.keeps_done.word w

theorem keeps_fault (f : Fault) : Keeps L (fault f : Rule n) :=
  fun _ _ _ => Parsed.keeps_mark (by simp) rfl

theorem keeps_gap : Keeps L (gap : Rule n) := fun _ _ _ => Parsed.keeps_mark (by simp) rfl

theorem Keeps.seq (hp : Keeps L p) (hq : Keeps L q) : Keeps L (p >> q) :=
  fun above ws h => (hp above ws h).append (hq above _ _)

theorem Keeps.node {k : Kind} (hp : Keeps L p) (hk : ∀ above ps rest, L above k ps rest) :
    Keeps L (node k p) := fun _ ws h => (hp _ ws h).node (hk _ _ _)

/-- Every node among what a rule takes keeps a law, if it stands in some frames. -/
def KeepsIn (L : NestedLaw) (above : List Frame) (p : Rule n) : Prop :=
  ∀ ws h, (p ws h).Keeps L above

theorem KeepsIn.optional {above : List Frame} (hp : KeepsIn L above p) (c : List Word → Bool) :
    KeepsIn L above (optional c p) := by
  intro ws h
  unfold Rule.optional Rule.ifAt
  split
  · exact hp ws h
  · exact Parsed.keeps_done

theorem Keeps.seqIn {above : List Frame} (hp : Keeps L p) (hq : KeepsIn L above q) :
    KeepsIn L above (p >> q) := fun ws h => (hp above ws h).append (hq _ _)

theorem KeepsIn.seq {above : List Frame} (hp : KeepsIn L above p) (hq : Keeps L q) :
    KeepsIn L above (p >> q) := fun ws h => (hp ws h).append (hq above _ _)

/-- A node whose parts keep a law inside it. -/
theorem keeps_node {k : Kind} (hp : ∀ behind above, KeepsIn L (⟨k, behind⟩ :: above) p)
    (hk : ∀ above ps rest, L above k ps rest) : Keeps L (node k p) :=
  fun above ws h => (hp _ above ws h).node (hk _ _ _)

theorem Keeps.ifAt (hp : Keeps L p) (hq : Keeps L q) (c : List Word → Bool) :
    Keeps L (ifAt c p q) := by
  intro above ws h
  unfold Rule.ifAt
  split
  · exact hp above ws h
  · exact hq above ws h

theorem Keeps.optional (hp : Keeps L p) (c : List Word → Bool) : Keeps L (optional c p) :=
  hp.ifAt keeps_done c

theorem keeps_eat (k : Kind) : Keeps L (eat k : Rule n) := keeps_bump.optional _

theorem keeps_expect (k : Kind) (f : Fault) : Keeps L (expect k f : Rule n) :=
  keeps_bump.ifAt (keeps_fault f) _

theorem Keeps.after (hp : Keeps L p) : Keeps L (after p) := by
  intro above ws h
  cases ws with
  | nil => exact Parsed.keeps_mark (by simp) rfl
  | cons w r => exact (hp above r _).word w

theorem Keeps.advancing {p : Rule (n + 1)} (hp : Keeps L p) (ha : Advances c p) (hq : Keeps L q) :
    Keeps L (advancing c p ha q) := by
  intro above ws h
  unfold Rule.advancing
  split
  · exact (hp above ws h).append (hq above _ _)
  · exact hp above ws h

/-- A loop keeps a law in the frames in which its body does. -/
theorem keeps_many {above : List Frame} (hp : ∀ ws h, c ws = true → (p ws h).Keeps L above)
    (ha : Advances c p) (ws : List Word) (h : ws.length < n) :
    (many c p ha ws h).Keeps L above := by
  induction hlen : ws.length using Nat.strongRecOn generalizing ws with
  | ind l ih =>
    unfold Rule.many
    split
    · next hc => exact (hp ws h hc).append (ih _ (hlen ▸ ha ws h hc) _ _ rfl)
    · exact Parsed.keeps_done

theorem Keeps.whileAt (hp : Keeps L p) (c : List Word → Bool) : Keeps L (whileAt c p) := by
  intro above ws h
  induction hlen : ws.length using Nat.strongRecOn generalizing ws with
  | ind l ih =>
    subst hlen
    cases ws with
    | nil =>
      unfold Rule.whileAt
      exact Parsed.keeps_done
    | cons w r =>
      unfold Rule.whileAt
      split
      · refine ((hp above r _).append (ih _ ?_ _ _ rfl)).word w
        exact Nat.lt_succ_of_le (Parsed.length_rest_le _)
      · exact Parsed.keeps_done

theorem Keeps.commaTail (hp : Keeps L p) (c : List Word → Bool) : Keeps L (commaTail c p) := by
  intro above ws h
  induction hlen : ws.length using Nat.strongRecOn generalizing ws with
  | ind l ih =>
    subst hlen
    cases ws with
    | nil =>
      unfold Rule.commaTail
      exact Parsed.keeps_done
    | cons w r =>
      unfold Rule.commaTail
      split
      · split
        · refine ((hp above r _).append (ih _ ?_ _ _ rfl)).word w
          exact Nat.lt_succ_of_le (Parsed.length_rest_le _)
        · exact Parsed.keeps_done.word w
      · exact Parsed.keeps_done

theorem Keeps.commaList (hp : Keeps L p) (c : List Word → Bool) : Keeps L (commaList c p) :=
  (hp.seq (hp.commaTail c)).optional c

end Rule

/-! ## scopes -/

/-- The words that end the scope inside some nodes, innermost first. A branch of a conditional
block ends at the directives of the others and where the scope around the block does. -/
def stops : List Kind → List Kind
  | [] => []
  | .ifConfigClause :: .ifConfigDecl :: above => branchEnds ++ stops above
  | .ifConfigClause :: above => branchEnds ++ stops above
  | _ :: _ => [.closeBrace]

theorem stops_subset (above : List Kind) : stops above ⊆ .closeBrace :: branchEnds := by
  have happend {ks : List Kind} (h : ks ⊆ .closeBrace :: branchEnds) :
      branchEnds ++ ks ⊆ .closeBrace :: branchEnds :=
    List.append_subset.2 ⟨List.subset_cons_self _ _, h⟩
  fun_induction stops above with
  | case1 => simp
  | case2 above ih => exact happend ih
  | case3 above _ ih => exact happend ih
  | case4 above => simp

end Grammar

/-- Nodes that braces open and close. -/
def Kind.isBlock : Kind → Bool
  | .memberBlock | .codeBlock | .accessorBlock => true
  | _ => false

theorem Kind.stops_of_isBlock {k : Kind} (h : k.isBlock = true) (above : List Kind) :
    stops (k :: above) = [.closeBrace] := by
  unfold stops
  split <;> simp_all [isBlock]

/-- The innermost block among some frames. -/
def Frame.block? (above : List Frame) : Option Frame := above.find? (·.kind.isBlock)

/-- Where a brace that ends the scope inside some frames is left, the words behind it are those
behind the innermost block. -/
def Leads (above : List Frame) (rest : List Word) : Prop :=
  at? .closeBrace rest = true → .closeBrace ∈ stops (above.map (·.kind)) →
    ∃ b, Frame.block? above = some b ∧ rest.tail = b.behind

/-- A brace that ends a branch ends the scope around the conditional block. -/
theorem Leads.branch {above : List Frame} {rest : List Word} (h : Leads above rest)
    (clause block : List Word) :
    Leads (⟨.ifConfigClause, clause⟩ :: ⟨.ifConfigDecl, block⟩ :: above) rest := by
  intro hbrace hmem
  have hmem' : Kind.closeBrace ∈ branchEnds ++ stops (above.map (·.kind)) := hmem
  obtain hmem' | hmem' := List.mem_append.1 hmem'
  · simp [branchEnds] at hmem'
  · exact h hbrace hmem'

end SwiftOutline

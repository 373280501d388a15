import SwiftOutline.Proofs.Layout

/-!
# SwiftOutline.Proofs.Joint

Whether the first word is joined to what stands before it, and whether it is on a line of its own,
makes no difference to the items.

* `Sketch.unjoined` — a sketch without the notes on which words are joined and on which a line
  starts; it is laid over lexemes like the sketch itself (`layAll_unjoined`);
* `Rejoined` — the same words, of which the first may be joined, or start a line, in one case only;
* `Rule.Blind`, `Rule.Fresh` — a rule sketches the same from such words. A fresh rule takes the
  first one, and what follows it reads the same words.
-/

namespace SwiftOutline

namespace Sketch

mutual

/-- A sketch whose words are joined to nothing and on one line. -/
def unjoined : Sketch → Sketch
  | word w => word { w with joined := false, onNewLine := false }
  | node k ps => node k (unjoinedAll ps)
  | fault f => fault f
  | gap => gap

/-- A run of sketches whose words are joined to nothing and on one line. -/
def unjoinedAll : List Sketch → List Sketch
  | [] => []
  | s :: ss => unjoined s :: unjoinedAll ss

end

theorem unjoinedAll_append (ss ts : List Sketch) :
    unjoinedAll (ss ++ ts) = unjoinedAll ss ++ unjoinedAll ts := by
  induction ss with
  | nil => rfl
  | cons s ss ih => simp only [List.cons_append, unjoinedAll, ih]

mutual

theorem lay_unjoined (size : Nat) (s : Sketch) (ps : List Placed) :
    lay size s.unjoined ps = lay size s ps := by
  cases s with
  | word w => rfl
  | node k parts => rw [unjoined, lay_node, lay_node, layAll_unjoined size parts]
  | fault f => rfl
  | gap => rfl

/-- Joined words are laid over lexemes like others. -/
theorem layAll_unjoined (size : Nat) (ss : List Sketch) (ps : List Placed) :
    layAll size (unjoinedAll ss) ps = layAll size ss ps := by
  cases ss with
  | nil => rfl
  | cons s ss =>
    rw [unjoinedAll, layAll_cons, layAll_cons, lay_unjoined size s, layAll_unjoined size ss]

end

end Sketch

namespace Grammar

open Sketch (unjoinedAll unjoinedAll_append)

/-! ## the first word -/

/-- The same words, but for what the first one is joined to and whether it starts a line. -/
inductive Rejoined : List Word → List Word → Prop where
  | same (ws : List Word) : Rejoined ws ws
  | first (w : Word) (joined onNewLine : Bool) (r : List Word) :
    Rejoined (w :: r) ({ w with joined := joined, onNewLine := onNewLine } :: r)

theorem rejoined_ofLexemesAfter (joined joined' onNewLine onNewLine' : Bool) (ls : List Lexeme) :
    Rejoined (Word.ofLexemesAfter joined onNewLine ls)
      (Word.ofLexemesAfter joined' onNewLine' ls) := by
  induction ls generalizing joined joined' onNewLine onNewLine' with
  | nil => exact .same _
  | cons l ls ih =>
    by_cases h : l.isTrivia = true
    · rw [Word.ofLexemesAfter, Word.ofLexemesAfter, if_pos h, if_pos h]
      exact ih _ _ _ _
    · rw [Word.ofLexemesAfter, Word.ofLexemesAfter, if_neg h, if_neg h]
      exact .first _ joined' onNewLine' _

/-- A function of words does not tell to what the first one is joined, nor whether it starts a
line. -/
def Unaware {α : Type} (f : List Word → α) : Prop :=
  ∀ w j l r, f ({ w with joined := j, onNewLine := l } :: r) = f (w :: r)

theorem Unaware.eq {α : Type} {f : List Word → α} (hf : Unaware f) {ws ws' : List Word}
    (h : Rejoined ws ws') : f ws' = f ws := by
  cases h with
  | same => rfl
  | first w j l r => exact hf w j l r

namespace Parsed

/-- The same is sketched, but for what words are joined to and where lines start, and what is left
is related. -/
structure Alike (R : List Word → List Word → Prop) {ws ws' : List Word} (p : Parsed ws)
    (q : Parsed ws') : Prop where
  sketches : unjoinedAll q.sketches = unjoinedAll p.sketches
  rest : R p.rest q.rest

variable {ws ws' : List Word} {R S : List Word → List Word → Prop}

theorem Alike.append {p : Parsed ws} {q : Parsed ws'} {p' : Parsed p.rest} {q' : Parsed q.rest}
    (h : p.Alike R q) (h' : p'.Alike S q') : (p.append p').Alike S (q.append q') where
  sketches := by
    show unjoinedAll (q.sketches ++ q'.sketches) = unjoinedAll (p.sketches ++ p'.sketches)
    rw [unjoinedAll_append, unjoinedAll_append, h.sketches, h'.sketches]
  rest := h'.rest

theorem Alike.node {p : Parsed ws} {q : Parsed ws'} (h : p.Alike R q) (k : Kind) :
    (Parsed.node k p).Alike R (Parsed.node k q) where
  sketches := by
    show [Sketch.node k (unjoinedAll q.sketches)] = [.node k (unjoinedAll p.sketches)]
    rw [h.sketches]
  rest := h.rest

theorem Alike.mono {p : Parsed ws} {q : Parsed ws'} (h : p.Alike R q)
    (hRS : ∀ r r', R r r' → S r r') : p.Alike S q := ⟨h.sketches, hRS _ _ h.rest⟩

end Parsed

namespace Rule

variable {n : Nat} {p q : Rule n} {c : List Word → Bool}

/-- A rule sketches the same whatever is told of the first word. -/
def Blind (p : Rule n) : Prop :=
  ∀ ws ws' h h', Rejoined ws ws' → (p ws h).Alike Rejoined (p ws' h')

/-- A rule sketches the same whatever is told of the first word, and leaves the same. -/
def Fresh (p : Rule n) : Prop :=
  ∀ ws ws' h h', Rejoined ws ws' → (p ws h).Alike Eq (p ws' h')

theorem alike_of_eq (p : Rule n) {ws ws' : List Word} (h : ws.length < n) (h' : ws'.length < n)
    (hws : ws = ws') : (p ws h).Alike Eq (p ws' h') := by
  subst hws
  exact ⟨rfl, rfl⟩

theorem Fresh.blind (hp : Fresh p) : Blind p := fun ws ws' h h' hws =>
  (hp ws ws' h h' hws).mono fun r _ hr => hr ▸ .same r

theorem fresh_bump : Fresh (bump : Rule n) := by
  intro ws ws' h h' hws
  cases hws <;> exact ⟨rfl, rfl⟩

theorem fresh_after (p : Rule n) : Fresh (after p) := by
  intro ws ws' h h' hws
  cases hws <;> exact ⟨rfl, rfl⟩

theorem Fresh.seq (hp : Fresh p) (q : Rule n) : Fresh (p >> q) := fun ws ws' h h' hws =>
  have hfirst := hp ws ws' h h' hws
  hfirst.append (q.alike_of_eq _ _ hfirst.rest)

theorem Fresh.node (hp : Fresh p) (k : Kind) : Fresh (node k p) := fun ws ws' h h' hws =>
  (hp ws ws' h h' hws).node k

theorem Fresh.ifAt (hc : Unaware c) (hp : Fresh p) (hq : Fresh q) : Fresh (ifAt c p q) := by
  intro ws ws' h h' hws
  unfold Rule.ifAt
  rw [hc.eq hws]
  split
  · exact hp ws ws' h h' hws
  · exact hq ws ws' h h' hws

theorem blind_done : Blind (done : Rule n) := fun _ _ _ _ hws => ⟨rfl, hws⟩

theorem blind_fault (f : Fault) : Blind (fault f : Rule n) := fun _ _ _ _ hws => ⟨rfl, hws⟩

theorem Blind.seq (hp : Blind p) (hq : Blind q) : Blind (p >> q) := fun ws ws' h h' hws =>
  have hfirst := hp ws ws' h h' hws
  hfirst.append (hq _ _ _ _ hfirst.rest)

theorem Blind.node (hp : Blind p) (k : Kind) : Blind (node k p) := fun ws ws' h h' hws =>
  (hp ws ws' h h' hws).node k

theorem Blind.ifAt (hc : Unaware c) (hp : Blind p) (hq : Blind q) : Blind (ifAt c p q) := by
  intro ws ws' h h' hws
  unfold Rule.ifAt
  rw [hc.eq hws]
  split
  · exact hp ws ws' h h' hws
  · exact hq ws ws' h h' hws

theorem Blind.optional (hc : Unaware c) (hp : Blind p) : Blind (optional c p) :=
  hp.ifAt hc blind_done

/-- Only the first turn of a loop meets the first word. -/
theorem Fresh.many (hc : Unaware c) (hp : Fresh p) (ha : Advances c p) : Blind (many c p ha) := by
  intro ws ws' h h' hws
  have hat := hc.eq hws
  unfold Rule.many
  split
  · next hcw =>
    rw [dif_pos (hat.trans hcw)]
    have hfirst := hp ws ws' h h' hws
    refine hfirst.append ?_
    exact ((Rule.many c p ha).alike_of_eq _ _ hfirst.rest).mono fun r _ hr => hr ▸ .same r
  · next hcw =>
    rw [dif_neg (by rwa [hat])]
    exact ⟨rfl, hws⟩

end Rule

/-! ## items -/

open Rule

variable {n : Nat}

theorem unaware_at? (k : Kind) : Unaware (at? k) := fun _ _ _ _ => rfl

theorem unaware_atModifier : Unaware atModifier := fun _ _ _ _ => rfl

theorem unaware_atWord : Unaware atWord := fun _ _ _ _ => rfl

theorem unaware_atDeclaration : Unaware atDeclaration := by
  intro w j l r
  have hat : atModifier ({ w with joined := j, onNewLine := l } :: r) = atModifier (w :: r) := rfl
  unfold atDeclaration
  rw [skipAttributesAndModifiers, skipAttributesAndModifiers, hat]
  split
  · rfl
  · split <;> rfl

theorem blind_attributesAndModifiers : Blind (attributesAndModifiers : Rule n) := by
  have hattributes : Blind (attributeList : Rule n) :=
    (((fresh_bump.seq _).node _).many (unaware_at? _) _ |>.node _).optional (unaware_at? _)
  have hmodifiers : Blind (modifierList : Rule n) :=
    (((fresh_bump.seq _).node _).many unaware_atModifier _ |>.node _).optional unaware_atModifier
  exact hattributes.seq hmodifiers

theorem blind_statement (stop : List Kind) : Blind (statement stop : Rule n) := by
  refine Blind.node (Blind.ifAt (fun _ _ _ _ => rfl)
    ((blind_fault _).seq fresh_bump.blind) fun ws ws' h h' hws => ?_) _
  cases hws with
  | same => exact ⟨rfl, .same _⟩
  | first w j l r =>
    have hends : endsStatement stop false ({ w with joined := j, onNewLine := l } :: r) =
        endsStatement stop false (w :: r) := rfl
    unfold statementWords
    rw [hends]
    split
    · exact ⟨rfl, .first w j l r⟩
    · split <;> exact ⟨rfl, .same _⟩

section

variable (inside : List Kind → Rule n)

theorem blind_form (stop : List Kind) (ws : List Word) : Blind (form inside stop ws).2 := by
  unfold form
  split
  case h_18 =>
    have hbranch : Fresh (branch inside stop) :=
      ((fresh_after _).ifAt (unaware_at? _) (fresh_after _)).node _
    exact (hbranch.many (fun _ _ _ _ => rfl) _).seq
      (fresh_bump.blind.ifAt (unaware_at? _) (blind_fault _))
  case h_19 =>
    split
    · exact (fresh_bump.seq _).blind
    · exact (blind_fault _).seq (fresh_bump.blind.optional unaware_atWord)
  all_goals exact (fresh_bump.seq _).blind

theorem unaware_form (stop : List Kind) : Unaware (form inside stop) := fun _ _ _ _ => rfl

theorem blind_declaration (stop : List Kind) : Blind (declaration inside stop) := by
  intro ws ws' h h' hws
  have hlead := blind_attributesAndModifiers ws ws' h h' hws
  have hsame := (unaware_form inside stop).eq hlead.rest
  show Parsed.Alike _ (Parsed.node _ (Parsed.append (attributesAndModifiers ws h) _))
    (Parsed.node (form inside stop (attributesAndModifiers ws' h').rest).1
      (Parsed.append (attributesAndModifiers ws' h')
        ((form inside stop (attributesAndModifiers ws' h').rest).2 _ _)))
  rw [hsame]
  exact (hlead.append (blind_form inside stop _ _ _ _ _ hlead.rest)).node _

theorem blind_item (stop : List Kind) : Blind (item inside stop) :=
  fresh_bump.blind.ifAt (unaware_at? _)
    ((blind_declaration inside stop).ifAt unaware_atDeclaration (blind_statement stop))

end

/-- Items are sketched the same whatever is told of the first word. -/
theorem alike_itemsFrom (stop : List Kind) {ws ws' : List Word} (h : Rejoined ws ws') :
    (itemsFrom stop ws).Alike Rejoined (itemsFrom stop ws') := by
  induction hlen : ws.length using Nat.strongRecOn generalizing ws ws' with
  | ind l ih =>
    subst hlen
    cases h with
    | same => exact ⟨rfl, .same _⟩
    | first w j l r =>
      rw [itemsFrom.eq_1 stop (w :: r), itemsFrom.eq_1 stop (_ :: r)]
      have hat : atOther stop ({ w with joined := j, onNewLine := l } :: r) =
          atOther stop (w :: r) := rfl
      split
      · next hc =>
        rw [dif_pos (hat.trans hc)]
        have hitem := blind_item (fun stop s (_ : s.length < (w :: r).length) =>
          itemsFrom stop s) stop (w :: r) ({ w with joined := j, onNewLine := l } :: r)
          (Nat.lt_succ_self _) (Nat.lt_succ_self _) (.first w j l r)
        exact hitem.append
          (ih _ (advances_item _ stop (w :: r) (Nat.lt_succ_self _) hc) hitem.rest rfl)
      · next hc =>
        rw [dif_neg (by rwa [hat])]
        exact ⟨rfl, .first w j l r⟩

end Grammar

end SwiftOutline

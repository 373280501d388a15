import SwiftOutline.Grammar.Rule

/-!
# SwiftOutline.Proofs.Firm

What a rule takes where no fault is found.

* `Sketch.Clean`, `Sketch.Solid` — a sketch without faults, and one whose nodes hold words; only
  an argument of an attribute may be empty;
* `Rule.Solid`, `Rule.Firm` — what a rule takes where a condition holds is solid if it is clean;
  a firm rule takes a word besides.

A rule that misses something says so, so nearly every rule is firm wherever it stands: it takes a
word or it is not clean. Only rules that start by taking any word need that one is left.
-/

namespace SwiftOutline

/-! ## sketches -/

namespace Sketch

mutual

/-- No fault is in a sketch. -/
def Clean : Sketch → Prop
  | .node _ ps => CleanAll ps
  | .fault _ => False
  | _ => True

/-- No fault is in a run of sketches. -/
def CleanAll : List Sketch → Prop
  | [] => True
  | s :: ss => Clean s ∧ CleanAll ss

end

mutual

/-- Every node of a sketch holds a word, but for arguments of attributes. -/
def Solid : Sketch → Prop
  | .node k ps => (k ≠ .attributeArgument → wordsOfAll ps ≠ []) ∧ SolidAll ps
  | _ => True

/-- Every node of a run of sketches holds a word, but for arguments of attributes. -/
def SolidAll : List Sketch → Prop
  | [] => True
  | s :: ss => Solid s ∧ SolidAll ss

end

theorem cleanAll_append {ss ts : List Sketch} :
    CleanAll (ss ++ ts) ↔ CleanAll ss ∧ CleanAll ts := by
  induction ss with
  | nil => simp [CleanAll]
  | cons s ss ih => simp [CleanAll, ih, and_assoc]

theorem solidAll_append {ss ts : List Sketch} (hs : SolidAll ss) (ht : SolidAll ts) :
    SolidAll (ss ++ ts) := by
  induction ss with
  | nil => exact ht
  | cons s ss ih => exact ⟨hs.1, ih hs.2⟩

end Sketch

namespace Grammar

namespace Parsed

open Sketch

variable {ws : List Word}

/-- What was taken is solid if it is clean. -/
def Solid (p : Parsed ws) : Prop := CleanAll p.sketches → SolidAll p.sketches

/-- What was taken is solid and holds a word, if it is clean. -/
def Firm (p : Parsed ws) : Prop :=
  CleanAll p.sketches → SolidAll p.sketches ∧ p.rest.length < ws.length

theorem Firm.solid {p : Parsed ws} (hp : p.Firm) : p.Solid := fun hc => (hp hc).1

theorem solid_done : (done ws).Solid := fun _ => True.intro

theorem Solid.word {r : List Word} {p : Parsed r} (hp : p.Solid) (w : Word) :
    (cons w p).Firm := fun hc => ⟨⟨True.intro, hp hc.2⟩, Nat.lt_succ_of_le p.length_rest_le⟩

theorem firm_take (w : Word) (r : List Word) : (take w r).Firm := solid_done.word w

theorem Solid.append {p : Parsed ws} {q : Parsed p.rest} (hp : p.Solid) (hq : q.Solid) :
    (p.append q).Solid := fun hc => by
  obtain ⟨hcp, hcq⟩ := cleanAll_append.1 hc
  exact solidAll_append (hp hcp) (hq hcq)

theorem Firm.append {p : Parsed ws} {q : Parsed p.rest} (hp : p.Firm) (hq : q.Solid) :
    (p.append q).Firm := fun hc => by
  obtain ⟨hcp, -⟩ := cleanAll_append.1 hc
  exact ⟨hp.solid.append hq hc, Nat.lt_of_le_of_lt q.length_rest_le (hp hcp).2⟩

theorem Solid.append_firm {p : Parsed ws} {q : Parsed p.rest} (hp : p.Solid) (hq : q.Firm) :
    (p.append q).Firm := fun hc => by
  obtain ⟨-, hcq⟩ := cleanAll_append.1 hc
  exact ⟨hp.append hq.solid hc, Nat.lt_of_lt_of_le (hq hcq).2 p.length_rest_le⟩

theorem wordsOfAll_ne_nil {p : Parsed ws} (h : p.rest.length < ws.length) :
    wordsOfAll p.sketches ≠ [] := by
  intro hnil
  have hcovers := p.covers
  rw [hnil, List.nil_append] at hcovers
  rw [hcovers] at h
  exact Nat.lt_irrefl _ h

theorem rest_eq_nil (p : Parsed []) : p.rest = [] := by
  have hle := p.length_rest_le
  simpa using hle

/-- A word that is left was there. -/
theorem ne_nil_of_rest {p : Parsed ws} (h : p.rest ≠ []) : ws ≠ [] := by
  rintro rfl
  exact h p.rest_eq_nil

theorem Firm.node {p : Parsed ws} (hp : p.Firm) (k : Kind) : (Parsed.node k p).Firm :=
  fun hc => by
    obtain ⟨hsolid, hlt⟩ := hp hc.1
    exact ⟨⟨⟨fun _ => wordsOfAll_ne_nil hlt, hsolid⟩, True.intro⟩, hlt⟩

end Parsed

/-! ## rules -/

/-- A condition that always holds. -/
def anywhere (_ : List Word) : Bool := true

namespace Rule

variable {n : Nat} {c d : List Word → Bool}

/-- What a rule takes where a condition holds is solid if it is clean. -/
def Solid (c : List Word → Bool) (p : Rule n) : Prop := ∀ ws h, c ws = true → (p ws h).Solid

/-- What a rule takes where a condition holds is solid and holds a word, if it is clean. -/
def Firm (c : List Word → Bool) (p : Rule n) : Prop := ∀ ws h, c ws = true → (p ws h).Firm

theorem Firm.solid {p : Rule n} (hp : Firm c p) : Solid c p := fun ws h hc => (hp ws h hc).solid

theorem Solid.of_anywhere {p : Rule n} (hp : Solid anywhere p) : Solid c p :=
  fun ws h _ => hp ws h rfl

theorem Firm.of_anywhere {p : Rule n} (hp : Firm anywhere p) : Firm c p :=
  fun ws h _ => hp ws h rfl

/-- A condition that does not hold at the end holds only where a word is left. -/
theorem Firm.of_atWord {p : Rule n} (hp : Firm atWord p) (hc : c [] = false) : Firm c p :=
  fun ws h hcw => hp ws h (by
    cases ws with
    | nil => rw [hc] at hcw; cases hcw
    | cons w r => rfl)

theorem solid_done : Solid c (done : Rule n) := fun _ _ _ => Parsed.solid_done

theorem firm_fault (f : Fault) : Firm c (fault f : Rule n) := fun _ _ _ hc => hc.1.elim

theorem solid_gap : Solid c (gap : Rule n) := fun _ _ _ _ => ⟨True.intro, True.intro⟩

theorem firm_bump : Firm atWord (bump : Rule n) := fun ws _ hc => by
  cases ws with
  | nil => cases hc
  | cons w r => exact Parsed.firm_take w r

theorem solid_bump : Solid c (bump : Rule n) := fun ws h _ => by
  cases ws with
  | nil => exact fun _ => ⟨True.intro, True.intro⟩
  | cons w r => exact (Parsed.firm_take w r).solid

theorem Solid.seq {p q : Rule n} (hp : Solid c p) (hq : Solid anywhere q) : Solid c (p >> q) :=
  fun ws h hc => (hp ws h hc).append (hq _ _ rfl)

theorem Firm.seq {p q : Rule n} (hp : Firm c p) (hq : Solid anywhere q) : Firm c (p >> q) :=
  fun ws h hc => (hp ws h hc).append (hq _ _ rfl)

theorem Solid.firm {p : Rule n} (hp : Solid c p) (ha : Advances c p) : Firm c p :=
  fun ws h hc hclean => ⟨hp ws h hc hclean, ha ws h hc⟩

theorem Firm.after {p q : Rule n} (hq : Firm anywhere q) (hp : Solid c p) : Firm c (p >> q) :=
  fun ws h hc => (hp ws h hc).append_firm (hq _ _ rfl)

theorem Firm.node {p : Rule n} (hp : Firm c p) (k : Kind) : Firm c (node k p) :=
  fun ws h hc => (hp ws h hc).node k

theorem Solid.ifAt {t : List Word → Bool} {p q : Rule n} (hp : Solid t p) (hq : Solid c q) :
    Solid c (ifAt t p q) := fun ws h hc => by
  unfold Rule.ifAt
  split
  · next ht => exact hp ws h ht
  · exact hq ws h hc

theorem Firm.ifAt {t : List Word → Bool} {p q : Rule n} (hp : Firm t p) (hq : Firm c q) :
    Firm c (ifAt t p q) := fun ws h hc => by
  unfold Rule.ifAt
  split
  · next ht => exact hp ws h ht
  · exact hq ws h hc

theorem Solid.optional {t : List Word → Bool} {p : Rule n} (hp : Solid t p) :
    Solid c (optional t p) := hp.ifAt solid_done

theorem Firm.optional {t : List Word → Bool} {p : Rule n} (hp : Firm t p) :
    Firm t (Rule.optional t p) := fun ws h ht => by
  unfold Rule.optional Rule.ifAt
  rw [if_pos ht]
  exact hp ws h ht

theorem solid_eat (k : Kind) : Solid c (eat k : Rule n) := solid_bump.optional

theorem firm_expect (k : Kind) (f : Fault) : Firm c (expect k f : Rule n) :=
  (firm_bump.of_atWord rfl).ifAt (firm_fault f)

theorem firm_onWord {p : (w : Word) → (r : List Word) → r.length < n → Parsed (w :: r)}
    (hp : ∀ w r h, (p w r h).Firm) : Firm atWord (onWord p) := fun ws h hc => by
  cases ws with
  | nil => cases hc
  | cons w r => exact hp w r _

theorem firm_after {p : Rule n} (hp : Solid anywhere p) : Firm atWord (Rule.after p) :=
  firm_onWord fun w r h => (hp r h rfl).word w

theorem Firm.advancing {t : List Word → Bool} {p : Rule (n + 1)} {q : Rule n} (hp : Firm t p)
    (ha : Advances t p) (hq : Solid anywhere q) : Firm t (advancing t p ha q) :=
  fun ws h ht => by
    unfold Rule.advancing
    rw [dif_pos ht]
    exact (hp ws h ht).append (hq _ _ rfl)

/-! ## loops -/

theorem Solid.many {t : List Word → Bool} {p : Rule n} (hp : Solid t p) (ha : Advances t p) :
    Solid anywhere (many t p ha) := fun ws h _ => by
  induction hlen : ws.length using Nat.strongRecOn generalizing ws with
  | ind l ih =>
    unfold Rule.many
    split
    · next ht => exact (hp ws h ht).append (ih _ (hlen ▸ ha ws h ht) _ _ rfl rfl)
    · exact Parsed.solid_done

theorem Firm.many {t : List Word → Bool} {p : Rule n} (hp : Firm t p) (ha : Advances t p) :
    Firm t (many t p ha) := fun ws h ht => by
  unfold Rule.many
  rw [dif_pos ht]
  exact (hp ws h ht).append (hp.solid.many ha _ _ rfl)

/-- A loop is solid if what it repeats is, behind each word that it takes. -/
theorem Solid.whileAt {t : List Word → Bool} {p : Rule n} (hp : Solid d p)
    (hd : ∀ w r, t (w :: r) = true → d r = true) : Solid anywhere (whileAt t p) := fun ws h _ => by
  induction hlen : ws.length using Nat.strongRecOn generalizing ws with
  | ind l ih =>
    subst hlen
    cases ws with
    | nil =>
      unfold Rule.whileAt
      exact Parsed.solid_done
    | cons w r =>
      unfold Rule.whileAt
      split
      · next ht =>
        refine (((hp r _ (hd w r ht)).append (ih _ ?_ _ _ rfl rfl)).word w).solid
        exact Nat.lt_succ_of_le (Parsed.length_rest_le _)
      · exact Parsed.solid_done

theorem Solid.commaTail {t : List Word → Bool} {p : Rule n} (hp : Solid t p) :
    Solid anywhere (commaTail t p) := fun ws h _ => by
  induction hlen : ws.length using Nat.strongRecOn generalizing ws with
  | ind l ih =>
    subst hlen
    cases ws with
    | nil =>
      unfold Rule.commaTail
      exact Parsed.solid_done
    | cons w r =>
      unfold Rule.commaTail
      split
      · split
        · next ht =>
          refine (((hp r _ ht).append (ih _ ?_ _ _ rfl rfl)).word w).solid
          exact Nat.lt_succ_of_le (Parsed.length_rest_le _)
        · exact (Parsed.firm_take w r).solid
      · exact Parsed.solid_done

theorem Solid.commaList {t : List Word → Bool} {p : Rule n} (hp : Solid t p) :
    Solid c (commaList t p) := (hp.seq hp.commaTail).optional

/-- A list with an element, whatever stands next, is firm if its elements are. -/
theorem Firm.commaList {p : Rule n} (hp : Firm anywhere p) :
    Firm c (Rule.commaList (fun _ => true) p) := fun ws h _ =>
  (hp.seq (hp.solid.of_anywhere.commaTail (t := fun _ => true))).optional (t := fun _ => true)
    ws h rfl

end Rule

end Grammar

end SwiftOutline

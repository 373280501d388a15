import SwiftOutline.Proofs.Runaway

/-!
# SwiftOutline.Proofs.Local

Rules that read through more words behind theirs.

* `Parsed.Extends` — the same is sketched with more words behind, and those are left besides;
* `Rule.Local` — two rules, one for the words and one for more of them, of which the second
  extends the first wherever that finds no fault and leaves a word;
* `Rule.Closed` — two rules of which the second extends the first even if that takes all words:
  it ends by taking a word that it asks for.

A local rule looks ahead only at words it takes or at the next one, and that is why a word has to
be left. For the conditions of a rule this is `Stable`.
-/

namespace SwiftOutline

namespace Sketch

/-- The last part of a run of sketches is a word, at whatever depth. -/
inductive EndsInWord : List Sketch → Prop where
  | word (ss : List Sketch) (w : Word) : EndsInWord (ss ++ [.word w])
  | node (ss : List Sketch) (k : Kind) {ps : List Sketch} (h : EndsInWord ps) :
    EndsInWord (ss ++ [.node k ps])

theorem EndsInWord.append_left {ts : List Sketch} (h : EndsInWord ts) (ss : List Sketch) :
    EndsInWord (ss ++ ts) := by
  cases h with
  | word us w =>
    rw [← List.append_assoc]
    exact .word _ w
  | node us k h =>
    rw [← List.append_assoc]
    exact .node _ k h

theorem EndsInWord.words_ne_nil {ss : List Sketch} (h : EndsInWord ss) : wordsOfAll ss ≠ [] := by
  induction h with
  | word ss w => simp
  | node ss k h ih => simp [ih]

end Sketch

namespace Grammar

open Sketch

namespace Parsed

variable {vs ws ws' : List Word}

/-- With more words behind, the same is sketched, and those words are left besides. -/
structure Extends (vs : List Word) {ws ws' : List Word} (p : Parsed ws) (q : Parsed ws') :
    Prop where
  sketches : q.sketches = p.sketches
  rest : q.rest = p.rest ++ vs

namespace Extends

theorem append {p : Parsed ws} {p' : Parsed p.rest} {q : Parsed ws'} {q' : Parsed q.rest}
    (h : p.Extends vs q) (h' : p'.Extends vs q') : (p.append p').Extends vs (q.append q') where
  sketches := by
    show q.sketches ++ q'.sketches = p.sketches ++ p'.sketches
    rw [h.sketches, h'.sketches]
  rest := h'.rest

theorem cons {r r' : List Word} {p : Parsed r} {q : Parsed r'} (h : p.Extends vs q) (w : Word) :
    (cons w p).Extends vs (cons w q) where
  sketches := by
    show Sketch.word w :: q.sketches = .word w :: p.sketches
    rw [h.sketches]
  rest := h.rest

theorem node {p : Parsed ws} {q : Parsed ws'} (h : p.Extends vs q) (k : Kind) :
    (Parsed.node k p).Extends vs (Parsed.node k q) where
  sketches := by
    show [Sketch.node k q.sketches] = [.node k p.sketches]
    rw [h.sketches]
  rest := h.rest

theorem done : (done ws).Extends vs (done (ws ++ vs)) := ⟨rfl, rfl⟩

theorem take (w : Word) (r : List Word) : (take w r).Extends vs (take w (r ++ vs)) := ⟨rfl, rfl⟩

end Extends

/-- Where a word is taken, one stands. -/
theorem ne_nil_of_endsInWord {p : Parsed ws} (h : EndsInWord p.sketches) : ws ≠ [] := by
  rintro rfl
  exact h.words_ne_nil (List.append_eq_nil_iff.1 p.covers).1

end Parsed

/-! ## conditions -/

/-- A condition asks for the next word only. -/
def Near (c : List Word → Bool) : Prop := ∀ w r r', c (w :: r) = c (w :: r')

/-- Where a word stands next, a condition does not change with more words behind. -/
def Stable (vs : List Word) (c : List Word → Bool) : Prop :=
  ∀ ws, Ended ws → ws ≠ [] → c (ws ++ vs) = c ws

variable {vs : List Word} {a b c : List Word → Bool}

theorem Near.stable (hc : Near c) : Stable vs c := by
  intro ws _ hne
  cases ws with
  | nil => exact absurd rfl hne
  | cons w r => exact hc w _ _

/-- What stands behind words that are read through does not change either. -/
theorem Parsed.Extends.at_eq {ws ws' : List Word} {p : Parsed ws} {q : Parsed ws'}
    (h : p.Extends vs q) (hc : Stable vs c) (hend : Ended ws) (hne : p.rest ≠ []) :
    c q.rest = c p.rest := by rw [h.rest, hc _ (hend.rest p) hne]

theorem near_at? (k : Kind) : Near (at? k) := fun _ _ _ => rfl

theorem near_atAny (ks : List Kind) : Near (atAny ks) := fun _ _ _ => rfl

theorem near_atName (names : List String) : Near (atName names) := fun _ _ _ => rfl

theorem near_atOther (ks : List Kind) : Near (atOther ks) := fun _ _ _ => rfl

theorem near_atWord : Near atWord := fun _ _ _ => rfl

theorem near_atJoinedParen : Near atJoinedParen := fun _ _ _ => rfl

/-- Two words are asked for, of which the first closes no brace. -/
theorem stable_pair (ha : Near a) (hb : Near b)
    (hclose : ∀ w r, w.kind = .closeBrace → a (w :: r) = false) :
    Stable vs fun ws => a ws && b ws.tail := by
  intro ws hend hne
  cases ws with
  | nil => exact absurd rfl hne
  | cons w r =>
    by_cases hw : w.kind = .closeBrace
    · simp [hclose w _ hw]
    · obtain ⟨v, r', rfl⟩ := hend.exists_cons hw
      show (a (w :: v :: (r' ++ vs)) && b (v :: (r' ++ vs))) = (a (w :: v :: r') && b (v :: r'))
      rw [ha w _ (v :: r'), hb v _ r']

/-! ## rules -/

namespace Rule

variable {n m : Nat}

/-- With more words behind some, a rule extends another one, if that finds no fault and leaves a
word. -/
def LocalAt (vs : List Word) (p : Rule n) (q : Rule m) (ws : List Word) : Prop :=
  ∀ ws' h h', ws' = ws ++ vs → Ended ws → CleanAll (p ws h).sketches → (p ws h).rest ≠ [] →
    (p ws h).Extends vs (q ws' h')

/-- With more words behind, a rule extends another one wherever that finds no fault and leaves a
word. -/
def Local (vs : List Word) (p : Rule n) (q : Rule m) : Prop := ∀ ws, LocalAt vs p q ws

/-- With more words behind, a rule extends another one, which takes a word last, wherever that
finds no fault. -/
structure Closed (vs : List Word) (p : Rule n) (q : Rule m) : Prop where
  endsInWord : ∀ ws h, CleanAll (p ws h).sketches → EndsInWord (p ws h).sketches
  extend : ∀ ws ws' h h', ws' = ws ++ vs → Ended ws → CleanAll (p ws h).sketches →
    (p ws h).Extends vs (q ws' h')

variable {p p' : Rule n} {q q' : Rule m}

theorem Closed.local (hp : Closed vs p q) : Local vs p q := fun ws ws' h h' hws hend hclean _ =>
  hp.extend ws ws' h h' hws hend hclean

theorem local_done : Local vs (done : Rule n) (done : Rule m) := by
  rintro ws _ h h' rfl - - -
  exact .done

theorem local_fault (f : Fault) : Local vs (fault f : Rule n) (fault f : Rule m) :=
  fun _ _ _ _ _ _ hclean _ => hclean.1.elim

theorem local_bump : Local vs (bump : Rule n) (bump : Rule m) := by
  rintro ws _ h h' rfl - - hrest
  cases ws with
  | nil => exact absurd rfl hrest
  | cons w r => exact .take w r

theorem Local.seq (hp : Local vs p q) (hp' : Local vs p' q') : Local vs (p >> p') (q >> q') := by
  rintro ws _ h h' rfl hend hclean hrest
  obtain ⟨hfirst, hsecond⟩ := cleanAll_append.1 hclean
  have hleft := hp ws _ h h' rfl hend hfirst (Parsed.ne_nil_of_rest hrest)
  exact hleft.append (hp' _ _ _ _ hleft.rest (hend.rest _) hsecond hrest)

/-- A rule that is read through, and then one that takes a word last. -/
theorem Local.close (hp : Local vs p q) (hp' : Closed vs p' q') :
    Closed vs (p >> p') (q >> q') where
  endsInWord ws h hclean := by
    obtain ⟨-, hsecond⟩ := cleanAll_append.1 hclean
    exact (hp'.endsInWord _ _ hsecond).append_left _
  extend := by
    rintro ws _ h h' rfl hend hclean
    obtain ⟨hfirst, hsecond⟩ := cleanAll_append.1 hclean
    have hrest := Parsed.ne_nil_of_endsInWord (hp'.endsInWord _ _ hsecond)
    have hleft := hp ws _ h h' rfl hend hfirst hrest
    exact hleft.append (hp'.extend _ _ _ _ hleft.rest (hend.rest _) hsecond)

theorem Local.node (hp : Local vs p q) (k : Kind) : Local vs (node k p) (node k q) :=
  fun ws ws' h h' hws hend hclean hrest => (hp ws ws' h h' hws hend hclean.1 hrest).node k

theorem Closed.node (hp : Closed vs p q) (k : Kind) : Closed vs (node k p) (node k q) where
  endsInWord ws h hclean := .node [] k (hp.endsInWord ws h hclean.1)
  extend ws ws' h h' hws hend hclean := (hp.extend ws ws' h h' hws hend hclean.1).node k

theorem Local.ifAt (hc : Stable vs c) (hp : Local vs p q) (hp' : Local vs p' q') :
    Local vs (ifAt c p p') (ifAt c q q') := by
  rintro ws _ h h' rfl hend hclean hrest
  have hat := hc ws hend (Parsed.ne_nil_of_rest hrest)
  unfold Rule.ifAt at hclean hrest ⊢
  rw [hat]
  split
  · next hcw =>
    rw [if_pos hcw] at hclean hrest
    exact hp ws _ h h' rfl hend hclean hrest
  · next hcw =>
    rw [if_neg hcw] at hclean hrest
    exact hp' ws _ h h' rfl hend hclean hrest

/-- Where a rule is at fault unless a condition holds, it need not be stable where it fails. -/
theorem Local.ifAt_of_clean (hc : ∀ ws, Ended ws → c ws = true → c (ws ++ vs) = true)
    (hp : Local vs p q) (hp' : ∀ ws h, ¬CleanAll (p' ws h).sketches) :
    Local vs (Rule.ifAt c p p') (Rule.ifAt c q q') := by
  rintro ws _ h h' rfl hend hclean hrest
  unfold Rule.ifAt at hclean hrest ⊢
  split at hclean
  · next hcw =>
    rw [if_pos hcw] at hrest
    rw [if_pos hcw, if_pos (hc ws hend hcw)]
    exact hp ws _ h h' rfl hend hclean hrest
  · exact absurd hclean (hp' ws h)

theorem Local.optional (hc : Stable vs c) (hp : Local vs p q) :
    Local vs (optional c p) (optional c q) := hp.ifAt hc local_done

theorem local_eat (k : Kind) : Local vs (eat k : Rule n) (eat k : Rule m) :=
  local_bump.optional (near_at? k).stable

theorem exists_of_cleanAll_expect {k : Kind} {f : Fault} {ws : List Word} {h : ws.length < n}
    (hclean : CleanAll ((expect k f : Rule n) ws h).sketches) :
    ∃ w r, ws = w :: r ∧ at? k (w :: r) = true := by
  unfold expect Rule.ifAt at hclean
  split at hclean
  · next hat =>
    cases ws with
    | nil => cases hat
    | cons w r => exact ⟨w, r, rfl, hat⟩
  · exact hclean.1.elim

theorem endsInWord_expect {k : Kind} {f : Fault} {ws : List Word} {h : ws.length < n}
    (hclean : CleanAll ((expect k f : Rule n) ws h).sketches) :
    EndsInWord ((expect k f : Rule n) ws h).sketches := by
  obtain ⟨w, r, rfl, hat⟩ := exists_of_cleanAll_expect hclean
  unfold expect Rule.ifAt
  rw [if_pos hat]
  exact .word [] w

/-- A word that has to be there is taken last. -/
theorem closed_expect (k : Kind) (f : Fault) :
    Closed vs (expect k f : Rule n) (expect k f : Rule m) where
  endsInWord _ _ hclean := endsInWord_expect hclean
  extend := by
    rintro ws _ h h' rfl - hclean
    obtain ⟨w, r, rfl, hat⟩ := exists_of_cleanAll_expect hclean
    have hat' : at? k ((w :: r) ++ vs) = true := hat
    unfold expect Rule.ifAt
    rw [if_pos hat, if_pos hat']
    exact .take w r

theorem local_expect (k : Kind) (f : Fault) :
    Local vs (expect k f : Rule n) (expect k f : Rule m) := (closed_expect k f).local

theorem local_onWord {p : (w : Word) → (r : List Word) → r.length < n → Parsed (w :: r)}
    {q : (w : Word) → (r : List Word) → r.length < m → Parsed (w :: r)}
    (hp : ∀ w r h h', Ended (w :: r) → CleanAll (p w r h).sketches → (p w r h).rest ≠ [] →
      (p w r h).Extends vs (q w (r ++ vs) h')) : Local vs (onWord p) (onWord q) := by
  rintro ws _ h h' rfl hend hclean hrest
  cases ws with
  | nil => exact absurd rfl hrest
  | cons w r => exact hp w r _ _ hend hclean hrest

theorem Local.after (hp : Local vs p q) : Local vs (after p) (after q) :=
  local_onWord fun w r h h' hend hclean hrest =>
    (hp r _ h h' rfl hend.tail hclean.2 hrest).cons w

/-- A rule behind a word that has to be there. -/
theorem Closed.required (hp : Closed vs p q) (k : Kind) (f : Fault) :
    Closed vs (Rule.ifAt (at? k) (Rule.after p) (fault f))
      (Rule.ifAt (at? k) (Rule.after q) (fault f)) := by
  have hread {l : Nat} {p : Rule l} {ws : List Word} {h : ws.length < l + 1}
      (hclean : CleanAll (Rule.ifAt (at? k) (Rule.after p) (fault f) ws h).sketches) :
      ∃ w r, ws = w :: r ∧ at? k (w :: r) = true := by
    unfold Rule.ifAt at hclean
    split at hclean
    · next hat =>
      cases ws with
      | nil => cases hat
      | cons w r => exact ⟨w, r, rfl, hat⟩
    · exact hclean.1.elim
  constructor
  case endsInWord =>
    intro ws h hclean
    obtain ⟨w, r, rfl, hat⟩ := hread hclean
    unfold Rule.ifAt at hclean ⊢
    rw [if_pos hat] at hclean ⊢
    exact (hp.endsInWord _ _ hclean.2).append_left [.word w]
  case extend =>
    rintro ws _ h h' rfl hend hclean
    obtain ⟨w, r, rfl, hat⟩ := hread hclean
    have hat' : at? k ((w :: r) ++ vs) = true := hat
    unfold Rule.ifAt at hclean ⊢
    rw [if_pos hat] at hclean ⊢
    rw [if_pos hat']
    exact (hp.extend r _ _ _ rfl hend.tail hclean.2).cons w

theorem Local.advancing {p : Rule (n + 1)} {q : Rule (m + 1)} (hc : Stable vs c)
    (hp : Local vs p q) (ha : Advances c p) (hb : Advances c q) (hp' : Local vs p' q') :
    Local vs (advancing c p ha p') (advancing c q hb q') := by
  rintro ws _ h h' rfl hend hclean hrest
  have hat := hc ws hend (Parsed.ne_nil_of_rest hrest)
  unfold Rule.advancing at hclean hrest ⊢
  split at hclean
  · next hcw =>
    rw [dif_pos hcw] at hrest ⊢
    rw [dif_pos (hat.trans hcw)]
    obtain ⟨hfirst, hsecond⟩ := cleanAll_append.1 hclean
    have hleft := hp ws _ h h' rfl hend hfirst (Parsed.ne_nil_of_rest hrest)
    exact hleft.append (hp' _ _ _ _ hleft.rest (hend.rest _) hsecond hrest)
  · next hcw =>
    rw [dif_neg hcw] at hrest ⊢
    rw [dif_neg (by rwa [hat])]
    exact hp ws _ h h' rfl hend hclean hrest

/-! ## loops -/

/-- A rule is local if it is local wherever it is so at fewer words. -/
theorem local_of_shorter
    (step : ∀ ws, (∀ r, r.length < ws.length → LocalAt vs p q r) → LocalAt vs p q ws) :
    Local vs p q := by
  intro ws
  induction hlen : ws.length using Nat.strongRecOn generalizing ws with
  | ind l ih => exact step ws fun r hr => ih r.length (hlen ▸ hr) r rfl

theorem Local.many (hc : Stable vs c) (hp : Local vs p q) (ha : Advances c p)
    (hb : Advances c q) : Local vs (many c p ha) (many c q hb) := by
  refine local_of_shorter fun ws ih => ?_
  rintro _ h h' rfl hend hclean hrest
  have hat := hc ws hend (Parsed.ne_nil_of_rest hrest)
  unfold Rule.many at hclean hrest ⊢
  split at hclean
  · next hcw =>
    rw [dif_pos hcw] at hrest ⊢
    rw [dif_pos (hat.trans hcw)]
    obtain ⟨hfirst, hsecond⟩ := cleanAll_append.1 hclean
    have hleft := hp ws _ h h' rfl hend hfirst (Parsed.ne_nil_of_rest hrest)
    exact hleft.append (ih _ (ha ws h hcw) _ _ _ hleft.rest (hend.rest _) hsecond hrest)
  · next hcw =>
    rw [dif_neg hcw] at hrest ⊢
    rw [dif_neg (by rwa [hat])]
    exact .done

theorem Local.whileAt (hc : Stable vs c) (hp : Local vs p q) :
    Local vs (whileAt c p) (whileAt c q) := by
  refine local_of_shorter fun ws ih => ?_
  rintro _ h h' rfl hend hclean hrest
  cases ws with
  | nil => exact absurd (Parsed.rest_eq_nil _) hrest
  | cons w r =>
    have hat : c (w :: (r ++ vs)) = c (w :: r) := hc _ hend (by simp)
    rw [List.cons_append] at h'
    change Parsed.Extends vs _ (Rule.whileAt c q (w :: (r ++ vs)) h')
    unfold Rule.whileAt at hclean hrest ⊢
    split at hclean
    · next hcw =>
      rw [if_pos hcw] at hrest ⊢
      rw [if_pos (hat.trans hcw)]
      obtain ⟨hfirst, hsecond⟩ := cleanAll_append.1 hclean.2
      have hleft := hp r _ _ (Nat.lt_of_succ_lt h') rfl hend.tail hfirst
        (Parsed.ne_nil_of_rest hrest)
      refine (hleft.append ?_).cons w
      exact ih _ (Nat.lt_succ_of_le (Parsed.length_rest_le _)) _ _ _ hleft.rest
        (hend.tail.rest _) hsecond hrest
    · next hcw =>
      rw [if_neg hcw] at hrest ⊢
      rw [if_neg (by rwa [hat])]
      exact .done

theorem Local.commaTail (hc : Stable vs c) (hp : Local vs p q) :
    Local vs (commaTail c p) (commaTail c q) := by
  refine local_of_shorter fun ws ih => ?_
  rintro _ h h' rfl hend hclean hrest
  cases ws with
  | nil => exact absurd (Parsed.rest_eq_nil _) hrest
  | cons w r =>
    rw [List.cons_append] at h'
    change Parsed.Extends vs _ (Rule.commaTail c q (w :: (r ++ vs)) h')
    unfold Rule.commaTail at hclean hrest ⊢
    split at hclean
    · next hw =>
      rw [if_pos hw] at hrest ⊢
      rw [if_pos hw]
      split at hclean
      · next hcr =>
        rw [if_pos hcr] at hrest ⊢
        obtain ⟨hfirst, hsecond⟩ := cleanAll_append.1 hclean.2
        have hne := Parsed.ne_nil_of_rest (Parsed.ne_nil_of_rest hrest)
        have hat : c (r ++ vs) = c r := hc _ hend.tail hne
        rw [if_pos (hat.trans hcr)]
        have hleft := hp r _ _ (Nat.lt_of_succ_lt h') rfl hend.tail hfirst
          (Parsed.ne_nil_of_rest hrest)
        refine (hleft.append ?_).cons w
        exact ih _ (Nat.lt_succ_of_le (Parsed.length_rest_le _)) _ _ _ hleft.rest
          (hend.tail.rest _) hsecond hrest
      · next hcr =>
        rw [if_neg hcr] at hrest ⊢
        have hat : c (r ++ vs) = c r := hc _ hend.tail hrest
        rw [if_neg (by rwa [hat])]
        exact .take w r
    · next hw =>
      rw [if_neg hw] at hrest ⊢
      rw [if_neg hw]
      exact .done

theorem Local.commaList (hc : Stable vs c) (hp : Local vs p q) :
    Local vs (commaList c p) (commaList c q) :=
  (hp.seq (hp.commaTail hc)).optional hc

end Rule

end Grammar

end SwiftOutline

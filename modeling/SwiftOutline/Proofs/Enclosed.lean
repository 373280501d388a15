import SwiftOutline.Proofs.Joint
import SwiftOutline.Proofs.Phrase
import SwiftOutline.Proofs.Regular

/-!
# SwiftOutline.Proofs.Enclosed

A type is the same with more words behind, if it ends inside brackets or these words close types.

* `Sketch.Flawless` — a sketch without faults and gaps;
* `Rule.Through` — two rules, one for the words and one for more of them, of which the second
  extends the first wherever the first sketches without flaw, given something of the words it
  leaves;
* `Fenced` — words among which is a mark that brackets or the parameters of a function end with.
  Inside brackets words are left, up to the closing mark, and nothing looks across it;
* `Shut` — words that are fenced, or else have only some kinds of words behind;
* `Rule.Sealed` — two rules of which the first ends with a mark it asks for, and so does not sketch
  without flaw unless words are fenced;
* `through_type` — types, before words that close types; and `throughAt_primaryType` — types
  without prefixes and suffixes, before suffixes too.
-/

namespace SwiftOutline

namespace Sketch

/-- No fault is in some sketches, no room for trivia, and every node has the parts of its kind. -/
structure Flawless (ss : List Sketch) : Prop where
  clean : CleanAll ss
  gapless : .gap ∉ ss
  regular : RegularAll ss

namespace Flawless

variable {ss ts : List Sketch} {k : Kind} {w : Word}

theorem left (h : Flawless (ss ++ ts)) : Flawless ss where
  clean := (cleanAll_append.1 h.clean).1
  gapless hgap := h.gapless (List.mem_append_left ts hgap)
  regular := by
    have hregular := h.regular
    clear h
    induction ss with
    | nil => exact True.intro
    | cons s ss ih => exact ⟨hregular.1, ih hregular.2⟩

theorem right (h : Flawless (ss ++ ts)) : Flawless ts where
  clean := (cleanAll_append.1 h.clean).2
  gapless hgap := h.gapless (List.mem_append_right ss hgap)
  regular := by
    have hregular := h.regular
    clear h
    induction ss with
    | nil => exact hregular
    | cons s ss ih => exact ih hregular.2

theorem inside (h : Flawless [.node k ss]) : Flawless ss where
  clean := h.clean.1
  gapless := h.regular.1.1
  regular := h.regular.1.2.2

theorem tail (h : Flawless (.word w :: ss)) : Flawless ss :=
  right (show Flawless ([.word w] ++ ss) from h)

end Flawless

end Sketch

namespace Grammar

open Sketch (CleanAll cleanAll_append Flawless)
open Rule

/-! ## what is left -/

/-- The marks that brackets and the parameters of functions end with. -/
def fences : List Kind := [.closeParen, .closeBracket, .closeAngle, .arrow]

/-- A word among some is a mark that ends brackets or parameters. -/
def Fenced (ws : List Word) : Prop := ∃ w ∈ ws, w.kind ∈ fences

/-- There is such a mark among some words, or a word of some kinds stands behind them. -/
def Shut (ks : List Kind) (vs ws : List Word) : Prop := Before ks vs ∨ Fenced ws

/-- What holds of words holds with more words before them. -/
def Rising (Q : List Word → Prop) : Prop := ∀ us ws, Q ws → Q (us ++ ws)

theorem rising_fenced : Rising Fenced := fun us _ ⟨w, hw, hk⟩ =>
  ⟨w, List.mem_append_right us hw, hk⟩

theorem rising_shut (ks : List Kind) (vs : List Word) : Rising (Shut ks vs) := fun us ws h =>
  h.imp_right (rising_fenced us ws)

theorem Shut.mono {ks ls : List Kind} {vs ws : List Word} (h : Shut ks vs ws) (hsub : ks ⊆ ls) :
    Shut ls vs ws := h.imp_left fun hvs => hvs.mono hsub

theorem Fenced.ne_nil {ws : List Word} (h : Fenced ws) : ws ≠ [] := by
  obtain ⟨w, hw, -⟩ := h
  exact List.ne_nil_of_mem hw

theorem fenced_cons {w : Word} (hw : w.kind ∈ fences) (r : List Word) : Fenced (w :: r) :=
  ⟨w, List.mem_cons_self, hw⟩

/-- What holds of the words that are left holds of all. -/
theorem Rising.of_rest {Q : List Word → Prop} (hQ : Rising Q) {ws : List Word} (p : Parsed ws)
    (h : Q p.rest) : Q ws := p.covers ▸ hQ _ _ h

/-- A condition does not change with more words behind, given something of the words. -/
def Steady (Q : List Word → Prop) (vs : List Word) (c : List Word → Bool) : Prop :=
  ∀ ws, Q ws → c (ws ++ vs) = c ws

theorem Steady.mono {P Q : List Word → Prop} {vs : List Word} {c : List Word → Bool}
    (h : Steady Q vs c) (hPQ : ∀ ws, P ws → Q ws) : Steady P vs c := fun ws hws => h ws (hPQ ws hws)

section

variable {ks : List Kind} {vs : List Word} {c : List Word → Bool}

theorem Near.shut (hc : Near c) (hvs : Before ks vs → c vs = c []) : Steady (Shut ks vs) vs c := by
  rintro ws (hbefore | hfenced)
  · cases ws with
    | nil => exact hvs hbefore
    | cons w r => exact hc w _ _
  · cases ws with
    | nil => exact absurd rfl hfenced.ne_nil
    | cons w r => exact hc w _ _

theorem Near.fenced (hc : Near c) : Steady Fenced vs c := by
  intro ws hws
  cases ws with
  | nil => exact absurd rfl hws.ne_nil
  | cons w r => exact hc w _ _

end

/-! ## rules -/

namespace Rule

variable {n m : Nat}

/-- With more words behind some, a rule extends another one if that sketches without flaw, given
something of the words it leaves. -/
def ThroughAt (Q : List Word → Prop) (vs : List Word) (p : Rule n) (q : Rule m) (ws : List Word) :
    Prop :=
  ∀ ws' h h', ws' = ws ++ vs → Flawless (p ws h).sketches → Q (p ws h).rest →
    (p ws h).Extends vs (q ws' h')

/-- With more words behind, a rule extends another one wherever that sketches without flaw, given
something of the words it leaves. -/
def Through (Q : List Word → Prop) (vs : List Word) (p : Rule n) (q : Rule m) : Prop :=
  ∀ ws, ThroughAt Q vs p q ws

/-- With more words behind, a rule extends another one wherever that sketches without flaw, given
something of the words it leaves, and then the words are fenced. -/
structure Sealed (Q : List Word → Prop) (vs : List Word) (p : Rule n) (q : Rule m) : Prop where
  through : Through Q vs p q
  fenced : ∀ ws h, Flawless (p ws h).sketches → Fenced ws

variable {P Q : List Word → Prop} {vs : List Word} {c : List Word → Bool} {p p' : Rule n}
  {q q' : Rule m}

theorem Through.mono (hp : Through Q vs p q) (hPQ : ∀ ws, P ws → Q ws) : Through P vs p q :=
  fun ws ws' h h' hws hflawless hrest => hp ws ws' h h' hws hflawless (hPQ _ hrest)

theorem through_done : Through Q vs (done : Rule n) (done : Rule m) := by
  rintro ws _ h h' rfl - -
  exact .done

theorem through_fault (f : Fault) (p' : Rule n) (q : Rule m) : Through Q vs (fault f >> p') q :=
  fun _ _ _ _ _ hflawless _ => hflawless.clean.1.elim

theorem through_bump : Through Q vs (bump : Rule n) (bump : Rule m) := by
  rintro ws _ h h' rfl hflawless -
  cases ws with
  | nil => exact absurd List.mem_cons_self hflawless.gapless
  | cons w r => exact .take w r

theorem Through.seq (hQ : Rising Q) (hp : Through Q vs p q) (hp' : Through Q vs p' q') :
    Through Q vs (p >> p') (q >> q') := by
  rintro ws _ h h' rfl hflawless hrest
  have hleft := hp ws _ h h' rfl hflawless.left (hQ.of_rest _ hrest)
  exact hleft.append (hp' _ _ _ _ hleft.rest hflawless.right hrest)

/-- A rule before one that asks for a mark. -/
theorem Through.close (hp : Through Fenced vs p q) (hp' : Sealed Q vs p' q') :
    Sealed Q vs (p >> p') (q >> q') where
  through := by
    rintro ws _ h h' rfl hflawless hrest
    have hleft := hp ws _ h h' rfl hflawless.left (hp'.fenced _ _ hflawless.right)
    exact hleft.append (hp'.through _ _ _ _ hleft.rest hflawless.right hrest)
  fenced ws h hflawless := rising_fenced.of_rest _ (hp'.fenced _ _ hflawless.right)

theorem Through.node (hp : Through Q vs p q) (k : Kind) : Through Q vs (node k p) (node k q) :=
  fun ws ws' h h' hws hflawless hrest => (hp ws ws' h h' hws hflawless.inside hrest).node k

theorem Sealed.node (hp : Sealed Q vs p q) (k : Kind) : Sealed Q vs (node k p) (node k q) where
  through := hp.through.node k
  fenced ws h hflawless := hp.fenced ws h hflawless.inside

theorem Sealed.seq (hQ : Rising Q) (hp : Sealed Q vs p q) (hp' : Through Q vs p' q') :
    Sealed Q vs (p >> p') (q >> q') where
  through := hp.through.seq hQ hp'
  fenced ws h hflawless := hp.fenced ws h hflawless.left

theorem Through.ifAt (hQ : Rising Q) (hc : Steady Q vs c) (hp : Through Q vs p q)
    (hp' : Through Q vs p' q') : Through Q vs (ifAt c p p') (ifAt c q q') := by
  rintro ws _ h h' rfl hflawless hrest
  have hat := hc ws (hQ.of_rest _ hrest)
  unfold Rule.ifAt at hflawless hrest ⊢
  rw [hat]
  split
  · next hcw =>
    rw [if_pos hcw] at hflawless hrest
    exact hp ws _ h h' rfl hflawless hrest
  · next hcw =>
    rw [if_neg hcw] at hflawless hrest
    exact hp' ws _ h h' rfl hflawless hrest

theorem Through.optional (hQ : Rising Q) (hc : Steady Q vs c) (hp : Through Q vs p q) :
    Through Q vs (optional c p) (optional c q) := hp.ifAt hQ hc through_done

theorem sealed_expect {k : Kind} (hk : k ∈ fences) (f : Fault) :
    Sealed Q vs (expect k f : Rule n) (expect k f : Rule m) where
  through := by
    rintro ws _ h h' rfl hflawless -
    obtain ⟨w, r, rfl, hat⟩ := exists_of_cleanAll_expect hflawless.clean
    have hat' : at? k ((w :: r) ++ vs) = true := hat
    unfold expect Rule.ifAt
    rw [if_pos hat, if_pos hat']
    exact .take w r
  fenced ws h hflawless := by
    obtain ⟨w, r, rfl, hat⟩ := exists_of_cleanAll_expect hflawless.clean
    have hw : w.kind = k := by simpa [at?, kind?] using hat
    exact fenced_cons (hw ▸ hk) r

theorem through_onWord {p : (w : Word) → (r : List Word) → r.length < n → Parsed (w :: r)}
    {q : (w : Word) → (r : List Word) → r.length < m → Parsed (w :: r)}
    (hp : ∀ w r h h', Flawless (p w r h).sketches → Q (p w r h).rest →
      (p w r h).Extends vs (q w (r ++ vs) h')) : Through Q vs (onWord p) (onWord q) := by
  rintro ws _ h h' rfl hflawless hrest
  cases ws with
  | nil => exact absurd List.mem_cons_self hflawless.gapless
  | cons w r => exact hp w r _ _ hflawless hrest

theorem Through.after (hp : Through Q vs p q) : Through Q vs (after p) (after q) :=
  through_onWord fun w r h h' hflawless hrest =>
    (hp r _ h h' rfl hflawless.tail hrest).cons w

/-! ## loops -/

/-- A rule is read through if it is so wherever it is at fewer words. -/
theorem through_of_shorter
    (step : ∀ ws, (∀ r, r.length < ws.length → ThroughAt Q vs p q r) → ThroughAt Q vs p q ws) :
    Through Q vs p q := by
  intro ws
  induction hlen : ws.length using Nat.strongRecOn generalizing ws with
  | ind l ih => exact step ws fun r hr => ih r.length (hlen ▸ hr) r rfl

theorem Through.many (hQ : Rising Q) (hc : Steady Q vs c) (hp : Through Q vs p q)
    (ha : Advances c p) (hb : Advances c q) : Through Q vs (many c p ha) (many c q hb) := by
  refine through_of_shorter fun ws ih => ?_
  rintro _ h h' rfl hflawless hrest
  have hat := hc ws (hQ.of_rest _ hrest)
  unfold Rule.many at hflawless hrest ⊢
  split at hflawless
  · next hcw =>
    rw [dif_pos hcw] at hrest ⊢
    rw [dif_pos (hat.trans hcw)]
    have hleft := hp ws _ h h' rfl hflawless.left (hQ.of_rest _ hrest)
    exact hleft.append (ih _ (ha ws h hcw) _ _ _ hleft.rest hflawless.right hrest)
  · next hcw =>
    rw [dif_neg hcw] at hrest ⊢
    rw [dif_neg (by rwa [hat])]
    exact .done

theorem Through.whileAt (hQ : Rising Q) (hnil : c [] = false) (hc : Steady Q vs c)
    (hp : Through Q vs p q) : Through Q vs (whileAt c p) (whileAt c q) := by
  refine through_of_shorter fun ws ih => ?_
  rintro _ h h' rfl hflawless hrest
  cases ws with
  | nil =>
    have hat := hc [] (hQ.of_rest _ hrest)
    rw [whileAt_not hnil, whileAt_not (hat.trans hnil)]
    exact .done
  | cons w r =>
    have hat : c (w :: (r ++ vs)) = c (w :: r) := hc _ (hQ.of_rest _ hrest)
    rw [List.cons_append] at h'
    change Parsed.Extends vs _ (Rule.whileAt c q (w :: (r ++ vs)) h')
    unfold Rule.whileAt at hflawless hrest ⊢
    split at hflawless
    · next hcw =>
      rw [if_pos hcw] at hrest ⊢
      rw [if_pos (hat.trans hcw)]
      have hinner := hflawless.tail
      have hleft := hp r _ _ (Nat.lt_of_succ_lt h') rfl hinner.left (hQ.of_rest _ hrest)
      refine (hleft.append ?_).cons w
      exact ih _ (Nat.lt_succ_of_le (Parsed.length_rest_le _)) _ _ _ hleft.rest hinner.right hrest
    · next hcw =>
      rw [if_neg hcw] at hrest ⊢
      rw [if_neg (by rwa [hat])]
      exact .done

theorem Through.commaTail (hc : Steady Fenced vs c) (hp : Through Fenced vs p q) :
    Through Fenced vs (commaTail c p) (commaTail c q) := by
  refine through_of_shorter fun ws ih => ?_
  rintro _ h h' rfl hflawless hrest
  cases ws with
  | nil => exact absurd (Parsed.rest_eq_nil _) hrest.ne_nil
  | cons w r =>
    rw [List.cons_append] at h'
    change Parsed.Extends vs _ (Rule.commaTail c q (w :: (r ++ vs)) h')
    unfold Rule.commaTail at hflawless hrest ⊢
    -- the conditions at the comma and behind it come out the same with more words behind
    split at hflawless
    · next hw =>
      rw [if_pos hw] at hrest ⊢
      rw [if_pos hw]
      split at hflawless
      · next hcr =>
        rw [if_pos hcr] at hrest ⊢
        have hinner := hflawless.tail
        have hmiddle : Fenced (p r (Nat.lt_of_succ_lt h)).rest := rising_fenced.of_rest _ hrest
        have hat := hc r (rising_fenced.of_rest _ hmiddle)
        rw [if_pos (hat.trans hcr)]
        have hleft := hp r _ _ (Nat.lt_of_succ_lt h') rfl hinner.left hmiddle
        refine (hleft.append ?_).cons w
        exact ih _ (Nat.lt_succ_of_le (Parsed.length_rest_le _)) _ _ _ hleft.rest hinner.right hrest
      · next hcr =>
        rw [if_neg hcr] at hrest ⊢
        rw [if_neg (by rwa [hc r hrest])]
        exact .take w r
    · next hw =>
      rw [if_neg hw] at hrest ⊢
      rw [if_neg hw]
      exact .done

theorem Through.commaList (hc : Steady Fenced vs c) (hp : Through Fenced vs p q) :
    Through Fenced vs (commaList c p) (commaList c q) :=
  (hp.seq rising_fenced (hp.commaTail hc)).optional rising_fenced hc

end Rule

/-! ## conditions -/

section

variable {ks : List Kind} {vs : List Word}

/-- Two words are asked for, of which the first is no closing mark. -/
theorem steady_pair {a b : List Word → Bool} (ha : Near a) (hb : Near b)
    (hfirst : ∀ us, Before (fences ++ ks) us → a us = false)
    (hsecond : Before ks vs → b vs = b []) :
    Steady (Shut ks vs) vs fun ws => a ws && b ws.tail := by
  rintro ws hws
  rcases ws with _ | ⟨w, _ | ⟨v, r⟩⟩
  · have hbefore : Before ks vs := hws.resolve_right fun h => h.ne_nil rfl
    have hvs := hfirst vs (hbefore.mono (List.subset_append_right _ _))
    have hnil := hfirst [] fun _ h => nomatch h
    simp [hvs, hnil]
  · show (a (w :: vs) && b vs) = (a [w] && b [])
    obtain hbefore | ⟨u, hu, hfence⟩ := hws
    · rw [ha w vs [], hsecond hbefore]
    · obtain rfl := List.mem_singleton.1 hu
      have hmark : u.kind ∈ fences ++ ks := List.mem_append_left _ hfence
      rw [hfirst _ (before_cons hmark vs), hfirst _ (before_cons hmark [])]
      rfl
  · show (a (w :: v :: (r ++ vs)) && b (v :: (r ++ vs))) = (a (w :: v :: r) && b (v :: r))
    rw [ha w _ (v :: r), hb v _ r]

/-- A label does not reach across a closing mark. -/
theorem steady_labelLength (k : Nat) : Steady Fenced vs fun ws => labelLength ws == k := by
  rintro ws ⟨w, hw, hfence⟩
  have hk : w.kind ≠ .identifier := fun h => absurd (h ▸ hfence) (by decide)
  rcases ws with _ | ⟨u, _ | ⟨v, _ | ⟨x, r⟩⟩⟩
  · cases hw
  · obtain rfl := List.mem_singleton.1 hw
    simp [labelLength, atPair, at?, kind?, hk]
  · have hpair : ¬(u.kind = .identifier ∧ v.kind = .identifier) := by
      rintro ⟨hu, hv⟩
      simp only [List.mem_cons, List.not_mem_nil, or_false] at hw
      obtain rfl | rfl := hw
      · exact hk hu
      · exact hk hv
    simp [labelLength, atPair, at?, kind?, hpair]
  · simp [labelLength, atPair, at?, kind?]

theorem steady_at? {k : Kind} (hk : k ∉ ks) : Steady (Shut ks vs) vs (at? k) :=
  (near_at? k).shut fun hvs => at?_of_before hvs hk

theorem atAny_of_before {ls : List Kind} (h : Before ks vs) (hls : ∀ k ∈ ls, k ∉ ks) :
    atAny ls vs = false := by
  cases vs with
  | nil => rfl
  | cons w r =>
    have hw : w.kind ∉ ls := fun hmem => hls _ hmem (h w rfl)
    simp [atAny, kind?, hw]

theorem steady_atAny {ls : List Kind} (hls : ∀ k ∈ ls, k ∉ ks) :
    Steady (Shut ks vs) vs (atAny ls) :=
  (near_atAny ls).shut fun hvs => atAny_of_before hvs hls

theorem atName_of_before {names : List String} (h : Before ks vs) (hk : .identifier ∉ ks) :
    atName names vs = false := by
  cases vs with
  | nil => rfl
  | cons w r =>
    have hw : w.kind ≠ .identifier := fun hmem => hk (hmem ▸ h w rfl)
    simp [atName, hw]

theorem steady_atName {names : List String} (hk : .identifier ∉ ks) :
    Steady (Shut ks vs) vs (atName names) :=
  (near_atName names).shut fun hvs => atName_of_before hvs hk

theorem atJoinedParen_of_before (h : Before ks vs) (hk : .openParen ∉ ks) :
    atJoinedParen vs = false := by
  rw [atJoinedParen, at?_of_before h hk]
  rfl

theorem steady_atEffect (hthrows : .kwThrows ∉ ks) (hrethrows : .kwRethrows ∉ ks)
    (hk : .identifier ∉ ks) : Steady (Shut ks vs) vs atEffect :=
  near_atEffect.shut fun hvs => atEffect_of_before hvs hthrows hrethrows hk

end

/-! ## prefixes -/

/-- Kinds of words that may stand behind a type before it has its suffixes. -/
def followers : List Kind := .question :: .bang :: .customOperator :: closers

theorem closers_subset : closers ⊆ followers := by decide

section

variable {vs : List Word}

theorem steady_atOwnership : Steady (Shut followers vs) vs atOwnership := by
  refine near_atOwnership.shut fun hvs => ?_
  rw [atOwnership, at?_of_before hvs (by decide), atName_of_before hvs (by decide)]
  rfl

theorem steady_atTypeAttribute : Steady (Shut followers vs) vs atTypeAttribute := by
  refine near_atTypeAttribute.shut fun hvs => ?_
  rw [atTypeAttribute, at?_of_before hvs (by decide), atOwnership,
    at?_of_before hvs (by decide), atName_of_before hvs (by decide)]
  rfl

theorem steady_atConstraint : Steady (Shut followers vs) vs atConstraint :=
  steady_pair (near_atName _) (near_atAny _) (fun _ h => atName_of_before h (by decide))
    fun hvs => atAny_of_before hvs (by decide)

end

/-! ## attributes and effects -/

section

variable {n m : Nat} {vs : List Word}

theorem through_group : Through Fenced vs (group : Rule n) (group : Rule m) := by
  rintro ws _ h h' rfl - hrest
  exact extends_groupFrom 0 hrest.ne_nil

theorem through_attributeArgument :
    Through Fenced vs (attributeArgument : Rule n) (attributeArgument : Rule m) :=
  ((through_group.ifAt rising_fenced (near_atAny _).fenced through_bump).many rising_fenced
    (near_atOther _).fenced _ _).node _

theorem sealed_attributeArguments {Q : List Word → Prop} :
    Sealed Q vs (attributeArguments : Rule n) (attributeArguments : Rule m) :=
  (through_bump.close ((through_attributeArgument.commaList (near_atOther _).fenced).close
    (sealed_expect (by decide) _))).node _

theorem through_effect : Through Fenced vs (effect : Rule n) (effect : Rule m) :=
  (through_bump.seq rising_fenced (through_group.optional rising_fenced
    near_atJoinedParen.fenced)).ifAt rising_fenced (near_at? _).fenced through_bump

theorem through_effectSpecifiers :
    Through Fenced vs (effectSpecifiers : Rule n) (effectSpecifiers : Rule m) :=
  ((through_effect.many rising_fenced near_atEffect.fenced _ _).node _).optional rising_fenced
    near_atEffect.fenced

theorem through_label : Through Fenced vs (label : Rule n) (label : Rule m) := by
  have htwo : Through Fenced vs (bump >> bump : Rule n) (bump >> bump : Rule m) :=
    through_bump.seq rising_fenced through_bump
  exact htwo.ifAt rising_fenced (steady_labelLength 2)
    ((through_bump.seq rising_fenced htwo).optional rising_fenced (steady_labelLength 3))

theorem through_attributeName :
    Through (Shut closers vs) vs (attributeName : Rule n) (attributeName : Rule m) := by
  have hdot : Steady (Shut closers vs) vs (atPair .dot .identifier) :=
    steady_pair (near_at? _) (near_at? _) (fun _ h => at?_of_before h (by decide))
      fun hvs => at?_of_before hvs (by decide)
  have hnames : Through (Shut closers vs) vs
      (bump >> whileAt (atPair .dot .identifier) bump : Rule n)
      (bump >> whileAt (atPair .dot .identifier) bump : Rule m) :=
    through_bump.seq (rising_shut _ _) (through_bump.whileAt (rising_shut _ _) rfl hdot)
  refine Through.node ?_ _
  rintro ws _ h h' rfl hflawless hrest
  cases ws with
  | nil => exact hflawless.clean.1.elim
  | cons w r => exact hnames (w :: r) _ h h' rfl hflawless hrest

theorem through_oneAttribute :
    Through (Shut closers vs) vs (oneAttribute : Rule n) (oneAttribute : Rule m) := by
  have hjoined : Steady (Shut closers vs) vs atJoinedParen :=
    near_atJoinedParen.shut fun hvs => atJoinedParen_of_before hvs (by decide)
  exact (through_bump.seq (rising_shut _ _) (through_attributeName.seq (rising_shut _ _)
    (sealed_attributeArguments.through.optional (rising_shut _ _) hjoined))).node _

theorem through_attributeList :
    Through (Shut closers vs) vs (attributeList : Rule n) (attributeList : Rule m) :=
  ((through_oneAttribute.many (rising_shut _ _) (steady_at? (by decide)) _ _).node _).optional
    (rising_shut _ _) (steady_at? (by decide))

theorem through_typeAttributes :
    Through (Shut closers vs) vs (typeAttributes : Rule n) (typeAttributes : Rule m) := by
  have hownership : Steady (Shut closers vs) vs atOwnership :=
    steady_atOwnership.mono fun _ h => h.mono closers_subset
  exact (through_attributeList.ifAt (rising_shut _ _) (steady_at? (by decide)) through_bump).seq
    (rising_shut _ _) ((through_done.whileAt (rising_shut _ _) rfl hownership).seq
      (rising_shut _ _) through_attributeList)

end

/-! ## types inside brackets -/

section

variable {n m : Nat} {Q : List Word → Prop} {vs : List Word} {inside : Rule n} {inside' : Rule m}
  (hin : Through Fenced vs inside inside')

include hin

theorem sealed_genericArguments :
    Sealed Q vs (genericArguments inside) (genericArguments inside') :=
  (through_bump.close ((hin.commaList near_atTypeStart.fenced).close
    (sealed_expect (by decide) _))).node _

theorem through_tupleElement : Through Fenced vs (tupleElement inside) (tupleElement inside') :=
  (through_label.seq rising_fenced ((hin.ifAt rising_fenced near_atTypeStart.fenced
    (through_fault _ _ _)).seq rising_fenced
      (through_bump.optional rising_fenced (near_at? _).fenced))).node _

theorem sealed_elements :
    Sealed Q vs
      (commaList (atOther [.closeParen]) (tupleElement inside) >>
        expect .closeParen .unclosedTupleType)
      (commaList (atOther [.closeParen]) (tupleElement inside') >>
        expect .closeParen .unclosedTupleType) :=
  ((through_tupleElement hin).commaList (near_atOther _).fenced).close
    (sealed_expect (by decide) _)

theorem through_pathSegment :
    Through (Shut followers vs) vs (pathSegment inside) (pathSegment inside') :=
  (((sealed_genericArguments hin).through.optional (rising_shut _ _)
    (steady_at? (by decide))).after).node _

theorem through_path : Through (Shut followers vs) vs (path inside) (path inside') := by
  have htail : Steady (Shut followers vs) vs atPathTail :=
    steady_pair (near_at? _) (near_atAny _) (fun _ h => at?_of_before h (by decide))
      fun hvs => atAny_of_before hvs (by decide)
  exact ((through_pathSegment hin).seq (rising_shut _ _)
    ((through_pathSegment hin).whileAt (rising_shut _ _) rfl htail)).node _

theorem through_collectionType :
    Through Q vs (collectionType inside) (collectionType inside') := by
  have hclose : Sealed Q vs (expect .closeBracket .unclosedCollectionType : Rule n)
      (expect .closeBracket .unclosedCollectionType : Rule m) := sealed_expect (by decide) _
  have hvalue : Sealed Q vs (bump >> (inside >> expect .closeBracket .unclosedCollectionType))
      (bump >> (inside' >> expect .closeBracket .unclosedCollectionType)) :=
    through_bump.close (hin.close hclose)
  refine through_onWord fun w r h h' hflawless hrest => ?_
  dsimp only at hflawless hrest ⊢
  have hfirst : Flawless (inside r h).sketches := by
    split at hflawless <;> exact hflawless.inside.tail.left
  have hfenced : Fenced (inside r h).rest := by
    split at hflawless
    · exact hvalue.fenced _ _ hflawless.inside.tail.right
    · exact hclose.fenced _ _ hflawless.inside.tail.right
  have helement := hin r _ h h' rfl hfirst hfenced
  have hat : at? .colon (inside' (r ++ vs) h').rest = at? .colon (inside r h).rest := by
    rw [helement.rest, (near_at? _).fenced _ hfenced]
  rw [hat]
  split
  · next hcolon =>
    rw [if_pos hcolon] at hflawless hrest
    have htail := hflawless.inside.tail.right
    exact ((helement.append (hvalue.through _ _ _ _ helement.rest htail hrest)).cons w).node _
  · next hcolon =>
    rw [if_neg hcolon] at hflawless hrest
    have htail := hflawless.inside.tail.right
    exact ((helement.append (hclose.through _ _ _ _ helement.rest htail hrest)).cons w).node _

end

/-! ## types -/

section

variable {n m : Nat} {vs : List Word} {inside : Rule n} {inside' : Rule m}
  (hin : Through (Shut closers vs) vs inside inside')

theorem flawless_of_wrapSuffixes {ss : List Sketch} {ws : List Word}
    (h : Flawless (wrapSuffixes ss ws).1) : Flawless ss := by
  fun_induction wrapSuffixes ss ws with
  | case1 => exact h
  | case2 ss w r k _ ih => exact (ih h).inside.left
  | case3 => exact h

include hin

theorem Rule.Through.fenced : Through Fenced vs inside inside' := hin.mono fun _ h => .inr h

theorem sealed_functionTypeTail :
    Sealed (Shut closers vs) vs (functionTypeTail inside) (functionTypeTail inside') :=
  through_effectSpecifiers.close ((sealed_expect (by decide) _).seq (rising_shut _ _) hin)

/-- Parentheses are the same before suffixes, unless they are the parameters of a function, whose
result takes these. -/
theorem throughAt_tupleOrFunctionType {ws : List Word} (h : ws.length < n + 1)
    (h' : (ws ++ vs).length < m + 1)
    (hflawless : Flawless (tupleOrFunctionType inside ws h).sketches)
    (hrest : Shut followers vs (tupleOrFunctionType inside ws h).rest)
    (hfunction : ∀ ps, (tupleOrFunctionType inside ws h).sketches = [.node .typeFunction ps] →
      Shut closers vs (tupleOrFunctionType inside ws h).rest) :
    (tupleOrFunctionType inside ws h).Extends vs (tupleOrFunctionType inside' (ws ++ vs) h') := by
  cases ws with
  | nil => exact absurd List.mem_cons_self hflawless.gapless
  | cons w r =>
    have helements : Sealed (fun _ => True) vs _ _ := sealed_elements hin.fenced
    rw [List.cons_append] at h'
    change Parsed.Extends vs _ (tupleOrFunctionType inside' (w :: (r ++ vs)) h')
    have hr := Nat.lt_of_succ_lt_succ h
    have hr' := Nat.lt_of_succ_lt_succ h'
    unfold tupleOrFunctionType onWord at hflawless hrest hfunction ⊢
    dsimp only at hflawless hrest hfunction ⊢
    generalize (commaList (atOther [.closeParen]) (tupleElement inside) >>
      expect .closeParen .unclosedTupleType : Rule n) = p at helements hflawless hrest hfunction ⊢
    generalize (commaList (atOther [.closeParen]) (tupleElement inside') >>
      expect .closeParen .unclosedTupleType : Rule m) = q at helements hflawless hrest hfunction ⊢
    have hfirst : Flawless (p r hr).sketches := by
      split at hflawless
      · exact hflawless.inside.left.inside.tail
      · exact hflawless.inside.tail
    have hinner := helements.through r _ hr hr' rfl hfirst True.intro
    have htuple := (hinner.cons w).node .typeTuple
    have hshut : Shut followers vs (p r hr).rest := by
      split at hrest
      · exact (rising_shut _ _).of_rest _ hrest
      · exact hrest
    -- `vs` starts with no effect and no arrow, so the parentheses stay what they were
    have hat : (atEffect (q (r ++ vs) hr').rest || at? .arrow (q (r ++ vs) hr').rest) =
        (atEffect (p r hr).rest || at? .arrow (p r hr).rest) := by
      rw [hinner.rest, steady_atEffect (by decide) (by decide) (by decide) _ hshut,
        steady_at? (by decide) _ hshut]
    rw [hat]
    split
    · next hcw =>
      rw [if_pos hcw] at hflawless hfunction
      exact (htuple.append ((sealed_functionTypeTail hin).through _ _ _ _ hinner.rest
        hflawless.inside.right (hfunction _ rfl))).node _
    · exact htuple

/-- A type without prefixes and suffixes is the same before suffixes, unless it is that of a
function. -/
theorem throughAt_primaryType {ws : List Word} (h : ws.length < n + 1)
    (h' : (ws ++ vs).length < m + 1) (hflawless : Flawless (primaryType inside ws h).sketches)
    (hrest : Shut followers vs (primaryType inside ws h).rest)
    (hfunction : ∀ ps, (primaryType inside ws h).sketches = [.node .typeFunction ps] →
      Shut closers vs (primaryType inside ws h).rest) :
    (primaryType inside ws h).Extends vs (primaryType inside' (ws ++ vs) h') := by
  have hnone : Through (Shut followers vs) vs (gap >> fault .noType : Rule (n + 1))
      (gap >> fault .noType : Rule (m + 1)) :=
    fun _ _ _ _ _ hflawless _ => hflawless.clean.2.1.elim
  have hbracket : Steady (Shut followers vs) vs (at? .openBracket) := steady_at? (by decide)
  have hname : Steady (Shut followers vs) vs
      (atAny [.identifier, .kwSelfType, .kwClass, .kwProtocol]) := steady_atAny (by decide)
  have hothers := (through_collectionType hin.fenced).ifAt (rising_shut _ _) hbracket
    ((through_path hin.fenced).ifAt (rising_shut _ _) hname hnone)
  have hat : at? .openParen (ws ++ vs) = at? .openParen ws :=
    steady_at? (by decide) ws ((rising_shut _ _).of_rest _ hrest)
  unfold primaryType at hflawless hrest hfunction ⊢
  unfold Rule.ifAt at hflawless hrest hfunction ⊢
  rw [hat]
  split
  · next hcw =>
    rw [if_pos hcw] at hflawless hrest hfunction
    exact throughAt_tupleOrFunctionType hin h h' hflawless hrest hfunction
  · next hcw =>
    rw [if_neg hcw] at hflawless hrest
    exact hothers ws _ h h' rfl hflawless hrest

omit hin in
theorem shut_of_wrapSuffixes {ks : List Kind} {ss : List Sketch} {ws : List Word}
    (h : Shut ks vs (wrapSuffixes ss ws).2) : Shut ks vs ws := by
  fun_induction wrapSuffixes ss ws with
  | case1 => exact h
  | case2 ss w r k _ ih => exact rising_shut _ _ [w] r (ih h)
  | case3 => exact h

omit hin in
/-- No suffix stands before a closing mark. -/
theorem wrapSuffixes_shut {ss : List Sketch} {ws : List Word}
    (h : Shut closers vs (wrapSuffixes ss ws).2) :
    wrapSuffixes ss (ws ++ vs) = ((wrapSuffixes ss ws).1, (wrapSuffixes ss ws).2 ++ vs) := by
  fun_induction wrapSuffixes ss ws with
  | case1 =>
    have hvs : Before closers vs := h.resolve_right fun h => h.ne_nil rfl
    exact wrapSuffixes_of_none _ (suffixKind?_of_before hvs (by decide) (by decide))
  | case2 ss w r k hk ih =>
    have hk' : suffixKind? (w :: (r ++ vs)) = some k := hk
    rw [List.cons_append, wrapSuffixes, hk']
    exact ih h
  | case3 ss w r hk =>
    have hk' : suffixKind? (w :: (r ++ vs)) = none := hk
    rw [List.cons_append, wrapSuffixes, hk']

theorem through_suffixedType :
    Through (Shut closers vs) vs (suffixedType inside) (suffixedType inside') := by
  rintro ws _ h h' rfl hflawless hrest
  have hprest : Shut closers vs (primaryType inside ws h).rest := shut_of_wrapSuffixes hrest
  have hprimary := throughAt_primaryType hin h h' (flawless_of_wrapSuffixes hflawless)
    (hprest.mono closers_subset) fun _ _ => hprest
  have hwrap := wrapSuffixes_shut hrest
  constructor
  · show (wrapSuffixes (primaryType inside' (ws ++ vs) h').sketches
      (primaryType inside' (ws ++ vs) h').rest).1 = _
    rw [hprimary.sketches, hprimary.rest, hwrap]
    rfl
  · show (wrapSuffixes (primaryType inside' (ws ++ vs) h').sketches
      (primaryType inside' (ws ++ vs) h').rest).2 = _
    rw [hprimary.sketches, hprimary.rest, hwrap]
    rfl

theorem through_composedType :
    Through (Shut closers vs) vs (composedType inside) (composedType inside') := by
  have hampersand : Steady (Shut closers vs) vs (at? .ampersand) := steady_at? (by decide)
  have hothers := (through_suffixedType hin).whileAt (rising_shut _ _) rfl hampersand
  rintro ws _ h h' rfl hflawless hrest
  unfold composedType at hflawless hrest ⊢
  dsimp only at hflawless hrest ⊢
  have hfirst : Flawless (suffixedType inside ws h).sketches := by
    split at hflawless
    · exact hflawless.inside.left
    · exact hflawless
  have hshut : Shut closers vs (suffixedType inside ws h).rest := by
    split at hrest
    · exact (rising_shut _ _).of_rest _ hrest
    · exact hrest
  have hleft := through_suffixedType hin ws _ h h' rfl hfirst hshut
  have hat : at? .ampersand (suffixedType inside' (ws ++ vs) h').rest =
      at? .ampersand (suffixedType inside ws h).rest := by
    rw [hleft.rest, hampersand _ hshut]
  rw [hat]
  split
  · next hcw =>
    rw [if_pos hcw] at hflawless hrest
    exact (hleft.append (hothers _ _ _ _ hleft.rest hflawless.inside.right hrest)).node _
  · exact hleft

theorem through_attributedType :
    Through (Shut closers vs) vs (attributedType inside) (attributedType inside') := by
  refine Through.node ?_ _
  rintro ws _ h h' rfl hflawless hrest
  have hshut : Shut followers vs ws := ((rising_shut _ _).of_rest _ hrest).mono closers_subset
  have hat := steady_atTypeAttribute ws hshut
  unfold Rule.advancing at hflawless hrest ⊢
  split at hflawless
  · next hcw =>
    rw [dif_pos hcw] at hrest
    rw [dif_pos hcw, dif_pos (hat.trans hcw)]
    have hleft := through_typeAttributes ws _ h h' rfl hflawless.left
      ((rising_shut _ _).of_rest _ hrest)
    exact hleft.append (hin _ _ _ _ hleft.rest hflawless.right hrest)
  · next hcw =>
    rw [dif_neg hcw] at hrest
    rw [dif_neg hcw, dif_neg (by rwa [hat])]
    exact through_typeAttributes ws _ h h' rfl hflawless hrest

theorem through_typeWith :
    Through (Shut closers vs) vs (typeWith inside) (typeWith inside') := by
  have hconstraint : Steady (Shut closers vs) vs atConstraint :=
    steady_atConstraint.mono fun _ h => h.mono closers_subset
  have hattribute : Steady (Shut closers vs) vs atTypeAttribute :=
    steady_atTypeAttribute.mono fun _ h => h.mono closers_subset
  exact ((hin.after.node _).ifAt (rising_shut _ _) (steady_atName (by decide))
    (hin.after.node _)).ifAt (rising_shut _ _) hconstraint
      ((through_attributedType hin).ifAt (rising_shut _ _) hattribute (through_composedType hin))

end

/-- A type is the same with more words behind, if it ends before a closing mark. -/
theorem through_type {n m : Nat} {vs : List Word} :
    Through (Shut closers vs) vs (type : Rule n) (type : Rule m) := by
  refine through_of_shorter fun ws ih => ?_
  rintro _ h h' rfl hflawless hrest
  have hin : Through (Shut closers vs) vs (fun r _ => typeFrom r : Rule ws.length)
      (fun r _ => typeFrom r : Rule (ws ++ vs).length) := by
    intro r r' hr hr'
    exact ih r hr r' (Nat.lt_trans hr h) (Nat.lt_trans hr' h')
  change Flawless (typeFrom ws).sketches at hflawless
  change Shut closers vs (typeFrom ws).rest at hrest
  change (typeFrom ws).Extends vs (typeFrom (ws ++ vs))
  rw [typeFrom] at hflawless hrest
  rw [typeFrom.eq_1 ws, typeFrom.eq_1 (ws ++ vs)]
  exact through_typeWith hin ws _ _ _ rfl hflawless hrest

end Grammar

end SwiftOutline

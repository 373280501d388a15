import SwiftOutline.Grammar.Type
import SwiftOutline.Proofs.Appended

/-!
# SwiftOutline.Proofs.Phrase

Which words a rule reads as which trees.

* `Parsed.Reads`, `Rule.Reads` — a rule finds no fault in some words, makes trees of the first ones
  and leaves the others; what reads one thing after the other reads both (`Reads.seq`);
* `separated` — phrases with commas between them, read by `commaList` if its element reads each
  phrase (`reads_commaList`);
* `IsType` — words that read as a type before every mark that closes or parts types;
* `IsPrimary` — the same for a type without prefixes, which a suffix may follow.

There is a lemma for every way in which a type is put together of others.
-/

namespace SwiftOutline

/-- A word as a tree. -/
def Word.tree (w : Word) : Tree := .token w.kind w.text

namespace Grammar

open Sketch (CleanAll cleanAll_append treesOfAll treesOfAll_append)

/-! ## reading -/

/-- No fault is found, and trees are made of all words but some. -/
structure Parsed.Reads {ws : List Word} (p : Parsed ws) (ts : List Tree) (rest : List Word) :
    Prop where
  clean : CleanAll p.sketches
  trees : treesOfAll p.sketches = ts
  rest : p.rest = rest

namespace Parsed.Reads

variable {ws us vs : List Word} {ts ts' : List Tree}

theorem append {p : Parsed ws} {q : Parsed p.rest} (hp : p.Reads ts us) (hq : q.Reads ts' vs) :
    (p.append q).Reads (ts ++ ts') vs where
  clean := cleanAll_append.2 ⟨hp.clean, hq.clean⟩
  trees := (treesOfAll_append _ _).trans (congr (congrArg _ hp.trees) hq.trees)
  rest := hq.rest

theorem cons {p : Parsed ws} (hp : p.Reads ts vs) (w : Word) :
    (Parsed.cons w p).Reads (w.tree :: ts) vs where
  clean := ⟨True.intro, hp.clean⟩
  trees := congrArg (w.tree :: ·) hp.trees
  rest := hp.rest

theorem node {p : Parsed ws} (hp : p.Reads ts vs) (k : Kind) :
    (Parsed.node k p).Reads [.node k ts] vs where
  clean := ⟨hp.clean, True.intro⟩
  trees := congrArg (fun ts => [Tree.node k ts]) hp.trees
  rest := hp.rest

end Parsed.Reads

namespace Rule

variable {n : Nat} {p q : Rule n} {c : List Word → Bool} {ws us vs r : List Word}
  {ts ts' : List Tree} {w : Word}

/-- A rule reads the first of some words as trees and leaves the others. -/
def Reads (p : Rule n) (ws : List Word) (ts : List Tree) (rest : List Word) : Prop :=
  ∀ h, (p ws h).Reads ts rest

theorem reads_done (ws : List Word) : Reads (done : Rule n) ws [] ws :=
  fun _ => ⟨True.intro, rfl, rfl⟩

theorem reads_bump (w : Word) (r : List Word) : Reads (bump : Rule n) (w :: r) [w.tree] r :=
  fun _ => ⟨⟨True.intro, True.intro⟩, rfl, rfl⟩

theorem Reads.seq (hp : Reads p ws ts us) (hq : Reads q us ts' vs) :
    Reads (p >> q) ws (ts ++ ts') vs := by
  intro h
  have hfirst := hp h
  obtain rfl := hfirst.rest
  exact hfirst.append (hq _)

theorem Reads.node (hp : Reads p ws ts vs) (k : Kind) :
    Reads (Rule.node k p) ws [.node k ts] vs := fun h => (hp h).node k

theorem Reads.ifAt (hp : Reads p ws ts vs) (hc : c ws = true) :
    Reads (Rule.ifAt c p q) ws ts vs := by
  intro h
  unfold Rule.ifAt
  rw [if_pos hc]
  exact hp h

theorem Reads.ifAt_not (hq : Reads q ws ts vs) (hc : c ws = false) :
    Reads (Rule.ifAt c p q) ws ts vs := by
  intro h
  unfold Rule.ifAt
  rw [hc, if_neg Bool.false_ne_true]
  exact hq h

theorem Reads.optional (hp : Reads p ws ts vs) (hc : c ws = true) :
    Reads (Rule.optional c p) ws ts vs := hp.ifAt hc

theorem reads_optional_not (hc : c ws = false) : Reads (optional c p) ws [] ws :=
  (reads_done ws).ifAt_not hc

theorem reads_expect {k : Kind} (hk : w.kind = k) (f : Fault) (r : List Word) :
    Reads (expect k f : Rule n) (w :: r) [w.tree] r :=
  (reads_bump w r).ifAt (by simp [at?, kind?, hk])

theorem Reads.onWord {p : (w : Word) → (r : List Word) → r.length < n → Parsed (w :: r)}
    (hp : ∀ h, (p w r h).Reads ts vs) : Reads (Rule.onWord p) (w :: r) ts vs := fun _ => hp _

theorem Reads.after (hp : Reads p r ts vs) : Reads (Rule.after p) (w :: r) (w.tree :: ts) vs :=
  .onWord fun h => (hp h).cons w

theorem Reads.advancing {p : Rule (n + 1)} (hp : Reads p ws ts us) (ha : Advances c p)
    (hc : c ws = true) (hq : Reads q us ts' vs) : Reads (advancing c p ha q) ws (ts ++ ts') vs := by
  intro h
  have hfirst := hp h
  obtain rfl := hfirst.rest
  unfold Rule.advancing
  rw [dif_pos hc]
  exact hfirst.append (hq _)

/-! ## loops -/

theorem Reads.many (hp : Reads p ws ts us) (ha : Advances c p) (hc : c ws = true)
    (hq : Reads (Rule.many c p ha) us ts' vs) : Reads (Rule.many c p ha) ws (ts ++ ts') vs := by
  intro h
  have hfirst := hp h
  obtain rfl := hfirst.rest
  unfold Rule.many
  rw [dif_pos hc]
  exact hfirst.append (hq _)

theorem reads_many_not (ha : Advances c p) (hc : c ws = false) :
    Reads (Rule.many c p ha) ws [] ws := by
  intro h
  unfold Rule.many
  rw [dif_neg (by rw [hc]; exact Bool.false_ne_true)]
  exact reads_done ws h

theorem Reads.whileAt (hp : Reads p r ts us) (hc : c (w :: r) = true)
    (hq : Reads (Rule.whileAt c p) us ts' vs) :
    Reads (Rule.whileAt c p) (w :: r) (w.tree :: (ts ++ ts')) vs := by
  intro h
  have hfirst := hp (Nat.lt_of_succ_lt h)
  obtain rfl := hfirst.rest
  unfold Rule.whileAt
  rw [if_pos hc]
  exact (hfirst.append (hq _)).cons w

theorem whileAt_not (hc : c ws = false) (h : ws.length < n) :
    Rule.whileAt c p ws h = .done ws := by
  cases ws with
  | nil =>
    unfold Rule.whileAt
    rfl
  | cons w r =>
    unfold Rule.whileAt
    rw [hc, if_neg Bool.false_ne_true]

theorem reads_whileAt_not (hc : c ws = false) : Reads (Rule.whileAt c p) ws [] ws := by
  intro h
  rw [whileAt_not hc]
  exact reads_done ws h

theorem Reads.commaTail (hp : Reads p r ts us) (hw : w.kind = .comma) (hc : c r = true)
    (hq : Reads (Rule.commaTail c p) us ts' vs) :
    Reads (Rule.commaTail c p) (w :: r) (w.tree :: (ts ++ ts')) vs := by
  intro h
  have hfirst := hp (Nat.lt_of_succ_lt h)
  obtain rfl := hfirst.rest
  unfold Rule.commaTail
  rw [if_pos hw, if_pos hc]
  exact (hfirst.append (hq _)).cons w

theorem reads_commaTail_not (hw : w.kind ≠ .comma) :
    Reads (Rule.commaTail c p) (w :: r) [] (w :: r) := by
  intro h
  unfold Rule.commaTail
  rw [if_neg hw]
  exact reads_done _ h

end Rule

/-! ## lists with commas -/

/-- A comma that is joined to the word before it. -/
def comma : Word := ⟨.comma, ",", true, false⟩

/-- Phrases with commas between them. -/
def separated : List (List Word) → List Word
  | [] => []
  | ws :: wss => ws ++ wss.flatMap (comma :: ·)

/-- Trees with commas between them. -/
def separatedTrees : List Tree → List Tree
  | [] => []
  | t :: ts => t :: ts.flatMap fun u => [comma.tree, u]

/-- What stands there starts with a word of some kinds, or is nothing. -/
def Before (ks : List Kind) (vs : List Word) : Prop := ∀ w ∈ vs.head?, w.kind ∈ ks

theorem before_cons {ks : List Kind} {w : Word} (h : w.kind ∈ ks) (vs : List Word) :
    Before ks (w :: vs) := by
  rintro _ ⟨⟩
  exact h

theorem Before.mono {ks ls : List Kind} {vs : List Word} (h : Before ks vs) (hsub : ks ⊆ ls) :
    Before ls vs := fun w hw => hsub (h w hw)

section

open Rule

variable {n : Nat} {c : List Word → Bool} {element : Rule n} {wss : List (List Word)}
  {ts : List Tree} {w : Word} {r : List Word}

/-- An element of a list reads a phrase as a tree before a comma and before what closes the
list. -/
def ReadsItem (c : List Word → Bool) (element : Rule n) (close : Kind) (ws : List Word) (t : Tree) :
    Prop :=
  ∀ r, Before [.comma, close] r → c (ws ++ r) = true ∧ Reads element (ws ++ r) [t] r

/-- Behind an element of a list stands a comma, or what closes the list. -/
theorem before_commas (w : Word) (r : List Word) (wss : List (List Word)) :
    Before [.comma, w.kind] (wss.flatMap (comma :: ·) ++ w :: r) := by
  cases wss with
  | nil => exact before_cons (by simp) r
  | cons vs vss => exact before_cons (by simp [comma]) _

theorem reads_commaTail (hitems : List.Forall₂ (ReadsItem c element w.kind) wss ts)
    (hw : w.kind ≠ .comma) (r : List Word) :
    Reads (commaTail c element) (wss.flatMap (comma :: ·) ++ w :: r)
      (ts.flatMap fun u => [comma.tree, u]) (w :: r) := by
  induction hitems with
  | nil => exact reads_commaTail_not hw
  | @cons ws t wss ts hitem _ ih =>
    obtain ⟨hc, helement⟩ := hitem _ (before_commas w r wss)
    rw [List.flatMap_cons, List.cons_append, List.cons_append, List.append_assoc]
    exact helement.commaTail rfl hc ih

/-- A list reads phrases with commas between them up to what closes it. -/
theorem reads_commaList (hitems : List.Forall₂ (ReadsItem c element w.kind) wss ts)
    (hw : w.kind ≠ .comma) (hc : c (w :: r) = false) :
    Reads (commaList c element) (separated wss ++ w :: r) (separatedTrees ts) (w :: r) := by
  cases hitems with
  | nil => exact reads_optional_not hc
  | @cons ws t wss ts hitem hitems =>
    obtain ⟨hfirst, helement⟩ := hitem _ (before_commas w r wss)
    rw [separated, List.append_assoc]
    exact (helement.seq (reads_commaTail hitems hw r)).optional hfirst

end

/-! ## types -/

/-- What closes a type or parts it from another. -/
def closers : List Kind := [.closeParen, .closeBracket, .closeAngle, .comma, .colon]

/-- Words that read as a type before whatever closes it. -/
structure IsType (ws : List Word) (t : Tree) : Prop where
  isType : t.isType = true
  reads (vs : List Word) : Before closers vs → (typeFrom (ws ++ vs)).Reads [t] vs

section

open Rule

variable {n : Nat} {ws us vs r : List Word} {ts : List Tree} {t s : Tree} {w : Word} {k : Kind}

theorem reads_type (h : (typeFrom ws).Reads ts vs) : Reads (type : Rule n) ws ts vs := fun _ => h

theorem reads_typeFrom (h : Reads (typeWith (type : Rule ws.length)) ws ts vs) :
    (typeFrom ws).Reads ts vs := by
  rw [typeFrom]
  exact h _

theorem at?_of_before {ks : List Kind} (h : Before ks vs) (hk : k ∉ ks) : at? k vs = false := by
  cases vs with
  | nil => rfl
  | cons w r =>
    have hw : w.kind ≠ k := fun hw => hk (hw ▸ h w rfl)
    simp [at?, kind?, hw]

theorem suffixKind?_of_before {ks : List Kind} (h : Before ks vs) (hquestion : .question ∉ ks)
    (hbang : .bang ∉ ks) : suffixKind? vs = none := by
  unfold suffixKind?
  rw [at?_of_before h hquestion, at?_of_before h hbang]
  simp

/-! ### prefixes and suffixes -/

/-- A word that stands before a type and is no part of one itself. -/
def isPrefix (w : Word) : Bool :=
  w.kind == .atSign || w.kind == .kwInout ||
    w.kind == .identifier && ("some" :: "any" :: ownershipNames).contains w.text

section

variable {inside : Rule n}

theorem Rule.Reads.typeWith (h : Reads (composedType inside) (w :: r) ts vs)
    (hconstraint : atConstraint (w :: r) = false) (hattribute : atTypeAttribute (w :: r) = false) :
    Reads (typeWith inside) (w :: r) ts vs :=
  (h.ifAt_not hattribute).ifAt_not hconstraint

theorem atConstraint_of_plain (hw : isPrefix w = false) (r : List Word) :
    atConstraint (w :: r) = false := by
  simp [isPrefix, atConstraint, atName] at hw ⊢
  tauto

theorem atTypeAttribute_of_plain (hw : isPrefix w = false) (r : List Word) :
    atTypeAttribute (w :: r) = false := by
  simp [isPrefix, atTypeAttribute, atOwnership, at?, kind?, atName] at hw ⊢
  tauto

theorem Rule.Reads.composedType (h : Reads (suffixedType inside) ws ts vs)
    (hvs : at? .ampersand vs = false) : Reads (composedType inside) ws ts vs := by
  intro hn
  have hfirst := h hn
  have hrest : ¬at? .ampersand (Grammar.suffixedType inside ws hn).rest = true := by
    rw [hfirst.rest, hvs]
    exact Bool.false_ne_true
  unfold Grammar.composedType
  dsimp only
  rw [if_neg hrest]
  exact hfirst

theorem wrapSuffixes_of_none (ss : List Sketch) (hvs : suffixKind? vs = none) :
    wrapSuffixes ss vs = (ss, vs) := by
  cases vs with
  | nil => rfl
  | cons w r => rw [wrapSuffixes, hvs]

theorem Rule.Reads.suffixedType (h : Reads (primaryType inside) ws ts vs)
    (hvs : suffixKind? vs = none) : Reads (suffixedType inside) ws ts vs := by
  intro hn
  have hprimary := h hn
  have hwrap := wrapSuffixes_of_none (primaryType inside ws hn).sketches hvs
  rw [← hprimary.rest] at hwrap
  have hsketches : (Grammar.suffixedType inside ws hn).sketches =
      (primaryType inside ws hn).sketches := congrArg Prod.fst hwrap
  have hrest : (Grammar.suffixedType inside ws hn).rest =
      (primaryType inside ws hn).rest := congrArg Prod.snd hwrap
  exact ⟨hsketches ▸ hprimary.clean, hsketches ▸ hprimary.trees, hrest.trans hprimary.rest⟩

/-- A suffix wraps the type before it. -/
theorem Rule.Reads.suffixedType_of_suffix (h : Reads (primaryType inside) ws ts (w :: vs))
    (hk : suffixKind? (w :: vs) = some k) (hvs : suffixKind? vs = none) :
    Reads (Grammar.suffixedType inside) ws [.node k (ts ++ [w.tree])] vs := by
  intro hn
  have hprimary := h hn
  have hwrap : wrapSuffixes (primaryType inside ws hn).sketches (primaryType inside ws hn).rest =
      ([.node k ((primaryType inside ws hn).sketches ++ [.word w])], vs) := by
    rw [hprimary.rest, wrapSuffixes, hk]
    exact wrapSuffixes_of_none _ hvs
  have hsketches : (Grammar.suffixedType inside ws hn).sketches =
      [.node k ((primaryType inside ws hn).sketches ++ [.word w])] := congrArg Prod.fst hwrap
  refine ⟨?_, ?_, congrArg Prod.snd hwrap⟩
  · rw [hsketches]
    exact ⟨cleanAll_append.2 ⟨hprimary.clean, True.intro, True.intro⟩, True.intro⟩
  · rw [hsketches]
    show [Tree.node k (treesOfAll _)] = _
    rw [treesOfAll_append, hprimary.trees]
    rfl

end

/-- Words that read as a type without prefixes before whatever closes it, and before a suffix. -/
structure IsPrimary (ws : List Word) (t : Tree) : Prop where
  isType : t.isType = true
  plain : ∃ w r, ws = w :: r ∧ isPrefix w = false
  reads {n : Nat} (vs : List Word) : Before (.question :: .bang :: closers) vs →
    Reads (primaryType type : Rule (n + 1)) (ws ++ vs) [t] vs

theorem reads_typeFrom_of_suffixed
    (h : Reads (suffixedType (type : Rule (w :: r).length)) (w :: r) ts vs)
    (hw : isPrefix w = false) (hvs : Before closers vs) : (typeFrom (w :: r)).Reads ts vs :=
  Grammar.reads_typeFrom ((h.composedType (at?_of_before hvs (by decide))).typeWith
    (atConstraint_of_plain hw _) (atTypeAttribute_of_plain hw _))

theorem IsPrimary.toType (h : IsPrimary ws t) : IsType ws t where
  isType := h.isType
  reads vs hvs := by
    obtain ⟨w, r, rfl, hw⟩ := h.plain
    have hsuffix := suffixKind?_of_before hvs (by decide) (by decide)
    exact reads_typeFrom_of_suffixed ((h.reads vs (hvs.mono (by decide))).suffixedType hsuffix)
      hw hvs

/-- A type with a suffix. -/
theorem IsPrimary.suffixed (h : IsPrimary ws t) (hk : suffixKind? [w] = some k)
    (htype : k.isType = true) : IsType (ws ++ [w]) (.node k [t, w.tree]) where
  isType := htype
  reads vs hvs := by
    obtain ⟨v, r, rfl, hv⟩ := h.plain
    have hsuffix : suffixKind? (w :: vs) = some k := hk
    have hbefore : Before (.question :: .bang :: closers) (w :: vs) := by
      refine before_cons ?_ vs
      simp only [suffixKind?, at?, kind?] at hk
      grind
    rw [List.append_assoc]
    exact reads_typeFrom_of_suffixed ((h.reads (w :: vs) hbefore).suffixedType_of_suffix hsuffix
      (suffixKind?_of_before hvs (by decide) (by decide))) hv hvs

/-! ### what a type starts with -/

/-- The kinds of the words that a type starts with. -/
def typeStarts : List Kind :=
  [.identifier, .kwSelfType, .kwClass, .kwProtocol, .openParen, .openBracket, .atSign, .kwInout]

section

variable (h : ¬Grammar.atTypeStart ws = true)

include h

theorem atAny_of_not_start {ks : List Kind} (hks : ks ⊆ typeStarts) : atAny ks ws = false := by
  cases ws with
  | nil => rfl
  | cons w r =>
    by_contra hw
    refine h ?_
    simp only [Grammar.atTypeStart, atAny, kind?, List.head?_cons, Option.map_some,
      Option.any_some, Bool.not_eq_false, List.contains_iff_mem] at hw ⊢
    exact hks hw

theorem at?_of_not_start {k : Kind} (hk : k ∈ typeStarts) : at? k ws = false := by
  have hks : atAny [k] ws = false := atAny_of_not_start h (by simpa using hk)
  cases ws with
  | nil => rfl
  | cons w r => simpa [atAny, at?, kind?] using hks

theorem atName_of_not_start (names : List String) : atName names ws = false := by
  have hidentifier := at?_of_not_start h (k := .identifier) (by decide)
  cases ws with
  | nil => rfl
  | cons w r =>
    have hw : w.kind ≠ .identifier := by simpa [at?, kind?] using hidentifier
    simp [atName, hw]

end

/-- A type that is read without a fault starts where one may start. -/
theorem atTypeStart_of_clean (h : CleanAll (typeFrom ws).sketches) : atTypeStart ws = true := by
  by_contra hstart
  have hattribute : atTypeAttribute ws = false := by
    rw [atTypeAttribute, atOwnership, at?_of_not_start hstart (by decide),
      at?_of_not_start hstart (by decide), atName_of_not_start hstart]
    rfl
  have hconstraint : atConstraint ws = false := by
    rw [atConstraint, atName_of_not_start hstart]
    rfl
  rw [typeFrom] at h
  unfold typeWith Rule.ifAt at h
  rw [hconstraint, hattribute, if_neg Bool.false_ne_true, if_neg Bool.false_ne_true] at h
  have hsuffixed :
      CleanAll (suffixedType (type : Rule ws.length) ws (Nat.lt_succ_self _)).sketches := by
    unfold composedType at h
    dsimp only at h
    split at h
    · exact (cleanAll_append.1 h.1).1
    · exact h
  -- where no type starts there is a fault in its place
  have hprimary := cleanAll_of_wrapSuffixes hsuffixed
  unfold primaryType Rule.ifAt at hprimary
  rw [at?_of_not_start hstart (by decide), at?_of_not_start hstart (by decide),
    atAny_of_not_start hstart (by decide), if_neg Bool.false_ne_true, if_neg Bool.false_ne_true,
    if_neg Bool.false_ne_true] at hprimary
  exact hprimary.2.1

theorem IsType.atTypeStart (h : IsType ws t) (hvs : Before closers vs) :
    atTypeStart (ws ++ vs) = true := atTypeStart_of_clean (h.reads vs hvs).clean

/-! ### paths -/

/-- A type that stands between the angle brackets of a path. -/
theorem IsType.item (h : IsType ws t) :
    ReadsItem Grammar.atTypeStart (type : Rule n) .closeAngle ws t :=
  fun _ hr =>
    have hr := hr.mono (by decide)
    ⟨h.atTypeStart hr, reads_type (h.reads _ hr)⟩

/-- Words that read as a name of a path, with its arguments. -/
structure IsSegment (ws : List Word) (t : Tree) : Prop where
  plain : ∃ w r, ws = w :: r ∧ w.kind = .identifier ∧ isPrefix w = false
  reads {n : Nat} (vs : List Word) : at? .openAngle vs = false →
    Reads (pathSegment type : Rule (n + 1)) (ws ++ vs) [t] vs

theorem isSegment_name (hk : w.kind = .identifier) (hw : isPrefix w = false) :
    IsSegment [w] (.node .typePathSegment [w.tree]) where
  plain := ⟨w, [], rfl, hk, hw⟩
  reads _ hvs := (reads_optional_not hvs).after.node _

theorem isSegment_arguments {o c : Word} {wss : List (List Word)} (hk : w.kind = .identifier)
    (hw : isPrefix w = false) (ho : o.kind = .openAngle) (hc : c.kind = .closeAngle)
    (h : List.Forall₂ IsType wss ts) :
    IsSegment (w :: o :: (separated wss ++ [c])) (.node .typePathSegment [w.tree,
      .node .genericArgumentClause (o.tree :: (separatedTrees ts ++ [c.tree]))]) where
  plain := ⟨w, _, rfl, hk, hw⟩
  reads {n} vs _ := by
    have hitems : List.Forall₂ (ReadsItem Grammar.atTypeStart (type : Rule n) c.kind) wss ts := by
      rw [hc]
      exact h.imp fun _ _ hitem => hitem.item
    have hlist := reads_commaList (r := vs) hitems (by simp [hc])
      (by simp [Grammar.atTypeStart, atAny, kind?, hc])
    have hclause := ((reads_bump o _).seq
      (hlist.seq (reads_expect hc .unclosedGenericArguments vs))).node .genericArgumentClause
    have hsegment := ((hclause.optional (c := at? .openAngle) (by simp [at?, kind?, ho])).after
      (w := w)).node .typePathSegment
    simpa [pathSegment, genericArguments] using hsegment

theorem Rule.Reads.path {inside : Rule n} (h : Reads (path inside) (w :: r) ts vs)
    (hk : w.kind = .identifier) : Reads (primaryType inside) (w :: r) ts vs := by
  have hne {j : Kind} (hj : .identifier ≠ j) : at? j (w :: r) = false := by
    simp [at?, kind?, hk, hj]
  exact ((h.ifAt (by simp [atAny, kind?, hk])).ifAt_not (hne (by decide))).ifAt_not
    (hne (by decide))

theorem atPathTail_of_before {ks : List Kind} (h : Before ks vs) (hdot : .dot ∉ ks) :
    atPathTail vs = false := by
  rw [atPathTail, at?_of_before h hdot]
  rfl

/-- A path of one name. -/
theorem IsSegment.path (h : IsSegment ws s) : IsPrimary ws (.node .typePath [s]) where
  isType := rfl
  plain := by
    obtain ⟨w, r, rfl, -, hw⟩ := h.plain
    exact ⟨w, r, rfl, hw⟩
  reads {n} vs hvs := by
    obtain ⟨w, r, rfl, hk, -⟩ := h.plain
    have hpath : Reads (Grammar.path type : Rule (n + 1)) (w :: r ++ vs) [.node .typePath [s]] vs :=
      ((h.reads vs (at?_of_before hvs (by decide))).seq
        (reads_whileAt_not (atPathTail_of_before hvs (by decide)))).node .typePath
    exact Rule.Reads.path hpath hk

/-- A path of two names, the first one without arguments. -/
theorem IsSegment.qualified {m d : Word} (h : IsSegment ws s) (hm : m.kind = .identifier)
    (hplain : isPrefix m = false) (hd : d.kind = .dot) :
    IsPrimary (m :: d :: ws) (.node .typePath [.node .typePathSegment [m.tree], d.tree, s]) where
  isType := rfl
  plain := ⟨m, _, rfl, hplain⟩
  reads {n} vs hvs := by
    obtain ⟨w, r, rfl, hk, -⟩ := h.plain
    have hmodule : Reads (pathSegment type : Rule (n + 1)) (m :: (d :: (w :: r) ++ vs))
        [.node .typePathSegment [m.tree]] (d :: (w :: r) ++ vs) :=
      (isSegment_name hm hplain).reads _ (by simp [at?, kind?, hd])
    have hothers : Reads (whileAt atPathTail (pathSegment type) : Rule (n + 1))
        (d :: (w :: r) ++ vs) [d.tree, s] vs :=
      (h.reads vs (at?_of_before hvs (by decide))).whileAt
        (by simp [atPathTail, at?, atAny, kind?, hd, hk])
        (reads_whileAt_not (atPathTail_of_before hvs (by decide)))
    exact Rule.Reads.path ((hmodule.seq hothers).node .typePath) hm

/-! ### collections -/

/-- An array. -/
theorem IsType.array {o c : Word} (h : IsType ws t) (ho : o.kind = .openBracket)
    (hc : c.kind = .closeBracket) :
    IsPrimary (o :: (ws ++ [c])) (.node .typeArray [o.tree, t, c.tree]) where
  isType := rfl
  plain := ⟨o, _, rfl, by simp [isPrefix, ho]⟩
  reads {n} vs _ := by
    have helement := h.reads (c :: vs) (before_cons (by simp [hc, closers]) vs)
    have harray : Reads (collectionType type : Rule (n + 1)) (o :: (ws ++ c :: vs))
        [.node .typeArray [o.tree, t, c.tree]] vs := by
      refine .onWord fun hn => ?_
      have hcolon : ¬at? .colon (typeFrom (ws ++ c :: vs)).rest = true := by
        rw [helement.rest]
        simp [at?, kind?, hc]
      have hclose : Reads (expect .closeBracket .unclosedCollectionType : Rule n)
          (typeFrom (ws ++ c :: vs)).rest [c.tree] vs := by
        rw [helement.rest]
        exact reads_expect hc _ vs
      show Parsed.Reads (if at? .colon (typeFrom (ws ++ c :: vs)).rest = true then _ else _) _ _
      rw [if_neg hcolon]
      exact ((helement.append (hclose _)).cons o).node _
    have hprimary : Reads (primaryType type : Rule (n + 1)) (o :: (ws ++ c :: vs))
        [.node .typeArray [o.tree, t, c.tree]] vs :=
      (harray.ifAt (by simp [at?, kind?, ho])).ifAt_not (by simp [at?, kind?, ho])
    simpa using hprimary

/-- A dictionary. -/
theorem IsType.dictionary {us : List Word} {u : Tree} {o d c : Word} (h : IsType ws t)
    (hvalue : IsType us u) (ho : o.kind = .openBracket) (hd : d.kind = .colon)
    (hc : c.kind = .closeBracket) :
    IsPrimary (o :: (ws ++ d :: (us ++ [c])))
      (.node .typeDictionary [o.tree, t, d.tree, u, c.tree]) where
  isType := rfl
  plain := ⟨o, _, rfl, by simp [isPrefix, ho]⟩
  reads {n} vs _ := by
    have hkey := h.reads (d :: (us ++ c :: vs)) (before_cons (by simp [hd, closers]) _)
    have hvalue := hvalue.reads (c :: vs) (before_cons (by simp [hc, closers]) vs)
    have hdictionary : Reads (collectionType type : Rule (n + 1))
        (o :: (ws ++ d :: (us ++ c :: vs)))
        [.node .typeDictionary [o.tree, t, d.tree, u, c.tree]] vs := by
      refine .onWord fun hn => ?_
      have hcolon : at? .colon (typeFrom (ws ++ d :: (us ++ c :: vs))).rest = true := by
        rw [hkey.rest]
        simp [at?, kind?, hd]
      have htail : Reads (bump >> type >> expect .closeBracket .unclosedCollectionType : Rule n)
          (typeFrom (ws ++ d :: (us ++ c :: vs))).rest [d.tree, u, c.tree] vs := by
        rw [hkey.rest]
        exact (reads_bump d _).seq ((reads_type hvalue).seq (reads_expect hc _ vs))
      show Parsed.Reads
        (if at? .colon (typeFrom (ws ++ d :: (us ++ c :: vs))).rest = true then _ else _) _ _
      rw [if_pos hcolon]
      exact ((hkey.append (htail _)).cons o).node _
    have hprimary : Reads (primaryType type : Rule (n + 1)) (o :: (ws ++ d :: (us ++ c :: vs)))
        [.node .typeDictionary [o.tree, t, d.tree, u, c.tree]] vs :=
      (hdictionary.ifAt (by simp [at?, kind?, ho])).ifAt_not (by simp [at?, kind?, ho])
    simpa using hprimary

/-! ### labels -/

/-- A name before a word that no type goes on with is a type without prefixes. -/
theorem reads_suffixedType_name {ks : List Kind} (hk : w.kind = .identifier) (hvs : Before ks vs)
    (hks : ∀ k ∈ [Kind.openAngle, .dot, .question, .bang], k ∉ ks) :
    Reads (suffixedType type : Rule (n + 1)) (w :: vs)
      [.node .typePath [.node .typePathSegment [w.tree]]] vs := by
  have hsegment : Reads (pathSegment type : Rule (n + 1)) (w :: vs)
      [.node .typePathSegment [w.tree]] vs :=
    ((reads_optional_not (at?_of_before hvs (hks .openAngle (by decide)))).after).node _
  have hpath := (hsegment.seq (reads_whileAt_not (p := pathSegment type)
    (atPathTail_of_before hvs (hks .dot (by decide))))).node .typePath
  exact (Rule.Reads.path hpath hk).suffixedType
    (suffixKind?_of_before hvs (hks .question (by decide)) (hks .bang (by decide)))

theorem reads_typeFrom_name (hk : w.kind = .identifier)
    (hconstraint : atConstraint (w :: vs) = false)
    (hattribute : atTypeAttribute (w :: vs) = false) (hvs : Before [.identifier, .colon] vs) :
    (typeFrom (w :: vs)).rest = vs :=
  (reads_typeFrom (((reads_suffixedType_name hk hvs (by decide)).composedType
    (at?_of_before hvs (by decide))).typeWith hconstraint hattribute)).rest

/-- Behind attributes and words on ownership stands the type that they belong to. -/
theorem typeFrom_of_attributes (hconstraint : atConstraint ws = false)
    (hattribute : atTypeAttribute ws = true)
    (h : Reads (typeAttributes : Rule (ws.length + 1)) ws ts us)
    (hclean : CleanAll (typeFrom ws).sketches) :
    CleanAll (typeFrom us).sketches ∧ (typeFrom ws).rest = (typeFrom us).rest := by
  have hfirst := h (Nat.lt_succ_self _)
  obtain rfl := hfirst.rest
  rw [typeFrom] at hclean
  rw [typeFrom.eq_1 ws]
  unfold typeWith Rule.ifAt at hclean ⊢
  rw [hconstraint, hattribute, if_neg Bool.false_ne_true, if_pos rfl] at hclean ⊢
  unfold attributedType Rule.node Rule.advancing at hclean ⊢
  simp only [hattribute, dif_pos] at hclean ⊢
  exact ⟨(cleanAll_append.1 hclean.1).2, rfl⟩

/-- A word on ownership is read alone if a type may follow it, and no attribute. -/
theorem reads_typeAttributes_one {v : Word} (hk : w.kind = .identifier)
    (hv : atTypeAttribute (v :: r) = false) :
    Reads (typeAttributes : Rule n) (w :: v :: r) [w.tree] (v :: r) := by
  obtain ⟨hsign, howner⟩ := Bool.or_eq_false_iff.1 hv
  exact ((reads_bump w _).ifAt_not (by simp [at?, kind?, hk])).seq
    ((reads_whileAt_not howner).seq (reads_optional_not hsign))

/-- Two such words are read if neither a third one nor an attribute follows. -/
theorem reads_typeAttributes_two {v : Word} (hk : w.kind = .identifier)
    (hown : atOwnership (v :: r) = true) (hr : atTypeAttribute r = false) :
    Reads (typeAttributes : Rule n) (w :: v :: r) [w.tree, v.tree] r := by
  obtain ⟨hsign, howner⟩ := Bool.or_eq_false_iff.1 hr
  exact ((reads_bump w _).ifAt_not (by simp [at?, kind?, hk])).seq
    (((reads_done _).whileAt hown (reads_whileAt_not howner)).seq (reads_optional_not hsign))

/-- A type ends before a colon that stands behind a name, -/
theorem rest_typeFrom_of_colon {v : Word} (hk : w.kind = .identifier) (hv : v.kind = .colon)
    (hclean : CleanAll (typeFrom (w :: v :: r)).sketches) :
    (typeFrom (w :: v :: r)).rest = v :: r := by
  have hconstraint : atConstraint (w :: v :: r) = false := by
    simp [atConstraint, atAny, kind?, hv]
  by_cases hattribute : atTypeAttribute (w :: v :: r) = true
  · have hnone : atTypeAttribute (v :: r) = false := by
      simp [atTypeAttribute, atOwnership, at?, kind?, atName, hv]
    have hstart := atTypeStart_of_clean
      (typeFrom_of_attributes hconstraint hattribute (reads_typeAttributes_one hk hnone) hclean).1
    simp [Grammar.atTypeStart, atAny, kind?, hv] at hstart
  · exact reads_typeFrom_name hk hconstraint (by simpa using hattribute)
      (before_cons (by simp [hv]) r)

/-- and at the last before a colon that stands behind two names. -/
theorem rest_typeFrom_of_names {v x : Word} (hk : w.kind = .identifier) (hv : v.kind = .identifier)
    (hx : x.kind = .colon) (hclean : CleanAll (typeFrom (w :: v :: x :: r)).sketches) :
    (typeFrom (w :: v :: x :: r)).rest = v :: x :: r ∨
      (typeFrom (w :: v :: x :: r)).rest = x :: r := by
  by_cases hconstraint : atConstraint (w :: v :: x :: r) = true
  · rw [typeFrom] at hclean
    rw [typeFrom.eq_1 (w :: v :: x :: r)]
    unfold typeWith Rule.ifAt at hclean ⊢
    rw [if_pos hconstraint] at hclean ⊢
    split at hclean
    · next hsome =>
      rw [if_pos hsome]
      exact .inr (rest_typeFrom_of_colon hv hx hclean.1.2)
    · next hsome =>
      rw [if_neg hsome]
      exact .inr (rest_typeFrom_of_colon hv hx hclean.1.2)
  have hconstraint : atConstraint (w :: v :: x :: r) = false := by simpa using hconstraint
  by_cases hattribute : atTypeAttribute (w :: v :: x :: r) = true
  · by_cases howner : atTypeAttribute (v :: x :: r) = true
    · -- Both names are words on ownership, and no type stands behind them.
      have hown : atOwnership (v :: x :: r) = true := by
        simpa [atTypeAttribute, at?, kind?, hv] using howner
      have hnone : atTypeAttribute (x :: r) = false := by
        simp [atTypeAttribute, atOwnership, at?, kind?, atName, hx]
      have hreads := reads_typeAttributes_two (n := (w :: v :: x :: r).length + 1) hk hown hnone
      have hstart := atTypeStart_of_clean
        (typeFrom_of_attributes hconstraint hattribute hreads hclean).1
      simp [Grammar.atTypeStart, atAny, kind?, hx] at hstart
    · have hreads := reads_typeAttributes_one (n := (w :: v :: x :: r).length + 1) hk
        (by simpa using howner : atTypeAttribute (v :: x :: r) = false)
      obtain ⟨hinner, hrest⟩ := typeFrom_of_attributes hconstraint hattribute hreads hclean
      exact .inr (hrest.trans (rest_typeFrom_of_colon hv hx hinner))
  · exact .inl (reads_typeFrom_name hk hconstraint (by simpa using hattribute)
      (before_cons (by simp [hv]) _))

/-- No label stands before a type that an element of a tuple ends with. -/
theorem IsType.labelLength (h : IsType ws t) (hvs : Before [.comma, .closeParen] vs) :
    labelLength (ws ++ vs) = 0 := by
  have hreads := h.reads vs (hvs.mono (by decide))
  have hno {w : Word} {r : List Word} (hr : (typeFrom (ws ++ vs)).rest = w :: r) :
      w.kind ≠ .identifier ∧ w.kind ≠ .colon := by
    rw [hreads.rest] at hr
    subst hr
    have hw := hvs w rfl
    simp only [List.mem_cons, List.not_mem_nil, or_false] at hw
    grind
  have hclean := hreads.clean
  generalize ws ++ vs = us at hno hclean
  rcases us with _ | ⟨w, _ | ⟨v, _ | ⟨x, r⟩⟩⟩
  · rfl
  · simp [Grammar.labelLength, atPair, at?, kind?]
  · have hpair : ¬(w.kind = .identifier ∧ v.kind = .colon) := by
      rintro ⟨hw, hv⟩
      exact (hno (rest_typeFrom_of_colon hw hv hclean)).2 hv
    simp [Grammar.labelLength, atPair, at?, kind?, hpair]
  · have hpair : ¬(w.kind = .identifier ∧ v.kind = .colon) := by
      rintro ⟨hw, hv⟩
      exact (hno (rest_typeFrom_of_colon hw hv hclean)).2 hv
    have htriple : ¬((w.kind = .identifier ∧ v.kind = .identifier) ∧ x.kind = .colon) := by
      rintro ⟨⟨hw, hv⟩, hx⟩
      obtain hrest | hrest := rest_typeFrom_of_names hw hv hx hclean
      · exact (hno hrest).1 hv
      · exact (hno hrest).2 hx
    simp [Grammar.labelLength, atPair, at?, kind?, hpair, htriple]

/-- A type is read as an element of a tuple, without a label. -/
theorem IsType.element (h : IsType ws t) :
    ReadsItem (atOther [.closeParen]) (tupleElement (type : Rule n)) .closeParen ws
      (.node .typeTupleElement [t]) := by
  intro r hr
  have hstart := h.atTypeStart (hr.mono (by decide))
  have hlength := h.labelLength hr
  have hlabel : Reads (label : Rule n) (ws ++ r) [] (ws ++ r) :=
    (reads_optional_not (by simp [hlength])).ifAt_not (by simp [hlength])
  have htype : Reads (Rule.ifAt Grammar.atTypeStart type
      (fault .noType >> Rule.optional (atOther [.comma, .closeParen]) bump) : Rule n) (ws ++ r)
      [t] r := (reads_type (h.reads r (hr.mono (by decide)))).ifAt hstart
  have hellipsis : Reads (eat .ellipsis : Rule n) r [] r :=
    reads_optional_not (at?_of_before hr (by decide))
  refine ⟨?_, (hlabel.seq (htype.seq hellipsis)).node .typeTupleElement⟩
  generalize ws ++ r = us at hstart
  cases us with
  | nil => cases hstart
  | cons w us =>
    simp only [Grammar.atTypeStart, atAny, atOther, atWord, kind?] at hstart ⊢
    cases hw : w.kind <;> simp [hw] at hstart ⊢

/-! ### tuples and functions -/

/-- Types as the elements of a tuple. -/
def tupleTree (o c : Word) (ts : List Tree) : Tree :=
  .node .typeTuple (o.tree :: (separatedTrees (ts.map fun t => .node .typeTupleElement [t]) ++
    [c.tree]))

/-- Words on effects as a clause, if there are any. -/
def effectTrees (es : List Word) : List Tree :=
  if es = [] then [] else [.node .effectSpecifiers (es.map Word.tree)]

theorem reads_elements {wss : List (List Word)} {c : Word} (h : List.Forall₂ IsType wss ts)
    (hc : c.kind = .closeParen) (r : List Word) :
    Reads (commaList (atOther [.closeParen]) (tupleElement type) >>
        expect .closeParen .unclosedTupleType : Rule n) (separated wss ++ c :: r)
      (separatedTrees (ts.map fun t => .node .typeTupleElement [t]) ++ [c.tree]) r := by
  have hitems : List.Forall₂
      (ReadsItem (atOther [.closeParen]) (tupleElement (type : Rule n)) c.kind)
      wss (ts.map fun t => .node .typeTupleElement [t]) := by
    rw [hc, List.forall₂_map_right_iff]
    exact h.imp fun _ _ hitem => hitem.element
  exact (reads_commaList hitems (by simp [hc]) (by simp [atOther, atAny, kind?, hc])).seq
    (reads_expect hc _ r)

theorem atEffect_of_before {ks : List Kind} (h : Before ks vs) (hthrows : .kwThrows ∉ ks)
    (hrethrows : .kwRethrows ∉ ks) (hidentifier : .identifier ∉ ks) : atEffect vs = false := by
  cases vs with
  | nil => rfl
  | cons w r =>
    have hw := h w rfl
    have hne {k : Kind} (hk : k ∉ ks) : w.kind ≠ k := fun hwk => hk (hwk ▸ hw)
    simp [atEffect, atAny, atName, kind?, hne hthrows, hne hrethrows, hne hidentifier]

theorem Rule.Reads.parenthesized {inside : Rule n}
    (h : Reads (tupleOrFunctionType inside) (w :: r) ts vs) (hk : w.kind = .openParen) :
    Reads (primaryType inside) (w :: r) ts vs := h.ifAt (by simp [at?, kind?, hk])

/-- Types in parentheses. -/
theorem IsType.tuple {wss : List (List Word)} {o c : Word} (h : List.Forall₂ IsType wss ts)
    (ho : o.kind = .openParen) (hc : c.kind = .closeParen) :
    IsPrimary (o :: (separated wss ++ [c])) (tupleTree o c ts) where
  isType := rfl
  plain := ⟨o, _, rfl, by simp [isPrefix, ho]⟩
  reads {n} vs hvs := by
    have htuple : Reads (tupleOrFunctionType type : Rule (n + 1)) (o :: (separated wss ++ c :: vs))
        [tupleTree o c ts] vs := by
      refine .onWord fun hn => ?_
      have hinner := reads_elements h hc vs hn
      dsimp only
      rw [if_neg (by
        rw [hinner.rest, at?_of_before hvs (by decide),
          atEffect_of_before hvs (by decide) (by decide) (by decide)]
        exact Bool.false_ne_true)]
      exact (hinner.cons o).node .typeTuple
    simpa using htuple.parenthesized ho

/-- Effects are read up to the arrow. -/
theorem reads_effects {es : List Word} {a : Word} (hes : ∀ e ∈ es, atEffect [e] = true)
    (ha : a.kind = .arrow) (r : List Word) :
    Reads (many atEffect effect advances_effect.of_atWord : Rule n) (es ++ a :: r)
      (es.map Word.tree) (a :: r) := by
  induction es with
  | nil => exact reads_many_not _ (by simp [atEffect, atAny, atName, kind?, ha])
  | cons e es ih =>
    obtain ⟨he, hes⟩ := List.forall_mem_cons.1 hes
    have hparen : atJoinedParen (es ++ a :: r) = false := by
      cases es with
      | nil => simp [atJoinedParen, at?, kind?, ha]
      | cons e' es =>
        have he' := hes e' List.mem_cons_self
        have hkind : e'.kind ≠ .openParen := by
          intro hkind
          simp [atEffect, atAny, atName, kind?, hkind] at he'
        simp [atJoinedParen, at?, kind?, hkind]
    have hone : Reads (effect : Rule n) (e :: (es ++ a :: r)) [e.tree] (es ++ a :: r) := by
      by_cases hthrows : at? .kwThrows (e :: (es ++ a :: r)) = true
      · exact ((reads_bump e _).seq (reads_optional_not hparen)).ifAt hthrows
      · exact (reads_bump e _).ifAt_not (by simpa using hthrows)
    exact hone.many _ he (ih hes)

theorem reads_effectSpecifiers {es : List Word} {a : Word} (hes : ∀ e ∈ es, atEffect [e] = true)
    (ha : a.kind = .arrow) (r : List Word) :
    Reads (effectSpecifiers : Rule n) (es ++ a :: r) (effectTrees es) (a :: r) := by
  have hmany := reads_effects (n := n) hes ha r
  cases es with
  | nil => exact reads_optional_not (by simp [atEffect, atAny, atName, kind?, ha])
  | cons e es => exact (hmany.node .effectSpecifiers).optional (hes e List.mem_cons_self)

/-- A function. -/
theorem IsType.function {wss : List (List Word)} {es : List Word} {o c a : Word}
    (h : List.Forall₂ IsType wss ts) (hout : IsType ws t) (ho : o.kind = .openParen)
    (hc : c.kind = .closeParen) (hes : ∀ e ∈ es, atEffect [e] = true) (ha : a.kind = .arrow) :
    IsType (o :: (separated wss ++ c :: (es ++ a :: ws)))
      (.node .typeFunction (tupleTree o c ts :: (effectTrees es ++ [a.tree, t]))) where
  isType := rfl
  reads vs hvs := by
    have hprefix : isPrefix o = false := by simp [isPrefix, ho]
    have hprimary {n : Nat} : Reads (primaryType type : Rule (n + 1))
        (o :: (separated wss ++ c :: (es ++ a :: (ws ++ vs))))
        [.node .typeFunction (tupleTree o c ts :: (effectTrees es ++ [a.tree, t]))] vs := by
      refine Rule.Reads.parenthesized (.onWord fun hn => ?_) ho
      have hinner := reads_elements h hc (es ++ a :: (ws ++ vs)) hn
      have htail : Reads (functionTypeTail type : Rule n)
          ((commaList (atOther [.closeParen]) (tupleElement type) >>
            expect .closeParen .unclosedTupleType : Rule n) _ hn).rest
          (effectTrees es ++ [a.tree, t]) vs := by
        rw [hinner.rest]
        exact (reads_effectSpecifiers hes ha _).seq
          ((reads_expect ha _ _).seq (reads_type (hout.reads vs hvs)))
      -- an effect or the arrow makes the parentheses those of a function
      have hat :
          (atEffect (es ++ a :: (ws ++ vs)) || at? .arrow (es ++ a :: (ws ++ vs))) = true := by
        cases es with
        | nil => simp [at?, kind?, ha]
        | cons e es => exact Bool.or_eq_true_iff.2 (.inl (hes e List.mem_cons_self))
      dsimp only
      rw [if_pos (by rw [hinner.rest]; exact hat)]
      exact (((hinner.cons o).node .typeTuple).append (htail _)).node .typeFunction
    have hsuffix := suffixKind?_of_before hvs (by decide) (by decide)
    have hwords : o :: (separated wss ++ c :: (es ++ a :: ws)) ++ vs =
        o :: (separated wss ++ c :: (es ++ a :: (ws ++ vs))) := by simp
    rw [hwords]
    exact reads_typeFrom_of_suffixed (hprimary.suffixedType hsuffix) hprefix hvs

/-! ### attributes -/

/-- The tree of an attribute that is one name. -/
def attributeTree (sign name : Word) : Tree :=
  .node .attribute <| [sign.tree, .node .name [name.tree]]

section

variable {m e o : Word} {r : List Word} (hm : m.kind = .atSign) (ho : o.kind = .openParen)
  (hjoined : o.joined = false)

include ho

theorem at?_atSign_of_paren : at? .atSign (o :: r) = false := by simp [at?, kind?, ho]

include hjoined

/-- An attribute has no arguments if a space is before the parenthesis that follows. -/
theorem reads_oneAttribute_name : Reads (oneAttribute : Rule n) (m :: e :: o :: r)
    [attributeTree m e] (o :: r) := by
  have hend : atPair .dot .identifier (o :: r) = false := by simp [atPair, at?, kind?, ho]
  have hname : Reads (attributeName : Rule n) (e :: o :: r) [.node .name [e.tree]] (o :: r) :=
    (((reads_bump e _).seq (reads_whileAt_not hend)).ifAt rfl).node _
  have hnone : atJoinedParen (o :: r) = false := by simp [atJoinedParen, isJoined, hjoined]
  exact ((reads_bump m _).seq (hname.seq (reads_optional_not hnone))).node _

include hm

theorem reads_typeAttributes_name : Reads (typeAttributes : Rule n) (m :: e :: o :: r)
    [.node .attributeList [attributeTree m e]] (o :: r) := by
  have hsign : at? .atSign (m :: e :: o :: r) = true := by simp [at?, kind?, hm]
  have hmany := reads_many_not (p := oneAttribute (n := n)) advances_oneAttribute.of_atWord
    (at?_atSign_of_paren (r := r) ho)
  have hlist : Reads (attributeList : Rule n) (m :: e :: o :: r)
      [.node .attributeList [attributeTree m e]] (o :: r) :=
    (((reads_oneAttribute_name ho hjoined).many _ hsign hmany).node _).optional hsign
  have hnone : atOwnership (o :: r) = false := by simp [atOwnership, at?, kind?, atName, ho]
  exact (hlist.ifAt hsign).seq
    ((reads_whileAt_not hnone).seq (reads_optional_not (at?_atSign_of_paren ho)))

end

/-- An attribute without arguments before a type in parentheses. -/
theorem IsType.attributed {m e o : Word} {r : List Word} (h : IsType (o :: r) t)
    (hm : m.kind = .atSign) (ho : o.kind = .openParen) (hjoined : o.joined = false) :
    IsType (m :: e :: o :: r)
      (.node .typeAttributed [.node .attributeList [attributeTree m e], t]) where
  isType := rfl
  reads vs hvs := by
    have hattribute : atTypeAttribute (m :: e :: o :: (r ++ vs)) = true := by
      simp [atTypeAttribute, at?, kind?, hm]
    have hconstraint : atConstraint (m :: e :: o :: (r ++ vs)) = false := by
      simp [atConstraint, atName, hm]
    have hattributes {n : Nat} := reads_typeAttributes_name (n := n) (e := e) (r := r ++ vs) hm ho
      hjoined
    exact Grammar.reads_typeFrom ((((hattributes.advancing advances_typeAttributes hattribute
      (reads_type (h.reads vs hvs))).node .typeAttributed).ifAt hattribute).ifAt_not hconstraint)

end

end Grammar

end SwiftOutline

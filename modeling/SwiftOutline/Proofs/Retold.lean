import Mathlib.Data.List.Chain
import SwiftOutline.Proofs.Phrase
import SwiftOutline.Proofs.Solid

/-!
# SwiftOutline.Proofs.Retold

Words that are read, and the same words with the spaces of normalized text.

* `Word.Evenly` — a word is joined to the one before it exactly if normalized text puts no space
  between them;
* `Tree.showsArguments` — with such spaces a parenthesis behind the name of an attribute still opens
  its arguments, or still opens none;
* `Parsed.Told` — evenly spaced words are those that were taken, and some of those that were left;
* `Rule.Retells` — from such words a rule reads what another one took without a fault. There is a
  lemma for every way in which rules are put together.
-/

namespace SwiftOutline

/-- Two words with a space between them only if normalized text has one there. -/
def Word.Evenly (v w : Word) : Prop := w.joined = !v.kind.needsSpace w.kind

namespace Tree

/-- Whether normalized text shows if an attribute has arguments: by its parts, and the lexemes
behind it, a parenthesis behind the name needs no space exactly if it opens arguments. -/
def argumentsShow (parts : List Tree) (behind : List Lexeme) : Bool :=
  match parts with
  | _ :: name :: arguments =>
    let opens := (tokensOfAll arguments ++ behind).head?.any (·.kind == .openParen)
    let joins := name.tokens.getLast?.any (!·.kind.needsSpace .openParen)
    !opens || joins == !arguments.isEmpty
  | _ => true

mutual

/-- Whether normalized text shows which attributes in a tree have arguments; some lexemes stand
behind the tree. -/
def showsArguments (behind : List Lexeme) : Tree → Bool
  | token .. => true
  | node k cs => (k != .attribute || argumentsShow cs behind) && showsArgumentsAll behind cs

/-- Whether it shows it for a run of trees. -/
def showsArgumentsAll (behind : List Lexeme) : List Tree → Bool
  | [] => true
  | t :: ts => showsArguments (tokensOfAll ts ++ behind) t && showsArgumentsAll behind ts

end

theorem showsArgumentsAll_append (behind : List Lexeme) (ts us : List Tree) :
    showsArgumentsAll behind (ts ++ us) =
      (showsArgumentsAll (tokensOfAll us ++ behind) ts && showsArgumentsAll behind us) := by
  induction ts with
  | nil => simp [showsArgumentsAll]
  | cons t ts ih => simp [showsArgumentsAll, ih, tokensOfAll_append, Bool.and_assoc]

theorem showsArgumentsAll_node {behind : List Lexeme} {k : Kind} {cs : List Tree} :
    showsArgumentsAll behind [.node k cs] = true ↔
      (k = .attribute → argumentsShow cs behind = true) ∧ showsArgumentsAll behind cs = true := by
  simp only [showsArgumentsAll, showsArguments, tokensOfAll, List.nil_append, Bool.and_true,
    Bool.and_eq_true, Bool.or_eq_true, bne_iff_ne, or_iff_not_imp_left, not_not]

end Tree

namespace Grammar

open Sketch (CleanAll cleanAll_append treesOfAll treesOfAll_append wordsOfAll wordsOfAll_append
  tokens_treesOfAll)

/-! ## words told again -/

/-- What was taken without a fault is told again by some words, and what was left is so by some
others, as far as these go. They are evenly spaced, the spaces show which attributes have arguments,
and what is left does not start with a word of some kinds. -/
structure Parsed.Told {ws : List Word} (ks : List Kind) (p : Parsed ws) (us vs : List Word) :
    Prop where
  clean : CleanAll p.sketches
  taken : us.map Word.lexeme = (wordsOfAll p.sketches).map Word.lexeme
  left : vs.map Word.lexeme <+: p.rest.map Word.lexeme
  evenly : (us ++ vs).IsChain Word.Evenly
  shown : Tree.showsArgumentsAll (vs.map Word.lexeme) (treesOfAll p.sketches) = true
  apart : ∀ w ∈ vs.head?, w.kind ∉ ks

/-- The next word is the first one that is taken. -/
theorem Parsed.head?_of_taken {ws : List Word} {p : Parsed ws} {w : Word}
    (h : w ∈ (wordsOfAll p.sketches).head?) : ws.head? = some w := by
  rw [← p.covers, List.head?_append, Option.mem_def.1 h, Option.some_or]

theorem tree_congr {v w : Word} (h : v.lexeme = w.lexeme) : v.tree = w.tree := by
  cases v
  cases w
  cases h
  rfl

theorem kind_congr {v w : Word} (h : v.lexeme = w.lexeme) : v.kind = w.kind :=
  congrArg Lexeme.kind h

namespace Parsed.Told

variable {ws r us vs : List Word} {ks ls : List Kind} {k : Kind} {w : Word}

theorem mono {p : Parsed ws} (h : p.Told ks us vs) (hsub : ls ⊆ ks) : p.Told ls us vs :=
  { h with apart := fun w hw hmem => h.apart w hw (hsub hmem) }

/-- The words are, as far as they go, those that were there. -/
theorem isPrefix {p : Parsed ws} (h : p.Told ks us vs) :
    (us ++ vs).map Word.lexeme <+: ws.map Word.lexeme := by
  have hwords : (wordsOfAll p.sketches).map Word.lexeme ++ p.rest.map Word.lexeme =
      ws.map Word.lexeme := by rw [← List.map_append, p.covers]
  rw [List.map_append, h.taken, ← hwords]
  exact (List.prefix_append_right_inj _).2 h.left

theorem length_eq {p : Parsed ws} (h : p.Told ks us vs) :
    p.rest.length + us.length = ws.length := by
  have htaken := congrArg List.length h.taken
  have hcovers := congrArg List.length p.covers
  simp only [List.length_map, List.length_append] at htaken hcovers
  omega

/-- Nothing is told again where nothing was taken. -/
theorem eq_nil_of_done (h : (done ws).Told ks us vs) : us = [] := List.map_eq_nil_iff.1 h.taken

/-- At the end nothing can be told again. -/
theorem eq_nil_of_nil {p : Parsed []} (h : p.Told ks us vs) : us = [] ∧ vs = [] := by
  simpa using h.isPrefix.length_le

theorem node {p : Parsed ws} (h : (p.node k).Told ks us vs) : p.Told ks us vs where
  clean := h.clean.1
  taken := h.taken.trans (congrArg _ (List.append_nil _))
  left := h.left
  evenly := h.evenly
  shown := (Tree.showsArgumentsAll_node.1 h.shown).2
  apart := h.apart

theorem cons {p : Parsed r} (h : (Parsed.cons w p).Told ks us vs) :
    ∃ v us', us = v :: us' ∧ v.lexeme = w.lexeme ∧ p.Told ks us' vs := by
  obtain ⟨v, us', rfl, hv, htaken⟩ := List.map_eq_cons_iff.1 h.taken
  exact ⟨v, us', rfl, hv, h.clean.2, htaken, h.left, h.evenly.tail,
    (Bool.and_eq_true_iff.1 h.shown).2, h.apart⟩

/-- What was taken in two parts is told again in two parts. -/
theorem append {p : Parsed ws} {q : Parsed p.rest} (h : (p.append q).Told ks us vs)
    (hq : ∀ w ∈ (wordsOfAll q.sketches).head?, w.kind ∉ ls)
    (hsub : ls ⊆ ks ∨ wordsOfAll q.sketches ≠ []) :
    ∃ us₁ us₂, us = us₁ ++ us₂ ∧ p.Told ls us₁ (us₂ ++ vs) ∧ q.Told ks us₂ vs := by
  obtain ⟨hp, hq'⟩ := cleanAll_append.1 h.clean
  have htaken : us.map Word.lexeme =
      (wordsOfAll p.sketches).map Word.lexeme ++ (wordsOfAll q.sketches).map Word.lexeme := by
    rw [h.taken, ← List.map_append, ← wordsOfAll_append]
    rfl
  obtain ⟨us₁, us₂, rfl, htaken₁, htaken₂⟩ := List.map_eq_append_iff.1 htaken
  have hshown : Tree.showsArgumentsAll (vs.map Word.lexeme)
      (treesOfAll p.sketches ++ treesOfAll q.sketches) = true := by
    rw [← treesOfAll_append]
    exact h.shown
  rw [Tree.showsArgumentsAll_append, Bool.and_eq_true, tokens_treesOfAll, ← htaken₂] at hshown
  have hevenly := h.evenly
  rw [List.append_assoc] at hevenly
  have hleft : (us₂ ++ vs).map Word.lexeme <+: p.rest.map Word.lexeme := by
    rw [← q.covers, List.map_append, List.map_append, htaken₂]
    exact (List.prefix_append_right_inj _).2 h.left
  refine ⟨us₁, us₂, rfl, ⟨hp, htaken₁, hleft, hevenly, by simpa using hshown.1, ?_⟩,
    ⟨hq', htaken₂, h.left, hevenly.right_of_append, hshown.2, h.apart⟩⟩
  cases us₂ with
  | nil =>
    have hnil : wordsOfAll q.sketches = [] := List.map_eq_nil_iff.1 htaken₂.symm
    exact fun w hw hmem => h.apart w hw (hsub.resolve_right (absurd hnil) hmem)
  | cons v us₂ =>
    obtain ⟨w, ws', hwords, hlexeme, -⟩ := List.map_eq_cons_iff.1 htaken₂.symm
    rintro _ ⟨⟩
    rw [← kind_congr hlexeme]
    exact hq w (by simp [hwords])

/-- Nothing is asked of the start of the second part where the first one may be followed by
anything. -/
theorem split {p : Parsed ws} {q : Parsed p.rest} (h : (p.append q).Told ks us vs) :
    ∃ us₁ us₂, us = us₁ ++ us₂ ∧ p.Told [] us₁ (us₂ ++ vs) ∧ q.Told ks us₂ vs :=
  h.append (fun _ _ => List.not_mem_nil) (.inl (List.nil_subset _))

end Parsed.Told

/-! ## looking ahead -/

/-- A condition looks at the kinds and the texts of some words at most; some words that begin as
others do meet it if these do, as far as they go. -/
def Reaches (n : Nat) (c : List Word → Bool) : Prop :=
  ∀ ⦃ws ws' : List Word⦄, ws'.map Word.lexeme <+: ws.map Word.lexeme →
    (c ws' = true → c ws = true) ∧ (c ws = true → n ≤ ws'.length → c ws' = true)

/-- A condition on the next word. -/
theorem reaches_one {c : List Word → Bool} (hnil : c [] = false)
    (hcons : ∀ w r, c (w :: r) = c [⟨w.kind, w.text, false, false⟩]) : Reaches 1 c := by
  intro ws ws' h
  cases ws' with
  | nil => simp [hnil]
  | cons v r' =>
    cases ws with
    | nil => simp at h
    | cons w r =>
      obtain ⟨hlexeme, -⟩ := List.cons_prefix_cons.1 h
      obtain ⟨hkind, htext⟩ := Lexeme.mk.inj hlexeme
      rw [hcons v, hcons w, hkind, htext]
      simp

theorem reaches_at? (k : Kind) : Reaches 1 (at? k) := reaches_one rfl fun _ _ => rfl

theorem reaches_atAny (ks : List Kind) : Reaches 1 (atAny ks) := reaches_one rfl fun _ _ => rfl

theorem reaches_atName (xs : List String) : Reaches 1 (atName xs) := reaches_one rfl fun _ _ => rfl

theorem reaches_atOther (ks : List Kind) : Reaches 1 (atOther ks) := reaches_one rfl fun _ _ => rfl

/-- One condition here, and another one behind the next word. -/
theorem Reaches.and_tail {n : Nat} {c d : List Word → Bool} (hc : Reaches 1 c)
    (hd : Reaches n d) : Reaches (n + 1) fun ws => c ws && d ws.tail := by
  intro ws ws' h
  have htail : ws'.tail.map Word.lexeme <+: ws.tail.map Word.lexeme := by
    cases ws' with
    | nil => exact List.nil_prefix
    | cons v r' =>
      cases ws with
      | nil => simp at h
      | cons w r => exact (List.cons_prefix_cons.1 h).2
  obtain ⟨hc₁, hc₂⟩ := hc h
  obtain ⟨hd₁, hd₂⟩ := hd htail
  simp only [Bool.and_eq_true]
  refine ⟨And.imp hc₁ hd₁, fun hand hlen => ⟨hc₂ hand.1 (by omega), hd₂ hand.2 ?_⟩⟩
  rw [List.length_tail]
  omega

theorem reaches_atPair (j k : Kind) : Reaches 2 (atPair j k) :=
  (reaches_at? j).and_tail (reaches_at? k)

/-- What meets a condition is told again by what meets it too. -/
theorem Parsed.Told.at_eq {ws us vs : List Word} {p : Parsed ws} {ks : List Kind} {j : Nat}
    {c : List Word → Bool} (h : p.Told ks us vs) (hc : Reaches j c)
    (hj : c ws = true → j ≤ us.length) : c (us ++ vs) = c ws := by
  obtain ⟨hof, hto⟩ := hc h.isPrefix
  rw [Bool.eq_iff_iff]
  refine ⟨hof, fun hat => hto hat ?_⟩
  rw [List.length_append]
  exact Nat.le_add_right_of_le (hj hat)

/-- What is left without meeting a condition is told again by what does not meet it. -/
theorem Parsed.Told.left_eq_false {ws us vs : List Word} {p : Parsed ws} {ks : List Kind} {j : Nat}
    {c : List Word → Bool} (h : p.Told ks us vs) (hc : Reaches j c) (hat : c p.rest = false) :
    c vs = false := by
  by_contra hvs
  have := (hc h.left).1 (by simpa using hvs)
  simp [hat] at this

namespace Rule

variable {n m : Nat} {ks ls : List Kind} {c : List Word → Bool} {j : Nat}

/-- A rule reads what another one took without a fault, wherever that is told again. -/
def Retells (ks : List Kind) (p : Rule n) (q : Rule m) : Prop :=
  ∀ ⦃ws us vs : List Word⦄ (h : ws.length < n), (p ws h).Told ks us vs →
    Reads q (us ++ vs) (treesOfAll (p ws h).sketches) vs

/-- Where a condition holds, a rule takes at least some words if it finds no fault. -/
def Takes (j : Nat) (c : List Word → Bool) (p : Rule n) : Prop :=
  ∀ ws h, c ws = true → CleanAll (p ws h).sketches → (p ws h).rest.length + j ≤ ws.length

/-- What a rule takes without a fault does not start with a word of some kinds. -/
def StartsApart (ks : List Kind) (p : Rule n) : Prop :=
  ∀ ws h, CleanAll (p ws h).sketches →
    ∀ w ∈ (wordsOfAll (p ws h).sketches).head?, w.kind ∉ ks

theorem Firm.takes {p : Rule n} (hp : Firm c p) : Takes 1 c p :=
  fun ws h hc hclean => (hp ws h hc hclean).2

theorem Advances.takes {p : Rule n} (ha : Advances c p) : Takes 1 c p :=
  fun ws h hc _ => ha ws h hc

theorem Takes.ifAt {p q : Rule n} (hp : Takes j c p) : Takes j c (Rule.ifAt c p q) := by
  intro ws h hc hclean
  unfold Rule.ifAt at hclean ⊢
  rw [if_pos hc] at hclean ⊢
  exact hp ws h hc hclean

/-- A condition under which a rule takes as many words as it looks at is told again with these. -/
theorem Takes.at_eq {p : Rule n} (hp : Takes j c p) (hc : Reaches j c) {ws us vs : List Word}
    {h : ws.length < n} (htold : (p ws h).Told ks us vs) : c (us ++ vs) = c ws :=
  htold.at_eq hc fun hat => by
    have := htold.length_eq
    have := hp ws h hat htold.clean
    omega

theorem startsApart_nil (p : Rule n) : StartsApart [] p := fun _ _ _ _ _ => List.not_mem_nil

theorem StartsApart.of_head {p : Rule n}
    (hp : ∀ w r h, CleanAll (p (w :: r) h).sketches →
      wordsOfAll (p (w :: r) h).sketches ≠ [] → w.kind ∉ ks) : StartsApart ks p := by
  intro ws h hclean w hw
  have hhead := Parsed.head?_of_taken hw
  cases ws with
  | nil => cases hhead
  | cons v r =>
    obtain rfl : v = w := Option.some.inj hhead
    refine hp v r h hclean fun hnil => ?_
    simp [hnil] at hw

theorem StartsApart.optional {p : Rule n}
    (hc : ∀ w r, c (w :: r) = true → w.kind ∉ ks) : StartsApart ks (Rule.optional c p) := by
  refine .of_head fun w r h _ hne => ?_
  unfold Rule.optional Rule.ifAt at hne
  split at hne
  · next hat => exact hc w r hat
  · exact absurd rfl hne

/-- What takes a word starts with it. -/
theorem StartsApart.before {p : Rule n} (hp : StartsApart ks p) (hfirm : Firm anywhere p)
    (q : Rule n) : StartsApart ks (p >> q) := by
  intro ws h hclean w hw
  obtain ⟨hclean, -⟩ := cleanAll_append.1 hclean
  have hwords : wordsOfAll ((p >> q) ws h).sketches = wordsOfAll (p ws h).sketches ++
      wordsOfAll (q (p ws h).rest ((p ws h).length_rest_lt h)).sketches := wordsOfAll_append _ _
  have hne := Parsed.wordsOfAll_ne_nil (hfirm ws h rfl hclean).2
  rw [hwords, List.head?_append_of_ne_nil _ hne] at hw
  exact hp ws h hclean w hw

theorem startsApart_expect {k : Kind} (hk : k ∉ ks) (f : Fault) :
    StartsApart ks (expect k f : Rule n) := by
  refine .of_head fun w r h hclean _ => ?_
  unfold expect Rule.ifAt at hclean
  split at hclean
  · next hat =>
    have hw : w.kind = k := by simpa [at?, kind?] using hat
    rwa [hw]
  · exact hclean.1.elim

theorem startsApart_commaTail {p : Rule n} (hk : .comma ∉ ks) : StartsApart ks (commaTail c p) := by
  refine .of_head fun w r h _ hne => ?_
  unfold commaTail at hne
  split at hne
  · next hw => rwa [hw]
  · exact absurd rfl hne

/-! ## one thing after the other -/

theorem retells_done : Retells ks (done : Rule n) (done : Rule m) := by
  intro ws us vs h htold
  obtain rfl := htold.eq_nil_of_done
  exact reads_done vs

theorem retells_bump : Retells ks (bump : Rule n) (bump : Rule m) := by
  intro ws us vs h htold
  cases ws with
  | nil =>
    obtain ⟨rfl, rfl⟩ := htold.eq_nil_of_nil
    exact fun _ => ⟨⟨True.intro, True.intro⟩, rfl, rfl⟩
  | cons w r =>
    obtain ⟨v, us', rfl, hv, hrest⟩ := Parsed.Told.cons htold
    obtain rfl := hrest.eq_nil_of_done
    have hreads := reads_bump (n := m) v vs
    rwa [tree_congr hv] at hreads

/-- A fault is told by nothing. -/
theorem retells_fault (f : Fault) (q : Rule m) : Retells ks (fault f : Rule n) q :=
  fun _ _ _ _ htold => htold.clean.1.elim

/-- What two rules took one after the other is told again if the first one ends where the second
one starts. -/
theorem Retells.seq_at {p q : Rule n} {p' q' : Rule m} (hp : Retells ls p p')
    (hq : Retells ks q q') {ws us vs : List Word} {h : ws.length < n}
    (htold : ((p >> q) ws h).Told ks us vs)
    (hapart : ∀ w ∈ (wordsOfAll (q _ ((p ws h).length_rest_lt h)).sketches).head?, w.kind ∉ ls)
    (hsub : ls ⊆ ks ∨ wordsOfAll (q _ ((p ws h).length_rest_lt h)).sketches ≠ []) :
    Reads (p' >> q') (us ++ vs) (treesOfAll ((p >> q) ws h).sketches) vs := by
  obtain ⟨us₁, us₂, rfl, htold₁, htold₂⟩ := htold.append hapart hsub
  have hreads := (hp h htold₁).seq (hq _ htold₂)
  rw [List.append_assoc]
  rwa [← treesOfAll_append] at hreads

theorem Retells.seq {p q : Rule n} {p' q' : Rule m} (hp : Retells ls p p') (hq : Retells ks q q')
    (hapart : StartsApart ls q) (hsub : ls ⊆ ks ∨ Firm anywhere q) :
    Retells ks (p >> q) (p' >> q') := by
  intro ws us vs h htold
  obtain ⟨-, hclean⟩ := cleanAll_append.1 htold.clean
  exact hp.seq_at hq htold (hapart _ _ hclean)
    (hsub.imp_right fun hq => Parsed.wordsOfAll_ne_nil (hq _ _ rfl hclean).2)

/-- Behind what may be followed by anything. -/
theorem Retells.before {p q : Rule n} {p' q' : Rule m} (hp : Retells [] p p')
    (hq : Retells ks q q') : Retells ks (p >> q) (p' >> q') :=
  hp.seq hq (startsApart_nil q) (.inl (List.nil_subset _))

/-- What is left behind the first of two rules meets a condition again. -/
theorem Retells.at_rest {p q : Rule n} {p' : Rule m} (hp : Retells ls p p') {ws us vs : List Word}
    {h : ws.length < n} (htold : ((p >> q) ws h).Told ks us vs)
    (hapart : ∀ w ∈ (wordsOfAll (q _ ((p ws h).length_rest_lt h)).sketches).head?, w.kind ∉ ls)
    (hsub : ls ⊆ ks ∨ wordsOfAll (q _ ((p ws h).length_rest_lt h)).sketches ≠ [])
    (hc : Reaches 1 c)
    (htakes : c (p ws h).rest = true → wordsOfAll (q _ ((p ws h).length_rest_lt h)).sketches ≠ [])
    (h' : (us ++ vs).length < m) : c (p' (us ++ vs) h').rest = c (p ws h).rest := by
  obtain ⟨us₁, us₂, rfl, htold₁, htold₂⟩ := htold.append hapart hsub
  have hrest : (p' (us₁ ++ us₂ ++ vs) h').rest = us₂ ++ vs := by
    have hreads := hp h htold₁
    rw [← List.append_assoc] at hreads
    exact (hreads h').rest
  rw [hrest]
  refine htold₂.at_eq hc fun hat => ?_
  have hne := htakes hat
  have hlen := congrArg List.length htold₂.taken
  simp only [List.length_map] at hlen
  rw [hlen]
  exact List.length_pos_iff.2 hne

theorem Retells.node {p : Rule n} {q : Rule m} (hp : Retells ks p q) (k : Kind) :
    Retells ks (Rule.node k p) (Rule.node k q) :=
  fun _ _ _ h htold => (hp h htold.node).node k

theorem Retells.ifAt {p q : Rule n} {p' q' : Rule m} (hp : Retells ks p p')
    (hq : Retells ks q q') (hc : Reaches j c) (htakes : Takes j c p) :
    Retells ks (Rule.ifAt c p q) (Rule.ifAt c p' q') := by
  intro ws us vs h htold
  have hat : c (us ++ vs) = c ws := htakes.ifAt.at_eq hc htold
  unfold Rule.ifAt at htold ⊢
  split at htold
  · next hc =>
    rw [if_pos hc]
    exact (hp h htold).ifAt (hat.trans hc)
  · next hc =>
    rw [if_neg hc]
    exact (hq h htold).ifAt_not (hat.trans (Bool.not_eq_true _ ▸ hc))

theorem Retells.optional {p : Rule n} {q : Rule m} (hp : Retells ks p q) (hc : Reaches j c)
    (htakes : Takes j c p) : Retells ks (Rule.optional c p) (Rule.optional c q) :=
  hp.ifAt retells_done hc htakes

theorem retells_eat (k : Kind) : Retells ks (eat k : Rule n) (eat k : Rule m) :=
  retells_bump.optional (reaches_at? k) (firm_bump.of_atWord rfl).takes

theorem retells_expect (k : Kind) (f : Fault) :
    Retells ks (expect k f : Rule n) (expect k f : Rule m) :=
  retells_bump.ifAt (retells_fault f _) (reaches_at? k) (firm_bump.of_atWord rfl).takes

theorem Retells.after {p : Rule n} {q : Rule m} (hp : Retells ks p q) :
    Retells ks (Rule.after p) (Rule.after q) := by
  intro ws us vs h htold
  cases ws with
  | nil =>
    obtain ⟨rfl, rfl⟩ := htold.eq_nil_of_nil
    exact fun _ => ⟨⟨True.intro, True.intro⟩, rfl, rfl⟩
  | cons w r =>
    obtain ⟨v, us', rfl, hv, hrest⟩ := Parsed.Told.cons htold
    have hreads := (hp _ hrest).after (w := v)
    rwa [tree_congr hv] at hreads

theorem Retells.advancing {p : Rule (n + 1)} {q : Rule n} {p' : Rule (m + 1)} {q' : Rule m}
    (hp : Retells [] p p') (hq : Retells ks q q') (ha : Advances c p) (ha' : Advances c p')
    (hc : Reaches 1 c) {ws us vs : List Word} (h : ws.length < n + 1) (hat : c ws = true)
    (htold : (advancing c p ha q ws h).Told ks us vs) :
    Reads (Rule.advancing c p' ha' q') (us ++ vs)
      (treesOfAll (advancing c p ha q ws h).sketches) vs := by
  unfold Rule.advancing at htold ⊢
  rw [dif_pos hat] at htold ⊢
  have hat' := htold.at_eq hc fun _ => by
    have hlen := htold.length_eq
    have := ha ws h hat
    have := (q (p ws h).rest (Nat.lt_of_lt_of_le this (Nat.le_of_lt_succ h))).length_rest_le
    simp only [Parsed.rest_append] at hlen
    omega
  obtain ⟨us₁, us₂, rfl, htold₁, htold₂⟩ := htold.split
  rw [List.append_assoc] at hat' ⊢
  have hreads := (hp h htold₁).advancing ha' (hat'.trans hat) (hq _ htold₂)
  rwa [← treesOfAll_append] at hreads

/-! ## loops -/

theorem many_of_at {p : Rule n} (ha : Advances c p) {ws : List Word} (h : ws.length < n)
    (hat : c ws = true) : Rule.many c p ha ws h =
      (p ws h).append (Rule.many c p ha (p ws h).rest ((p ws h).length_rest_lt h)) := by
  rw [Rule.many, dif_pos hat]

theorem many_of_not {p : Rule n} (ha : Advances c p) {ws : List Word} (h : ws.length < n)
    (hat : c ws = false) : Rule.many c p ha ws h = .done ws := by
  rw [Rule.many, dif_neg (by simp [hat])]

theorem StartsApart.many {p : Rule n} (ha : Advances c p)
    (hc : ∀ w r, c (w :: r) = true → w.kind ∉ ks) : StartsApart ks (Rule.many c p ha) := by
  refine .of_head fun w r h _ hne => ?_
  cases hat : c (w :: r) with
  | true => exact hc w r hat
  | false =>
    rw [many_of_not ha h hat] at hne
    exact absurd rfl hne

theorem Retells.many {p : Rule n} {q : Rule m} (hp : Retells ls p q) (ha : Advances c p)
    (ha' : Advances c q) (hc : Reaches 1 c) (hapart : ∀ w r, c (w :: r) = true → w.kind ∉ ls)
    (hsub : ls ⊆ ks) : Retells ks (Rule.many c p ha) (Rule.many c q ha') := by
  intro ws us vs h htold
  induction hlen : ws.length using Nat.strongRecOn generalizing ws us with
  | ind l ih =>
    subst hlen
    have hat : c (us ++ vs) = c ws := (advances_many ha).takes.at_eq hc htold
    cases hws : c ws with
    | true =>
      rw [many_of_at ha h hws] at htold ⊢
      obtain ⟨us₁, us₂, rfl, htold₁, htold₂⟩ := htold.append
        (StartsApart.many ha hapart _ _ (cleanAll_append.1 htold.clean).2) (.inl hsub)
      rw [List.append_assoc] at hat ⊢
      have hreads := (hp h htold₁).many ha' (hat.trans hws) (ih _ (ha ws h hws) _ htold₂ rfl)
      rwa [← treesOfAll_append] at hreads
    | false =>
      rw [many_of_not ha h hws] at htold ⊢
      obtain rfl := htold.eq_nil_of_done
      exact reads_many_not ha' (hat.trans hws)

theorem whileAt_of_at {p : Rule n} {w : Word} {r : List Word} (h : (w :: r).length < n)
    (hat : c (w :: r) = true) : Rule.whileAt c p (w :: r) h =
      .cons w ((p r (Nat.lt_of_succ_lt h)).append (Rule.whileAt c p _
        ((p r (Nat.lt_of_succ_lt h)).length_rest_lt (Nat.lt_of_succ_lt h)))) := by
  rw [Rule.whileAt, if_pos hat]

theorem StartsApart.whileAt {p : Rule n} (hc : ∀ w r, c (w :: r) = true → w.kind ∉ ks) :
    StartsApart ks (Rule.whileAt c p) := by
  refine .of_head fun w r h _ hne => ?_
  cases hat : c (w :: r) with
  | true => exact hc w r hat
  | false =>
    rw [whileAt_not hat h] at hne
    exact absurd rfl hne

/-- A loop that starts takes what its first step takes. -/
theorem takes_whileAt {p : Rule n}
    (hj : ∀ w r h, c (w :: r) = true → CleanAll (p r h).sketches →
      (p r h).rest.length + j ≤ (w :: r).length) {w : Word} {r : List Word}
    (h : (w :: r).length < n) (hat : c (w :: r) = true)
    (hclean : CleanAll (Rule.whileAt c p (w :: r) h).sketches) :
    (Rule.whileAt c p (w :: r) h).rest.length + j ≤ (w :: r).length := by
  rw [whileAt_of_at h hat] at hclean ⊢
  have hfirst := hj w r (Nat.lt_of_succ_lt h) hat (cleanAll_append.1 hclean.2).1
  have hless := (Rule.whileAt c p _ ((p r (Nat.lt_of_succ_lt h)).length_rest_lt
    (Nat.lt_of_succ_lt h))).length_rest_le
  exact (Nat.add_le_add_right hless j).trans hfirst

theorem Retells.whileAt {p : Rule n} {q : Rule m} (hp : Retells ls p q) (hc : Reaches j c)
    (hj : ∀ w r h, c (w :: r) = true → CleanAll (p r h).sketches →
      (p r h).rest.length + j ≤ (w :: r).length)
    (hapart : ∀ w r, c (w :: r) = true → w.kind ∉ ls) (hsub : ls ⊆ ks) :
    Retells ks (Rule.whileAt c p) (Rule.whileAt c q) := by
  intro ws us vs h htold
  induction hlen : ws.length using Nat.strongRecOn generalizing ws us with
  | ind l ih =>
    subst hlen
    cases ws with
    | nil =>
      obtain ⟨rfl, rfl⟩ := htold.eq_nil_of_nil
      intro h'
      unfold Rule.whileAt
      exact reads_done [] h'
    | cons w r =>
      have hat : c (us ++ vs) = c (w :: r) := htold.at_eq hc fun hws => by
        have hlen := htold.length_eq
        have := takes_whileAt hj h hws htold.clean
        omega
      cases hws : c (w :: r) with
      | true =>
        rw [whileAt_of_at h hws] at htold ⊢
        obtain ⟨v, us', rfl, hv, hrest⟩ := Parsed.Told.cons htold
        obtain ⟨us₁, us₂, rfl, htold₁, htold₂⟩ := hrest.append
          (StartsApart.whileAt hapart _ _ (cleanAll_append.1 hrest.clean).2) (.inl hsub)
        rw [List.cons_append, List.append_assoc] at hat ⊢
        have hless : (p r (Nat.lt_of_succ_lt h)).rest.length < (w :: r).length :=
          Nat.lt_succ_of_le (Parsed.length_rest_le _)
        have hreads := (hp _ htold₁).whileAt (hat.trans hws) (ih _ hless _ htold₂ rfl)
        rw [← treesOfAll_append, tree_congr hv] at hreads
        exact hreads
      | false =>
        rw [whileAt_not hws] at htold ⊢
        obtain rfl := htold.eq_nil_of_done
        exact reads_whileAt_not (hat.trans hws)

/-- Behind a loop holds what holds before it and behind each step. -/
theorem rest_whileAt {I : List Word → Prop} {p : Rule n}
    (hp : ∀ r h, I (p r h).rest) (ws : List Word) (h : ws.length < n) (hI : I ws) :
    I (Rule.whileAt c p ws h).rest := by
  induction hlen : ws.length using Nat.strongRecOn generalizing ws with
  | ind l ih =>
    subst hlen
    cases ws with
    | nil =>
      rw [Rule.whileAt]
      exact hI
    | cons w r =>
      cases hat : c (w :: r) with
      | true =>
        rw [whileAt_of_at h hat]
        exact ih _ (Nat.lt_succ_of_le (Parsed.length_rest_le _)) _ _ (hp r _) rfl
      | false =>
        rw [whileAt_not hat]
        exact hI

theorem wordsOfAll_whileAt_ne_nil {p : Rule n} {ws : List Word} {h : ws.length < n}
    (hnil : c [] = false) (hat : c ws = true) :
    wordsOfAll (Rule.whileAt c p ws h).sketches ≠ [] := by
  cases ws with
  | nil => simp [hnil] at hat
  | cons w r =>
    rw [whileAt_of_at h hat]
    exact List.cons_ne_nil _ _

/-! ## lists with commas -/

/-- Where a condition holds, an element of a list takes a word if it finds no fault, or there is a
comma. -/
def TakesItem (c : List Word → Bool) (p : Rule n) : Prop :=
  ∀ ws h, c ws = true → CleanAll (p ws h).sketches →
    at? .comma ws = true ∨ (p ws h).rest.length < ws.length

theorem Firm.takesItem {p : Rule n} (hp : Firm c p) : TakesItem c p :=
  fun ws h hc hclean => .inr (hp ws h hc hclean).2

theorem commaTail_of_comma {p : Rule n} {w : Word} {r : List Word} (h : (w :: r).length < n)
    (hw : w.kind = .comma) (hat : c r = true) : commaTail c p (w :: r) h =
      .cons w ((p r (Nat.lt_of_succ_lt h)).append (commaTail c p _
        ((p r (Nat.lt_of_succ_lt h)).length_rest_lt (Nat.lt_of_succ_lt h)))) := by
  rw [commaTail, if_pos hw, if_pos hat]

theorem commaTail_of_last {p : Rule n} {w : Word} {r : List Word} (h : (w :: r).length < n)
    (hw : w.kind = .comma) (hat : c r = false) : commaTail c p (w :: r) h = .take w r := by
  rw [commaTail, if_pos hw, if_neg (by simp [hat])]

theorem commaTail_of_not {p : Rule n} {ws : List Word} (h : ws.length < n)
    (hat : at? .comma ws = false) : commaTail c p ws h = .done ws := by
  cases ws with
  | nil => rw [commaTail]
  | cons w r =>
    have hw : w.kind ≠ .comma := by simpa [at?, kind?] using hat
    rw [commaTail, if_neg hw]

theorem advances_commaTail (c : List Word → Bool) (p : Rule n) :
    Advances (at? .comma) (commaTail c p) := by
  intro ws h hcomma
  cases ws with
  | nil => cases hcomma
  | cons w r =>
    have hw : w.kind = .comma := by simpa [at?, kind?] using hcomma
    cases hat : c r with
    | true =>
      rw [commaTail_of_comma h hw hat]
      exact Nat.lt_succ_of_le (Parsed.length_rest_le (Parsed.append _ _))
    | false =>
      rw [commaTail_of_last h hw hat]
      exact Nat.lt_succ_self _

/-- The elements of a list take a word. -/
theorem takes_elements {p : Rule n} (hp : TakesItem c p) : Takes 1 c (p >> commaTail c p) := by
  intro ws h hc hclean
  have hle := (p ws h).length_rest_le
  have htail := (commaTail c p _ ((p ws h).length_rest_lt h)).length_rest_le
  show (commaTail c p _ ((p ws h).length_rest_lt h)).rest.length + 1 ≤ ws.length
  obtain hcomma | hless := hp ws h hc (cleanAll_append.1 hclean).1
  · obtain hlt | hge := Nat.lt_or_ge (p ws h).rest.length ws.length
    · omega
    · -- nothing is taken before the comma
      have hsuffix : (p ws h).rest <:+ ws := ⟨_, (p ws h).covers⟩
      have hat : at? .comma (p ws h).rest = true := by rwa [hsuffix.eq_of_length_le hge]
      have := advances_commaTail c p _ ((p ws h).length_rest_lt h) hat
      omega
  · omega

theorem Retells.commaTail {p : Rule n} {q : Rule m} (hp : Retells ls p q) (hitem : TakesItem c p)
    (hc : Reaches 1 c) (hcomma : .comma ∉ ls) (hsub : ls ⊆ ks) :
    Retells ks (Rule.commaTail c p) (Rule.commaTail c q) := by
  intro ws us vs h htold
  induction hlen : ws.length using Nat.strongRecOn generalizing ws us with
  | ind l ih =>
    subst hlen
    -- whether a comma comes next is seen in the words that are told again
    have hat : at? .comma (us ++ vs) = at? .comma ws :=
      (advances_commaTail c p).takes.at_eq (reaches_at? _) htold
    cases hws : at? .comma ws with
    | false =>
      rw [commaTail_of_not h hws] at htold ⊢
      obtain rfl := htold.eq_nil_of_done
      rw [List.nil_append, hws] at hat
      rw [List.nil_append]
      intro h'
      rw [commaTail_of_not h' hat]
      exact reads_done vs h'
    | true =>
      cases ws with
      | nil => cases hws
      | cons w r =>
        have hw : w.kind = .comma := by simpa [at?, kind?] using hws
        have hr := Nat.lt_of_succ_lt h
        cases hcr : c r with
        | true =>
          rw [commaTail_of_comma h hw hcr] at htold ⊢
          obtain ⟨v, us', rfl, hv, hrest⟩ := Parsed.Told.cons htold
          have hcr' : c (us' ++ vs) = c r := (takes_elements hitem).at_eq hc (h := hr) hrest
          obtain ⟨us₁, us₂, rfl, htold₁, htold₂⟩ := hrest.append
            (startsApart_commaTail hcomma _ _ (cleanAll_append.1 hrest.clean).2) (.inl hsub)
          rw [List.cons_append, List.append_assoc]
          rw [List.append_assoc] at hcr'
          have hless : (p r hr).rest.length < (w :: r).length :=
            Nat.lt_succ_of_le (Parsed.length_rest_le _)
          have hreads := (hp _ htold₁).commaTail ((kind_congr hv).trans hw) (hcr'.trans hcr)
            (ih _ hless _ htold₂ rfl)
          rw [← treesOfAll_append, tree_congr hv] at hreads
          exact hreads
        | false =>
          rw [commaTail_of_last h hw hcr] at htold ⊢
          obtain ⟨v, us', rfl, hv, hrest⟩ := Parsed.Told.cons htold
          have hcr' := hrest.at_eq hc (by simp [hcr])
          obtain rfl := hrest.eq_nil_of_done
          rw [List.cons_append, List.nil_append]
          intro h'
          rw [commaTail_of_last h' ((kind_congr hv).trans hw) (hcr'.trans hcr)]
          have hreads := reads_bump v vs h'
          rwa [tree_congr hv] at hreads

theorem Retells.commaList {p : Rule n} {q : Rule m} (hp : Retells ls p q) (hitem : TakesItem c p)
    (hc : Reaches 1 c) (hcomma : .comma ∉ ls) (hsub : ls ⊆ ks) :
    Retells ks (Rule.commaList c p) (Rule.commaList c q) :=
  (hp.seq (hp.commaTail hitem hc hcomma hsub) (startsApart_commaTail hcomma) (.inl hsub)).optional
    hc (takes_elements hitem)

end Rule

end Grammar

end SwiftOutline

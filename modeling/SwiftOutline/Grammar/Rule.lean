import SwiftOutline.Sketch

/-!
# SwiftOutline.Grammar.Rule

Rules of the grammar: total functions from the words that are left to a sketch of some of
them and the words after those.

* `Parsed` — a sketch together with the proof that it covers what it took: no rule drops,
  repeats or invents a word;
* `Rule n` — a rule on fewer than `n` words. A construct that holds others of its own kind is
  a rule on `n + 1` words that is given the rule for what it holds on `n`, so recursion
  through brackets is recursion on the number of words;
* `Rule.after` — the step from the one to the other: take a word, then go on;
* `Rule.many` — a loop, which needs that its body advances.

Sequences are written `p >> q`.
-/

namespace SwiftOutline.Grammar

/-- A sketch of the first of some words, and the words after it. -/
structure Parsed (ws : List Word) where
  sketches : List Sketch
  rest : List Word
  covers : Sketch.wordsOfAll sketches ++ rest = ws

namespace Parsed

variable {ws : List Word}

theorem length_rest_le (p : Parsed ws) : p.rest.length ≤ ws.length := by
  have h := congrArg List.length p.covers
  rw [List.length_append] at h
  omega

/-- Nothing is taken. -/
def done (ws : List Word) : Parsed ws := ⟨[], ws, rfl⟩

/-- A mark that takes no word. -/
def mark (s : Sketch) (h : s.words = []) (ws : List Word) : Parsed ws :=
  ⟨[s], ws, by simp [h]⟩

/-- A word before a sketch. -/
def cons {r : List Word} (w : Word) (p : Parsed r) : Parsed (w :: r) :=
  ⟨.word w :: p.sketches, p.rest, by simp [p.covers]⟩

/-- One word is taken. -/
def take (w : Word) (r : List Word) : Parsed (w :: r) := cons w (done r)

/-- One sketch after the other. -/
def append (p : Parsed ws) (q : Parsed p.rest) : Parsed ws :=
  ⟨p.sketches ++ q.sketches, q.rest, by
    rw [Sketch.wordsOfAll_append, List.append_assoc, q.covers, p.covers]⟩

/-- A node around a sketch. -/
def node (k : Kind) (p : Parsed ws) : Parsed ws :=
  ⟨[.node k p.sketches], p.rest, by simpa using p.covers⟩

@[simp] theorem rest_done : (done ws).rest = ws := rfl

@[simp] theorem rest_mark (s : Sketch) (h : s.words = []) : (mark s h ws).rest = ws := rfl

@[simp] theorem rest_cons {r : List Word} (w : Word) (p : Parsed r) :
    (cons w p).rest = p.rest := rfl

@[simp] theorem rest_take (w : Word) (r : List Word) : (take w r).rest = r := rfl

@[simp] theorem rest_append (p : Parsed ws) (q : Parsed p.rest) :
    (p.append q).rest = q.rest := rfl

@[simp] theorem rest_node (k : Kind) (p : Parsed ws) : (node k p).rest = p.rest := rfl

theorem length_rest_lt (p : Parsed ws) {n : Nat} (h : ws.length < n) : p.rest.length < n :=
  Nat.lt_of_le_of_lt p.length_rest_le h

theorem length_rest_append_lt {p : Parsed ws} {q : Parsed p.rest} {n : Nat}
    (h : p.rest.length < n) : (p.append q).rest.length < n :=
  q.length_rest_lt h

end Parsed

/-! ## what stands next -/

/-- The kind of the next word. -/
def kind? (ws : List Word) : Option Kind := ws.head?.map (·.kind)

/-- Whether the next word is of a kind. -/
def at? (k : Kind) (ws : List Word) : Bool := kind? ws == some k

/-- Whether the next word is of one of some kinds. -/
def atAny (ks : List Kind) (ws : List Word) : Bool := (kind? ws).any ks.contains

/-- Whether the next word is an identifier spelled in one of some ways. -/
def atName (names : List String) (ws : List Word) : Bool :=
  ws.head?.any fun w => w.kind == .identifier && names.contains w.text

/-- Whether the next word is joined to the one before it. -/
def isJoined (ws : List Word) : Bool := ws.head?.any (·.joined)

/-- Whether words of two kinds stand next. -/
def atPair (a b : Kind) (ws : List Word) : Bool := at? a ws && at? b ws.tail

/-- Whether a word is left. -/
def atWord (ws : List Word) : Bool := !ws.isEmpty

/-- Whether a word is left that is of none of some kinds. -/
def atOther (ks : List Kind) (ws : List Word) : Bool := atWord ws && !atAny ks ws

/-- Whether a parenthesis opens right after the word before it. -/
def atJoinedParen (ws : List Word) : Bool := at? .openParen ws && isJoined ws

/-! ## rules -/

/-- A rule on fewer than `n` words. -/
def Rule (n : Nat) : Type := (ws : List Word) → ws.length < n → Parsed ws

namespace Rule

variable {n : Nat}

/-- Take nothing. -/
def done : Rule n := fun ws _ => .done ws

/-- Report a fault at the next word. -/
def fault (f : Fault) : Rule n := fun ws _ => .mark (.fault f) rfl ws

/-- Leave room for trivia. -/
def gap : Rule n := fun ws _ => .mark .gap rfl ws

/-- Take the next word; at the end, only leave room for the trivia there. -/
def bump : Rule n
  | [], _ => .mark .gap rfl []
  | w :: r, _ => .take w r

/-- One rule after the other. -/
def seq (p q : Rule n) : Rule n := fun ws h =>
  (p ws h).append (q _ ((p ws h).length_rest_lt h))

instance : AndThen (Rule n) := ⟨fun p q => seq p (q ())⟩

/-- A node around what a rule takes. -/
def node (k : Kind) (p : Rule n) : Rule n := fun ws h => (p ws h).node k

/-- One rule or another, by what stands next. -/
def ifAt (c : List Word → Bool) (p q : Rule n) : Rule n := fun ws h =>
  if c ws then p ws h else q ws h

/-- A rule that applies only if the right words stand next. -/
def optional (c : List Word → Bool) (p : Rule n) : Rule n := ifAt c p done

/-- Take the next word if it is of a kind. -/
def eat (k : Kind) : Rule n := optional (at? k) bump

/-- Take the next word if it is of a kind, else report a fault. -/
def expect (k : Kind) (f : Fault) : Rule n := ifAt (at? k) bump (fault f)

/-- Deal with the next word and the fewer words after it; at the end, only leave room for the
trivia there. -/
def onWord (p : (w : Word) → (r : List Word) → r.length < n → Parsed (w :: r)) : Rule (n + 1)
  | [], _ => .mark .gap rfl []
  | w :: r, h => p w r (Nat.lt_of_succ_lt_succ h)

/-- Take the next word, then go on with a rule that needs fewer words; at the end, only leave
room for the trivia there. -/
def after (p : Rule n) : Rule (n + 1) := onWord fun w r h => .cons w (p r h)

/-! ## advancing -/

/-- A rule takes at least one word wherever a condition holds. -/
def Advances (c : List Word → Bool) (p : Rule n) : Prop :=
  ∀ ws h, c ws = true → (p ws h).rest.length < ws.length

theorem Advances.node {c : List Word → Bool} {p : Rule n} (hp : Advances c p) (k : Kind) :
    Advances c (node k p) := hp

theorem Advances.seq {c : List Word → Bool} {p : Rule n} (hp : Advances c p) (q : Rule n) :
    Advances c (seq p q) := fun ws h hc =>
  Nat.lt_of_le_of_lt (Parsed.length_rest_le (q (p ws h).rest _)) (hp ws h hc)

theorem Advances.mono {c d : List Word → Bool} {p : Rule n} (hp : Advances d p)
    (h : ∀ ws, c ws = true → d ws = true) : Advances c p := fun ws hn hc => hp ws hn (h ws hc)

/-- A condition that does not hold at the end holds only where a word is left. -/
theorem Advances.of_atWord {c : List Word → Bool} {p : Rule n} (hp : Advances atWord p)
    (hc : c [] = false := by rfl) : Advances c p := hp.mono fun ws h => by
  cases ws with
  | nil => simp [hc] at h
  | cons w r => rfl

/-- Taking a word advances wherever there is one. -/
theorem advances_bump : Advances atWord (bump : Rule n) := fun ws _ h => by
  cases ws with
  | nil => simp [atWord] at h
  | cons w r => exact Nat.lt_succ_self _

theorem advances_after (p : Rule n) : Advances atWord (after p) := fun ws _ h => by
  cases ws with
  | nil => simp [atWord] at h
  | cons w r => exact Nat.lt_succ_of_le (Parsed.length_rest_le (p r _))

theorem atWord_of_length_le {ws r : List Word} (hw : atWord ws = true)
    (h : ws.length ≤ r.length) : atWord r = true := by
  cases ws with
  | nil => simp [atWord] at hw
  | cons =>
    cases r with
    | nil => simp at h
    | cons => rfl

/-- A sequence advances if its second part does: either the first part took something or the
second one stands at the same word. -/
theorem Advances.seq_right {q : Rule n} (hq : Advances atWord q) (p : Rule n) :
    Advances atWord (Rule.seq p q) := fun ws h hc => by
  have hp := (p ws h).length_rest_le
  rcases Nat.lt_or_ge (p ws h).rest.length ws.length with hlt | hge
  · exact Parsed.length_rest_append_lt hlt
  · exact Nat.lt_of_lt_of_le (hq _ _ (atWord_of_length_le hc hge)) hp

theorem Advances.ifAt {c d : List Word → Bool} {p q : Rule n} (hp : Advances c p)
    (hq : Advances c q) : Advances c (ifAt d p q) := fun ws h hc => by
  unfold Rule.ifAt
  split
  · exact hp ws h hc
  · exact hq ws h hc

/-- A rule behind a condition advances where it holds, another one wherever it may stand. -/
theorem advances_ifAt {c d : List Word → Bool} {p q : Rule n} (hp : Advances d p)
    (hq : Advances c q) : Advances c (ifAt d p q) := fun ws h hc => by
  unfold Rule.ifAt
  split
  · next hd => exact hp ws h hd
  · exact hq ws h hc

theorem advances_optional {c : List Word → Bool} {p : Rule n} (hp : Advances c p) :
    Advances c (optional c p) := fun ws h hc => by
  unfold Rule.optional Rule.ifAt
  rw [if_pos hc]
  exact hp ws h hc

/-- A rule that advances where a condition holds, then one that needs fewer words. -/
def advancing (c : List Word → Bool) (p : Rule (n + 1)) (hp : Advances c p) (q : Rule n) :
    Rule (n + 1) := fun ws h =>
  if hc : c ws = true then
    (p ws h).append (q (p ws h).rest
      (Nat.lt_of_lt_of_le (hp ws h hc) (Nat.le_of_lt_succ h)))
  else p ws h

/-! ## loops -/

/-- Repeat a rule while a condition holds. -/
def many (c : List Word → Bool) (p : Rule n) (hp : Advances c p) : Rule n := fun ws h =>
  if hc : c ws = true then
    have := hp ws h hc
    (p ws h).append (many c p hp (p ws h).rest (Nat.lt_trans this h))
  else .done ws
  termination_by ws => ws.length

theorem advances_many {c : List Word → Bool} {p : Rule n} (hp : Advances c p) :
    Advances c (many c p hp) := fun ws h hc => by
  unfold Rule.many
  rw [dif_pos hc]
  exact Parsed.length_rest_append_lt (hp ws h hc)

/-- While a condition holds and words are left, take one and apply a rule. -/
def whileAt (c : List Word → Bool) (p : Rule n) : Rule n
  | [], _ => .done []
  | w :: r, h =>
    if c (w :: r) then
      let q := p r (Nat.lt_trans (Nat.lt_succ_self _) h)
      have hq : q.rest.length < r.length + 1 := Nat.lt_succ_of_le q.length_rest_le
      .cons w (q.append (whileAt c p q.rest (Nat.lt_trans hq h)))
    else .done (w :: r)
  termination_by ws => ws.length
  decreasing_by exact hq

/-- What may follow an element of a list: a comma, and after it another element while a
condition holds. -/
def commaTail (c : List Word → Bool) (element : Rule n) : Rule n
  | [], _ => .done []
  | w :: r, h =>
    if w.kind = .comma then
      if c r then
        let p := element r (Nat.lt_trans (Nat.lt_succ_self _) h)
        have hp : p.rest.length < r.length + 1 := Nat.lt_succ_of_le p.length_rest_le
        .cons w (p.append (commaTail c element p.rest (Nat.lt_trans hp h)))
      else .take w r
    else .done (w :: r)
  termination_by ws => ws.length
  decreasing_by exact hp

/-- Elements with commas between them. Every element, the first one too, is there only if a
condition holds; without a comma after an element the list ends. -/
def commaList (c : List Word → Bool) (element : Rule n) : Rule n :=
  optional c (element >> commaTail c element)

end Rule

end SwiftOutline.Grammar

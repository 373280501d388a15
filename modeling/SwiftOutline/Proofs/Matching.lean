import SwiftOutline.Proofs.Bounds
import SwiftOutline.Proofs.Call
import SwiftOutline.Proofs.Progress

/-!
# SwiftOutline.Proofs.Matching

Where a group in brackets ends: for the look ahead, which measures it by index, and for the cursor,
which takes it word by word and hands on the trivia between.

* `GroupBounds` — the length of a group: up to the bracket that closes its first word if the
  brackets between match, else up to the first place with as many closing as opening brackets of
  any shape, or up to the end; a word that opens nothing is a group of its own;
* `groupBounds_groupLength` — the length that is measured is that of the group;
* `Cursor.measureTurn`, `Cursor.takeTurn` — the two loops, turn by turn;
* `group_measured` — from every cursor both come to an end after as many turns, and the cursor
  passes as many words as are measured.
-/

namespace SwiftOutline

open Grammar

/-! ## bounds -/

/-- Where the group that stands next ends: `n` is the number of its words. -/
structure GroupBounds (ws : List Word) (n : Nat) : Prop where
  within : n ≤ ws.length
  /-- A group in which the brackets match ends with the one that closes its first word. -/
  closed : ∀ o inner c r, ws = o :: (inner ++ c :: r) → o.kind.closer? = some c.kind →
    matched [] (inner.map (·.kind)) = true → n = inner.length + 2
  /-- Any group ends where it has as many closing as opening brackets, and has not before, or it
  goes on up to the end. -/
  first : ∀ w r, ws = w :: r → w.kind.isOpener = true → n ≠ 0 ∧
    (∀ pre post, ws = pre ++ post → pre ≠ [] → pre.length < n → closers pre ≠ openers pre) ∧
      (closers (ws.take n) = openers (ws.take n) ∨ n = ws.length)
  /-- Any other word is a group of its own. -/
  single : ∀ w r, ws = w :: r → w.kind.isOpener = false → n = 1

/-- A bracket that has a closing one opens a group, which the closing one ends. -/
theorem Kind.of_closer? {o c : Kind} (h : o.closer? = some c) :
    o.isOpener = true ∧ depthAfter 1 c = 0 := by
  unfold closer? at h
  split at h <;> cases h <;> exact ⟨rfl, rfl⟩

namespace Grammar

theorem groupLengthFrom_le (depth : Nat) (ws : List Word) :
    groupLengthFrom depth ws ≤ ws.length := by
  induction ws generalizing depth with
  | nil => exact Nat.le_refl _
  | cons w r ih =>
    obtain hzero | hpos := Nat.eq_zero_or_pos (depthAfter depth w.kind)
    · rw [groupLengthFrom_of_zero r hzero]
      exact Nat.succ_le_succ (Nat.zero_le _)
    · rw [groupLengthFrom_of_pos r hpos]
      exact Nat.succ_le_succ (ih _)

/-- A word that opens nothing is a group of its own. -/
theorem groupLength_of_not_isOpener {w : Word} (r : List Word) (h : w.kind.isOpener = false) :
    groupLength (w :: r) = 1 := by
  refine groupLengthFrom_of_zero r ?_
  rw [depthAfter, h]
  split
  · contradiction
  · split <;> rfl

/-- A group in which the brackets match goes on up to the one that closes its first word. -/
theorem groupLength_of_matched {o c : Word} {inner : List Word} (r : List Word)
    (hclosed : o.kind.closer? = some c.kind) (h : matched [] (inner.map (·.kind)) = true) :
    groupLength (o :: (inner ++ c :: r)) = inner.length + 2 := by
  obtain ⟨hopen, hzero⟩ := Kind.of_closer? hclosed
  obtain ⟨hinside, hdepth⟩ :=
    inside_of_matched h (show Inside 1 [c] from ⟨Nat.one_ne_zero, trivial⟩)
  have hne : inner ++ [c] ≠ [] := List.append_ne_nil_of_right_ne_nil _ (List.cons_ne_nil _ _)
  have hlength := groupLengthFrom_of_inside hinside hne (hdepth.trans hzero) r
  rw [List.append_assoc, List.length_append] at hlength
  rw [groupLength_of_isOpener _ hopen]
  exact congrArg (· + 1) hlength

end Grammar

/-- Before a group is left, some of the brackets that were open still are. -/
theorem closers_lt_of_lt_groupLengthFrom {depth : Nat} (hd : 0 < depth) {pre post : List Word}
    (h : pre.length < groupLengthFrom depth (pre ++ post)) :
    closers pre < depth + openers pre := by
  induction pre generalizing depth with
  | nil => exact hd
  | cons w pre ih =>
    have hcount : depthAfter depth w.kind + closers [w] = depth + openers [w] :=
      depthAfter_add_closers fun _ => Nat.ne_of_gt hd
    rw [List.cons_append] at h
    obtain hzero | hpos := Nat.eq_zero_or_pos (depthAfter depth w.kind)
    · rw [groupLengthFrom_of_zero _ hzero, List.length_cons] at h
      omega
    · rw [groupLengthFrom_of_pos _ hpos, List.length_cons] at h
      have hrest := ih hpos (by omega)
      rw [openers_cons, closers_cons]
      omega

/-- Where a group is left, all brackets that were open are closed, or the words end. -/
theorem closers_take_groupLengthFrom {depth : Nat} (hd : 0 < depth) (ws : List Word) :
    closers (ws.take (groupLengthFrom depth ws)) =
        depth + openers (ws.take (groupLengthFrom depth ws)) ∨
      groupLengthFrom depth ws = ws.length := by
  induction ws generalizing depth with
  | nil => exact .inr rfl
  | cons w r ih =>
    have hcount : depthAfter depth w.kind + closers [w] = depth + openers [w] :=
      depthAfter_add_closers fun _ => Nat.ne_of_gt hd
    obtain hzero | hpos := Nat.eq_zero_or_pos (depthAfter depth w.kind)
    · left
      rw [groupLengthFrom_of_zero _ hzero, List.take_succ_cons, List.take_zero]
      omega
    · rw [groupLengthFrom_of_pos _ hpos, List.take_succ_cons, List.length_cons, openers_cons,
        closers_cons]
      obtain hcounts | hend := ih hpos
      · left
        omega
      · right
        rw [hend]

/-- The length that is measured is the one that a group has. -/
theorem groupBounds_groupLength (ws : List Word) : GroupBounds ws (groupLength ws) where
  within := groupLengthFrom_le 0 ws
  closed := by
    rintro o inner c r rfl hclosed hinner
    exact groupLength_of_matched r hclosed hinner
  first := by
    rintro w r rfl hopen
    have hopeners : openers [w] = 1 := by simp [openers, hopen]
    have hclosers : closers [w] = 0 := by
      simp [closers, Kind.isCloser_eq_false_of_isOpener hopen]
    rw [groupLength_of_isOpener r hopen]
    refine ⟨Nat.succ_ne_zero _, ?_, ?_⟩
    · intro pre post hsplit hne hlt
      obtain ⟨v, pre, rfl⟩ := List.exists_cons_of_ne_nil hne
      obtain ⟨rfl, rfl⟩ := List.cons.inj hsplit
      rw [List.length_cons] at hlt
      have hrest := closers_lt_of_lt_groupLengthFrom Nat.one_pos (Nat.lt_of_succ_lt_succ hlt)
      rw [openers_cons, closers_cons]
      omega
    · rw [List.take_succ_cons, openers_cons, closers_cons, List.length_cons]
      obtain hcounts | hend := closers_take_groupLengthFrom Nat.one_pos r
      · left
        omega
      · right
        rw [hend]
  single := by
    rintro w r rfl hnot
    exact groupLength_of_not_isOpener r hnot

/-! ## two loops -/

theorem sketches_groupFrom_of_zero {depth : Nat} {w : Word} (r : List Word)
    (h : depthAfter depth w.kind = 0) : (groupFrom depth (w :: r)).sketches = [.word w] := by
  rw [groupFrom, h]
  rfl

theorem sketches_groupFrom_of_succ {depth d : Nat} {w : Word} (r : List Word)
    (h : depthAfter depth w.kind = d + 1) :
    (groupFrom depth (w :: r)).sketches = .word w :: (groupFrom (d + 1) r).sketches := by
  rw [groupFrom, h]
  rfl

namespace Cursor

variable (source : String)

/-- A turn of the loop that measures a group ahead of a cursor, at a bracket depth and a number of
words; it fails where a look leaves its range. -/
def measureTurn (c : Cursor) : Nat × Nat → Turn (Nat × Nat) (Option Nat)
  | (depth, i) =>
    match nthKind? source c i with
    | none => .leave none
    | some none => .leave (some i)
    | some (some k) =>
      match depthAfter depth k with
      | 0 => .leave (some (i + 1))
      | d + 1 => .again (d + 1, i + 1)

/-- A turn of the loop that takes a group, at a bracket depth; it fails where a look or a move
leaves its range. -/
def takeTurn : Nat × Cursor → Turn (Nat × Cursor) (Option Cursor)
  | (depth, c) =>
    match nthKind? source c 0 with
    | none => .leave none
    | some none => .leave (some c)
    | some (some k) =>
      match bump? source c with
      | none => .leave none
      | some c' =>
        match depthAfter depth k with
        | 0 => .leave (some c')
        | d + 1 => .again (d + 1, c')

variable {source}

/-- Passing a word leaves the words behind it. -/
theorem At.exists_bump? {c : Cursor} {front rest : List Placed} (h : At source c front rest)
    {w : Word} {r : List Word} (hleft : left source c = w :: r) :
    ∃ c' front' rest', bump? source c = some c' ∧ At source c' front' rest' ∧
      left source c' = r := by
  have hw : Sketch.wordsOfAll [.word w] ++ r = left source c := hleft.symm
  obtain ⟨c', front', rest', hplay, hat, hr⟩ := playAll?_left (fun _ _ => none) h hw
  refine ⟨c', front', rest', ?_, hat, hr⟩
  rw [playAll?, play?] at hplay
  obtain ⟨c₁, hbump, hend⟩ := Option.bind_eq_some_iff.1 hplay
  rw [playAll?] at hend
  rw [hbump]
  exact hend

/-- Measuring from some word on and taking from the same word on go turn by turn: both are left
after as many turns, one with the words that the group has, the other behind them. The moves are
those that draw the words of the group. -/
theorem runs_measureTurn_takeTurn (opening : Kind → List Sketch → Option Nat) (start : Cursor)
    {ws : List Word} {i : Nat} (hi : (left source start).drop i = ws) (depth : Nat) {c : Cursor}
    {front rest : List Placed} (h : At source c front rest) (hleft : left source c = ws) :
    ∃ k c' front' rest',
      Runs (measureTurn source start) (depth, i) k (some (i + groupLengthFrom depth ws)) ∧
        Runs (takeTurn source) (depth, c) k (some c') ∧
        playAll? source opening none (groupFrom depth ws).sketches c = some c' ∧
        At source c' front' rest' ∧ left source c' = ws.drop (groupLengthFrom depth ws) := by
  have hmeasured : nthKind? source start i = some (kind? ws) := by rw [nthKind?_eq, hi]
  have htaken : nthKind? source c 0 = some (kind? ws) := by rw [nthKind?_eq, hleft]; rfl
  induction ws generalizing i depth c front rest with
  | nil =>
    refine ⟨0, c, front, rest, .leave ?_, .leave ?_, rfl, h, hleft⟩
    · rw [measureTurn, hmeasured]
      rfl
    · rw [takeTurn, htaken]
      rfl
  | cons w r ih =>
    obtain ⟨c₁, front₁, rest₁, hbump, hat₁, hleft₁⟩ := h.exists_bump? hleft
    have hnext := (drop_succ_of_cons hi).1
    -- both loops leave at the word that brings the depth down to zero
    cases hdepth : depthAfter depth w.kind with
    | zero =>
      rw [groupLengthFrom_of_zero r hdepth]
      refine ⟨0, c₁, front₁, rest₁, .leave ?_, .leave ?_, ?_, hat₁, hleft₁⟩
      · simp [measureTurn, hmeasured, kind?, hdepth]
      · simp [takeTurn, htaken, kind?, hbump, hdepth]
      · rw [sketches_groupFrom_of_zero r hdepth, playAll?, play?, hbump]
        rfl
    | succ d =>
      have hlength : groupLengthFrom depth (w :: r) = groupLengthFrom (d + 1) r + 1 := by
        rw [groupLengthFrom_of_pos r (by omega), hdepth]
      have hmeasured₁ : nthKind? source start (i + 1) = some (kind? r) := by
        rw [nthKind?_eq, hnext]
      have htaken₁ : nthKind? source c₁ 0 = some (kind? r) := by rw [nthKind?_eq, hleft₁]; rfl
      obtain ⟨k, c', front', rest', hmeasure, htake, hplay, hat, hbehind⟩ :=
        ih hnext (d + 1) hat₁ hleft₁ hmeasured₁ htaken₁
      rw [Nat.add_right_comm, Nat.add_assoc, ← hlength] at hmeasure
      refine ⟨k + 1, c', front', rest', .again ?_ hmeasure, .again ?_ htake, ?_, hat, ?_⟩
      · simp [measureTurn, hmeasured, kind?, hdepth]
      · simp [takeTurn, htaken, kind?, hbump, hdepth]
      · rw [sketches_groupFrom_of_succ r hdepth, playAll?, play?, hbump, Option.bind_some, hplay]
      · rw [hlength, List.drop_succ_cons, hbehind]

/-- A cursor has passed as many words as are no longer left to it. -/
theorem At.position_eq_add {c c' : Cursor} {front rest front' rest' : List Placed}
    (h : At source c front rest) (h' : At source c' front' rest') {n : Nat}
    (hn : n ≤ (left source c).length) (hleft : left source c' = (left source c).drop n) :
    c'.position = c.position + n := by
  have hlen := congrArg List.length hleft
  have hle := h.position_le
  have hle' := h'.position_le
  simp only [left, List.length_drop, length_ofLexemes_lex] at hlen hn
  omega

end Cursor

/-- From wherever a cursor stands, the group that stands next is measured and taken alike. The look
ahead by index and the moves of the cursor are both left after as many turns, and neither fails. The
cursor then has passed exactly as many words as were measured, as it does where it draws the rule
for groups; and this is the length that the group has. -/
theorem group_measured {source : String} {c : Cursor} {front rest : List Placed}
    (h : Cursor.At source c front rest) (opening : Kind → List Sketch → Option Nat) :
    let ws := Cursor.left source c
    let n := groupLength ws
    GroupBounds ws n ∧
      ∃ k c' front' rest',
        Runs (Cursor.measureTurn source c) (0, 0) k (some n) ∧
        Runs (Cursor.takeTurn source) (0, c) k (some c') ∧
        Cursor.playAll? source opening none (group ws (Nat.lt_succ_self ws.length)).sketches c =
          some c' ∧
        Cursor.At source c' front' rest' ∧
        Cursor.left source c' = ws.drop n ∧ c'.position = c.position + n := by
  intro ws n
  obtain ⟨k, c', front', rest', hmeasure, htake, hplay, hat, hleft⟩ :=
    Cursor.runs_measureTurn_takeTurn opening c (i := 0) List.drop_zero 0 h rfl
  rw [Nat.zero_add] at hmeasure
  exact ⟨groupBounds_groupLength ws, k, c', front', rest', hmeasure, htake, hplay, hat, hleft,
    h.position_eq_add hat (groupLengthFrom_le 0 ws) hleft⟩

/-- A group whose brackets are of different shapes, with blanks between: five words are measured
and taken. -/
theorem group_measured_mixed :
    let source := "( a [ ) ] b"
    Cursor.At source .start [] (Cursor.lexemes source) ∧
      ∃ k c', Runs (Cursor.measureTurn source .start) (0, 0) k (some 5) ∧
        Runs (Cursor.takeTurn source) (0, .start) k (some c') ∧ c'.position = 5 := by
  intro source
  have hat : Cursor.At source .start [] (Cursor.lexemes source) := ⟨rfl, rfl, rfl⟩
  have hlength : groupLength (Cursor.left source .start) = 5 := by decide +kernel
  obtain ⟨-, k, c', -, -, hmeasure, htake, -, -, -, hposition⟩ :=
    group_measured hat fun _ _ => none
  rw [hlength] at hmeasure hposition
  exact ⟨hat, k, c', hmeasure, htake, hposition⟩

end SwiftOutline

import SwiftOutline.Effects
import SwiftOutline.Proofs.Complete

/-!
# SwiftOutline.Proofs.Thrown

What is read from a clause of effects.

* `Effects.Piece`, `Effects.pieces` — the words of a clause, and between them what stands in the
  parentheses right behind `throws`;
* `Reading.foldl_step` — the reader goes from piece to piece: each step of it is a step over a word
  outside of parentheses, into them, inside, or out of them;
* `Effects.Read` — which effects are found: `async` is looked for outside of parentheses, the way of
  passing errors on anywhere, and the error's type is what the last parentheses hold, without
  spaces and without `throws`;
* `Site.effects_read` — so it is for the clauses of every source file.
-/

namespace SwiftOutline

namespace Effects

/-! ## pieces of a clause -/

/-- A word of a clause, or what stands in the parentheses that are opened right behind `throws`;
these may be closed or not. -/
inductive Piece where
  | word (w : Lexeme)
  | group (inner : List Lexeme)
  | unclosed (inner : List Lexeme)
  deriving DecidableEq, Repr

/-- The number of open parentheses after a word. -/
def parensAfter (depth : Nat) : Kind → Nat
  | .openParen => depth + 1
  | .closeParen => depth - 1
  | _ => depth

/-- The words up to the parenthesis that closes the outermost one, with some more open inside it,
and the words behind it. -/
def closing (depth : Nat) : List Lexeme → Option (List Lexeme × List Lexeme)
  | [] => .none
  | w :: ws =>
    if w.kind = .closeParen ∧ depth = 0 then some ([], ws)
    else (closing (parensAfter depth w.kind) ws).map fun (inner, rest) => (w :: inner, rest)

theorem exists_of_closing {depth : Nat} {ws inner rest : List Lexeme}
    (h : closing depth ws = some (inner, rest)) :
    ∃ w, w.kind = .closeParen ∧ ws = inner ++ w :: rest := by
  induction ws generalizing depth inner with
  | nil => cases h
  | cons w ws ih =>
    unfold closing at h
    split at h
    · next hclose =>
      cases h
      exact ⟨w, hclose.1, rfl⟩
    · obtain ⟨⟨i, r⟩, hsome, heq⟩ := Option.map_eq_some_iff.1 h
      obtain ⟨rfl, rfl⟩ := Prod.mk.inj heq
      obtain ⟨v, hv, rfl⟩ := ih hsome
      exact ⟨v, hv, rfl⟩

theorem length_closing_lt {depth : Nat} {ws inner rest : List Lexeme}
    (h : closing depth ws = some (inner, rest)) : rest.length < ws.length := by
  obtain ⟨w, -, rfl⟩ := exists_of_closing h
  simp only [List.length_append, List.length_cons]
  omega

/-- Whether a word with another one behind it opens the parentheses of an error's type. -/
def opensThrown (w : Lexeme) (ws : List Lexeme) : Bool :=
  w.kind == .kwThrows && ws.head?.any (·.kind == .openParen)

/-- The pieces of a clause. -/
def pieces : List Lexeme → List Piece
  | [] => []
  | w :: ws =>
    if opensThrown w ws then
      match _h : closing 0 ws.tail with
      | some (inner, rest) => .word w :: .group inner :: pieces rest
      | .none => [.word w, .unclosed ws.tail]
    else .word w :: pieces ws
  termination_by ws => ws.length
  decreasing_by
    · have hlt := length_closing_lt _h
      simp only [List.length_tail, List.length_cons] at hlt ⊢
      omega
    · simp

/-- The word that a piece is. -/
def Piece.word? : Piece → Option Lexeme
  | .word w => some w
  | .group _ | .unclosed _ => .none

/-- What the closed parentheses hold that a piece stands for. -/
def Piece.group? : Piece → Option (List Lexeme)
  | .group inner => some inner
  | .word _ | .unclosed _ => .none

/-- The words that a piece stands for, without parentheses around them. -/
def Piece.words : Piece → List Lexeme
  | .word w => [w]
  | .group inner | .unclosed inner => inner

/-- The words of a clause that stand outside of the parentheses behind `throws`. -/
def outside (ws : List Lexeme) : List Lexeme := (pieces ws).filterMap Piece.word?

/-- What stands in the closed parentheses behind `throws`. -/
def groups (ws : List Lexeme) : List (List Lexeme) := (pieces ws).filterMap Piece.group?

/-! ## what words say -/

/-- The way of passing errors on that a word names. -/
def throwing? (w : Lexeme) : Option Throwing :=
  match w.kind with
  | .kwThrows => some .throwing
  | .kwRethrows => some .rethrowing
  | _ => .none

/-- The way of passing errors on that the last of some words names. -/
def lastThrowing (ws : List Lexeme) : Option Throwing := ws.reverse.findSome? throwing?

/-- Whether a word says that a function may suspend. -/
def saysAsync (w : Lexeme) : Bool :=
  w.kind = .identifier ∧ (w.text = "async" ∨ w.text = "reasync")

/-- The words without `throws`, one right after the other. -/
def thrownText (inner : List Lexeme) : String :=
  Lexeme.textOfAll (inner.filter (·.kind != .kwThrows))

/-- The effects that are known after a piece. -/
def Piece.read (e : Effects) : Piece → Effects
  | .word w => ⟨e.isAsync || saysAsync w, (throwing? w).or e.throwing, e.thrownType⟩
  | .group inner =>
    ⟨e.isAsync, (lastThrowing inner).or e.throwing, some (thrownText inner)⟩
  | .unclosed inner => { e with throwing := (lastThrowing inner).or e.throwing }

theorem lastThrowing_append (vs ws : List Lexeme) :
    lastThrowing (vs ++ ws) = (lastThrowing ws).or (lastThrowing vs) := by
  simp [lastThrowing]

@[simp] theorem lastThrowing_nil : lastThrowing [] = .none := rfl

theorem lastThrowing_cons (w : Lexeme) (ws : List Lexeme) :
    lastThrowing (w :: ws) = (lastThrowing ws).or (throwing? w) := by
  simp [lastThrowing, List.findSome?_singleton]

theorem thrownText_cons (w : Lexeme) (ws : List Lexeme) :
    thrownText (w :: ws) = thrownText [w] ++ thrownText ws := by
  cases h : w.kind != .kwThrows <;> simp [thrownText, Lexeme.textOfAll, h]

/-! ## steps of the reader -/

namespace Reading

/-- A word outside of parentheses that opens none. -/
theorem step_outside (e : Effects) {after : Bool} {w : Lexeme}
    (h : after = true → w.kind ≠ .openParen) :
    step ⟨e, 0, "", after⟩ w = ⟨Piece.read e (.word w), 0, "", decide (w.kind = .kwThrows)⟩ := by
  cases hk : w.kind <;> simp_all [step, Piece.read, throwing?, plain, saysAsync]
  split <;> simp_all

/-- The parenthesis right behind `throws`. -/
theorem step_open (e : Effects) {w : Lexeme} (h : w.kind = .openParen) :
    step ⟨e, 0, "", true⟩ w = ⟨e, 1, "", true⟩ := by
  simp [step, h]

/-- A word in parentheses that does not close the outermost ones. -/
theorem step_inside (e : Effects) {depth : Nat} (thrown : String) {w : Lexeme}
    (h : ¬(w.kind = .closeParen ∧ depth = 0)) :
    step ⟨e, depth + 1, thrown, true⟩ w =
      ⟨{ e with throwing := (throwing? w).or e.throwing }, parensAfter depth w.kind + 1,
        thrown ++ thrownText [w], true⟩ := by
  cases hk : w.kind <;> simp_all [step, throwing?, plain, parensAfter, thrownText, Lexeme.textOfAll]
  omega

/-- The parenthesis that closes the outermost ones. -/
theorem step_close (e : Effects) (thrown : String) {w : Lexeme} (h : w.kind = .closeParen) :
    step ⟨e, 1, thrown, true⟩ w = ⟨{ e with thrownType := some thrown }, 0, "", false⟩ := by
  simp [step, h]

/-! ## runs of the reader -/

/-- Over what closed parentheses hold, up to the last one of them. -/
theorem foldl_closing {depth : Nat} {ws inner rest : List Lexeme}
    (h : closing depth ws = some (inner, rest)) (e : Effects) (thrown : String) :
    ws.foldl step ⟨e, depth + 1, thrown, true⟩ =
      rest.foldl step ⟨⟨e.isAsync, (lastThrowing inner).or e.throwing,
        some (thrown ++ thrownText inner)⟩, 0, "", false⟩ := by
  induction ws generalizing depth inner e thrown with
  | nil => cases h
  | cons w ws ih =>
    unfold closing at h
    split at h
    · next hclose =>
      obtain ⟨hkind, rfl⟩ := hclose
      cases h
      simp [step_close e thrown hkind, thrownText, Lexeme.textOfAll]
    · next hopen =>
      obtain ⟨⟨i, r⟩, hsome, heq⟩ := Option.map_eq_some_iff.1 h
      obtain ⟨rfl, rfl⟩ := Prod.mk.inj heq
      rw [List.foldl_cons, step_inside e thrown hopen, ih hsome, lastThrowing_cons,
        thrownText_cons w i, String.append_assoc, Option.or_assoc]

/-- Over words in parentheses that are never closed. -/
theorem foldl_unclosed {depth : Nat} {ws : List Lexeme} (h : closing depth ws = .none)
    (e : Effects) (thrown : String) :
    (ws.foldl step ⟨e, depth + 1, thrown, true⟩).effects =
      { e with throwing := (lastThrowing ws).or e.throwing } := by
  induction ws generalizing depth e thrown with
  | nil => rfl
  | cons w ws ih =>
    unfold closing at h
    split at h
    · cases h
    · next hopen =>
      rw [List.foldl_cons, step_inside e thrown hopen, ih (Option.map_eq_none_iff.1 h),
        lastThrowing_cons, Option.or_assoc]

/-- Over `throws` and the parenthesis right behind it. -/
theorem foldl_opens {w : Lexeme} {ws : List Lexeme} (hopens : opensThrown w ws) (e : Effects)
    {after : Bool} (h : after = true → w.kind ≠ .openParen) :
    (w :: ws).foldl step ⟨e, 0, "", after⟩ =
      ws.tail.foldl step ⟨Piece.read e (.word w), 1, "", true⟩ := by
  cases ws with
  | nil => simp [opensThrown] at hopens
  | cons p r =>
    obtain ⟨hthrows, hparen⟩ : w.kind = .kwThrows ∧ p.kind = .openParen := by
      simpa [opensThrown] using hopens
    rw [List.foldl_cons, step_outside e h, decide_eq_true hthrows, List.foldl_cons,
      step_open _ hparen, List.tail_cons]

/-- The reader goes over a clause from piece to piece. Behind `throws` no parenthesis may stand
next, as the pieces start with a word. -/
theorem effects_foldl_step (ws : List Lexeme) (e : Effects) (after : Bool)
    (h : after = true → ∀ w ∈ ws.head?, w.kind ≠ .openParen) :
    (ws.foldl step ⟨e, 0, "", after⟩).effects = (pieces ws).foldl Piece.read e := by
  fun_induction pieces ws generalizing e after with
  | case1 => rfl
  | case2 w ws hopens inner rest hclosing ih =>
    rw [foldl_opens hopens e fun hafter => h hafter w rfl, foldl_closing hclosing,
      ih _ _ (by simp), String.empty_append]
    rfl
  | case3 w ws hopens hclosing =>
    rw [foldl_opens hopens e fun hafter => h hafter w rfl, foldl_unclosed hclosing]
    rfl
  | case4 w ws hopens ih =>
    rw [List.foldl_cons, step_outside e fun hafter => h hafter w rfl, ih]
    · rfl
    · intro hthrows p hp hparen
      exact hopens (by simp_all [opensThrown])

end Reading

/-! ## effects of pieces -/

variable {ps : List Piece} {e : Effects}

theorem isAsync_foldl_read :
    (ps.foldl Piece.read e).isAsync = (e.isAsync || (ps.filterMap Piece.word?).any saysAsync) := by
  induction ps generalizing e with
  | nil => simp
  | cons p ps ih =>
    cases p <;> simp [ih, Piece.read, Piece.word?, List.filterMap_cons, Bool.or_assoc]

theorem throwing_foldl_read :
    (ps.foldl Piece.read e).throwing = (lastThrowing (ps.flatMap Piece.words)).or e.throwing := by
  induction ps generalizing e with
  | nil => simp
  | cons p ps ih =>
    cases p <;>
      simp [ih, Piece.read, Piece.words, lastThrowing_append, lastThrowing_cons, Option.or_assoc]

theorem thrownType_foldl_read :
    (ps.foldl Piece.read e).thrownType =
      ((ps.filterMap Piece.group?).getLast?.map thrownText).or e.thrownType := by
  induction ps generalizing e with
  | nil => simp
  | cons p ps ih =>
    rw [List.foldl_cons, ih]
    cases p with
    | group inner =>
      rw [List.filterMap_cons_some (f := Piece.group?) rfl, List.getLast?_cons]
      cases (ps.filterMap Piece.group?).getLast? <;> simp [Piece.read]
    | _ => rfl

/-! ## ways of passing errors on -/

/-- Whether a piece names a way of passing errors on. -/
def Piece.saysThrowing (p : Piece) : Bool := (lastThrowing p.words).isSome

/-- The last piece that names a way of passing errors on. -/
def lastPiece? (ps : List Piece) : Option Piece := ps.reverse.find? Piece.saysThrowing

/-- What stands outside of parentheses for a piece that names a way of passing errors on. -/
def Piece.outerThrowing? : Piece → Option Throwing
  | .word w => throwing? w
  | .group _ | .unclosed _ => some .throwing

theorem lastThrowing_singleton (w : Lexeme) : lastThrowing [w] = throwing? w := by
  simp [lastThrowing_cons]

theorem Piece.isSome_outerThrowing? {p : Piece} (h : p.saysThrowing) :
    p.outerThrowing?.isSome := by
  cases p with
  | word w => simpa [saysThrowing, outerThrowing?, Piece.words, lastThrowing_singleton] using h
  | _ => rfl

/-- What is told of the last piece is told of the last of the others, or else of the first. -/
theorem bind_lastPiece?_cons {f : Piece → Option Throwing}
    (hf : ∀ p : Piece, p.saysThrowing → (f p).isSome) (p : Piece) (ps : List Piece) :
    (lastPiece? (p :: ps)).bind f =
      ((lastPiece? ps).bind f).or (if p.saysThrowing then f p else .none) := by
  rw [lastPiece?, List.reverse_cons, List.find?_append, ← lastPiece?]
  cases h : lastPiece? ps with
  | none => by_cases hp : p.saysThrowing <;> simp [hp]
  | some q =>
    have hsome := hf q (List.find?_some h)
    simp [Option.or_of_isSome, hsome]

theorem lastThrowing_flatMap_words (ps : List Piece) :
    lastThrowing (ps.flatMap Piece.words) = (lastPiece? ps).bind (lastThrowing ·.words) := by
  induction ps with
  | nil => rfl
  | cons p ps ih =>
    rw [List.flatMap_cons, lastThrowing_append, ih, bind_lastPiece?_cons fun _ h => h]
    by_cases hp : p.saysThrowing <;> simp_all [Piece.saysThrowing]

theorem lastThrowing_closing {depth : Nat} {ws inner rest : List Lexeme}
    (h : closing depth ws = some (inner, rest)) :
    lastThrowing ws = (lastThrowing rest).or (lastThrowing inner) := by
  induction ws generalizing depth inner with
  | nil => cases h
  | cons w ws ih =>
    unfold closing at h
    split at h
    · next hclose =>
      cases h
      simp [lastThrowing_cons, throwing?, hclose.1]
    · obtain ⟨⟨i, r⟩, hsome, heq⟩ := Option.map_eq_some_iff.1 h
      obtain ⟨rfl, rfl⟩ := Prod.mk.inj heq
      rw [lastThrowing_cons, ih hsome, lastThrowing_cons, Option.or_assoc]

theorem lastThrowing_of_opensThrown {w : Lexeme} {ws : List Lexeme} (h : opensThrown w ws) :
    throwing? w = some .throwing ∧ lastThrowing ws = lastThrowing ws.tail := by
  cases ws with
  | nil => simp [opensThrown] at h
  | cons p r =>
    simp only [opensThrown, List.head?_cons, Option.any_some, Bool.and_eq_true, beq_iff_eq] at h
    simp [throwing?, lastThrowing_cons, h.1, h.2]

/-- The parentheses between the pieces say nothing of errors. -/
theorem lastThrowing_flatMap_pieces (ws : List Lexeme) :
    lastThrowing ((pieces ws).flatMap Piece.words) = lastThrowing ws := by
  fun_induction pieces ws with
  | case1 => rfl
  | case2 w ws hopens inner rest hclosing ih =>
    rw [lastThrowing_cons, (lastThrowing_of_opensThrown hopens).2, lastThrowing_closing hclosing]
    simp [Piece.words, lastThrowing_append, lastThrowing_cons, ih]
  | case3 w ws hopens hclosing =>
    rw [lastThrowing_cons w ws, (lastThrowing_of_opensThrown hopens).2]
    simp [Piece.words, lastThrowing_cons]
  | case4 w ws hopens ih => simp [Piece.words, lastThrowing_cons, ih]

theorem bind_lastPiece?_word (w : Lexeme) (ps : List Piece) :
    (lastPiece? (.word w :: ps)).bind Piece.outerThrowing? =
      ((lastPiece? ps).bind Piece.outerThrowing?).or (throwing? w) := by
  rw [bind_lastPiece?_cons @Piece.isSome_outerThrowing?]
  cases h : throwing? w <;>
    simp [Piece.saysThrowing, Piece.outerThrowing?, Piece.words, lastThrowing_singleton, h]

/-- Parentheses add nothing to the `throws` in front of them. -/
theorem bind_lastPiece?_opened {w : Lexeme} (hw : throwing? w = some .throwing) {p : Piece}
    (hp : p.outerThrowing? = some .throwing) (ps : List Piece) :
    (lastPiece? (.word w :: p :: ps)).bind Piece.outerThrowing? =
      ((lastPiece? ps).bind Piece.outerThrowing?).or (throwing? w) := by
  rw [bind_lastPiece?_word, bind_lastPiece?_cons @Piece.isSome_outerThrowing?, hp, hw,
    Option.or_assoc]
  split <;> rfl

/-- Outside of parentheses, the last word about errors is the one that is the last for the pieces,
or the `throws` in front of it. -/
theorem lastThrowing_outside (ws : List Lexeme) :
    lastThrowing (outside ws) = (lastPiece? (pieces ws)).bind Piece.outerThrowing? := by
  unfold outside
  fun_induction pieces ws with
  | case1 => rfl
  | case2 w ws hopens inner rest hclosing ih =>
    rw [bind_lastPiece?_opened (lastThrowing_of_opensThrown hopens).1 rfl, ← ih]
    exact lastThrowing_cons _ _
  | case3 w ws hopens hclosing =>
    rw [bind_lastPiece?_opened (lastThrowing_of_opensThrown hopens).1 rfl]
    exact lastThrowing_cons _ _
  | case4 w ws hopens ih =>
    rw [bind_lastPiece?_word, ← ih]
    exact lastThrowing_cons _ _

/-- The last word about errors is the last one outside of parentheses, unless the last piece that
names a way is in parentheses and names `rethrows` last. -/
theorem lastThrowing_eq_outside_iff (ws : List Lexeme) :
    lastThrowing ws = lastThrowing (outside ws) ↔
      ∀ p, lastPiece? (pieces ws) = some p → lastThrowing p.words = some .rethrowing →
        ∃ w, p = .word w := by
  rw [lastThrowing_outside, ← lastThrowing_flatMap_pieces, lastThrowing_flatMap_words]
  cases h : lastPiece? (pieces ws) with
  | none => simp
  | some p =>
    have hsays : p.saysThrowing = true := List.find?_some h
    obtain ⟨x, hx⟩ := Option.isSome_iff_exists.1 hsays
    cases p with
    | word w => simp [Piece.words, Piece.outerThrowing?, lastThrowing_singleton]
    | group inner => cases x <;> simp [hx, Piece.outerThrowing?]
    | unclosed inner => cases x <;> simp [hx, Piece.outerThrowing?]

/-! ## the text of a type -/

/-- Whether words are the same with and without spaces where these are needed, and none of them is
`throws`. -/
def Tight (before : Option Kind) : List Lexeme → Prop
  | [] => True
  | w :: ws =>
    before.any (·.needsSpace w.kind) = false ∧ w.kind ≠ .kwThrows ∧ Tight (some w.kind) ws

theorem Tight.eq {before : Option Kind} {ws : List Lexeme} (h : Tight before ws) :
    thrownText ws = Lexeme.spacedAfter before ws := by
  induction ws generalizing before with
  | nil => rfl
  | cons w ws ih =>
    rw [thrownText_cons, ih h.2.2, Lexeme.spacedAfter]
    simp [h.1, thrownText, Lexeme.textOfAll, h.2.1]

theorem size_thrownText_le (before : Option Kind) (ws : List Lexeme) :
    (thrownText ws).utf8ByteSize ≤ (Lexeme.spacedAfter before ws).utf8ByteSize := by
  induction ws generalizing before with
  | nil => exact le_rfl
  | cons w ws ih =>
    have hws := ih (some w.kind)
    rw [thrownText_cons, Lexeme.spacedAfter]
    by_cases hw : w.kind = .kwThrows <;>
      simp [thrownText, Lexeme.textOfAll, hw] at hws ⊢ <;> omega

/-- A text without spaces and without `throws` is the spaced one only if it lacks nothing. -/
theorem tight_of_eq {before : Option Kind} {ws : List Lexeme}
    (hthrows : ∀ w ∈ ws, w.kind = .kwThrows → 0 < w.size)
    (h : (Lexeme.spacedAfter before ws).utf8ByteSize ≤ (thrownText ws).utf8ByteSize) :
    Tight before ws := by
  induction ws generalizing before with
  | nil => trivial
  | cons w ws ih =>
    have hle := size_thrownText_le (some w.kind) ws
    obtain ⟨hw, hws⟩ := List.forall_mem_cons.1 hthrows
    rw [thrownText_cons, Lexeme.spacedAfter] at h
    by_cases hkind : w.kind = .kwThrows
    · have hpos := hw hkind
      simp [thrownText, Lexeme.textOfAll, hkind, Lexeme.size] at h hle hpos
      omega
    · have hspace : before.any (·.needsSpace w.kind) = false := by
        cases hneeded : before.any (·.needsSpace w.kind) with
        | false => rfl
        | true =>
          have hone : " ".utf8ByteSize = 1 := rfl
          simp [thrownText, Lexeme.textOfAll, hkind, hneeded] at h hle
          omega
      refine ⟨hspace, hkind, ih hws ?_⟩
      simpa [thrownText, Lexeme.textOfAll, hkind, hspace] using h

theorem thrownText_eq_spaced_iff {ws : List Lexeme}
    (hthrows : ∀ w ∈ ws, w.kind = .kwThrows → 0 < w.size) :
    thrownText ws = Lexeme.spaced ws ↔ Tight .none ws := by
  constructor
  · intro h
    exact tight_of_eq hthrows (by rw [h, Lexeme.spaced])
  · exact Tight.eq

/-! ## counting parentheses -/

/-- The words that stand at depth zero, by counting all parentheses. -/
def atDepthZero (depth : Nat) : List Lexeme → List Lexeme
  | [] => []
  | w :: ws =>
    if depth = 0 ∧ w.kind ≠ .openParen ∧ w.kind ≠ .closeParen then w :: atDepthZero depth ws
    else atDepthZero (parensAfter depth w.kind) ws

theorem parensAfter_succ {depth : Nat} {k : Kind} (h : ¬(k = .closeParen ∧ depth = 0)) :
    parensAfter (depth + 1) k = parensAfter depth k + 1 := by
  cases k <;> simp_all [parensAfter]
  omega

theorem atDepthZero_closing {depth : Nat} {ws inner rest : List Lexeme}
    (h : closing depth ws = some (inner, rest)) :
    atDepthZero (depth + 1) ws = atDepthZero 0 rest := by
  induction ws generalizing depth inner with
  | nil => cases h
  | cons w ws ih =>
    unfold closing at h
    split at h
    · next hclose =>
      cases h
      simp [atDepthZero, parensAfter, hclose]
    · next hopen =>
      obtain ⟨⟨i, r⟩, hsome, heq⟩ := Option.map_eq_some_iff.1 h
      obtain ⟨rfl, rfl⟩ := Prod.mk.inj heq
      simp [atDepthZero, parensAfter_succ hopen, ih hsome]

theorem atDepthZero_unclosed {depth : Nat} {ws : List Lexeme} (h : closing depth ws = .none) :
    atDepthZero (depth + 1) ws = [] := by
  induction ws generalizing depth with
  | nil => rfl
  | cons w ws ih =>
    unfold closing at h
    split at h
    · cases h
    · next hopen =>
      simp [atDepthZero, parensAfter_succ hopen, ih (Option.map_eq_none_iff.1 h)]

theorem atDepthZero_opens {w : Lexeme} {ws : List Lexeme} (h : opensThrown w ws) :
    atDepthZero 0 (w :: ws) = w :: atDepthZero 1 ws.tail := by
  cases ws with
  | nil => simp [opensThrown] at h
  | cons p r =>
    simp only [opensThrown, List.head?_cons, Option.any_some, Bool.and_eq_true, beq_iff_eq] at h
    simp [atDepthZero, parensAfter, h.1, h.2]

/-- If all parentheses stand right behind `throws`, what is outside of these is at depth zero. -/
theorem outside_eq_atDepthZero {ws : List Lexeme}
    (h : ∀ w ∈ outside ws, w.kind ≠ .openParen ∧ w.kind ≠ .closeParen) :
    outside ws = atDepthZero 0 ws := by
  unfold outside at h ⊢
  fun_induction pieces ws with
  | case1 => rfl
  | case2 w ws hopens inner rest hclosing ih =>
    rw [atDepthZero_opens hopens, atDepthZero_closing hclosing]
    exact congrArg _ (ih (List.forall_mem_cons.1 h).2)
  | case3 w ws hopens hclosing =>
    rw [atDepthZero_opens hopens, atDepthZero_unclosed hclosing]
    rfl
  | case4 w ws hopens ih =>
    obtain ⟨hw, hws⟩ := List.forall_mem_cons.1 h
    rw [atDepthZero, if_pos ⟨rfl, hw⟩]
    exact congrArg _ (ih hws)

/-! ## what is read -/

/-- The effects that are read from the words of a clause. -/
structure Read (ws : List Lexeme) (e : Effects) : Prop where
  /-- Words outside of parentheses say whether a function may suspend. -/
  isAsync : e.isAsync = (outside ws).any saysAsync
  /-- The last word about errors counts, in parentheses or not. -/
  throwing : e.throwing = lastThrowing ws
  /-- It is the last one outside unless `rethrows` follows it in parentheses. -/
  throwing_iff : e.throwing = lastThrowing (outside ws) ↔
    ∀ p, lastPiece? (pieces ws) = some p → lastThrowing p.words = some .rethrowing →
      ∃ w, p = .word w
  /-- The type of the error is what the last parentheses hold, without spaces and `throws`. -/
  thrownType : e.thrownType = (groups ws).getLast?.map thrownText
  /-- It is what they hold with spaces where these are needed, if it lacks nothing. -/
  thrownType_iff : e.thrownType = (groups ws).getLast?.map Lexeme.spaced ↔
    ∀ inner ∈ (groups ws).getLast?, Tight .none inner
  /-- Outside is at depth zero, by counting, if no other parentheses are in the clause. -/
  outside_eq : (∀ w ∈ outside ws, w.kind ≠ .openParen ∧ w.kind ≠ .closeParen) →
    outside ws = atDepthZero 0 ws

theorem subset_of_mem_groups {ws inner : List Lexeme} (h : inner ∈ groups ws) : inner ⊆ ws := by
  have htail (vs : List Lexeme) : vs.tail ⊆ vs := fun _ => List.mem_of_mem_tail
  unfold groups at h
  fun_induction pieces ws with
  | case1 => simp at h
  | case2 w ws hopens i rest hclosing ih =>
    obtain ⟨v, -, heq⟩ := exists_of_closing hclosing
    have hmem : inner = i ∨ inner ∈ (pieces rest).filterMap Piece.group? := List.mem_cons.1 h
    have hinner : inner ⊆ ws.tail := by
      rw [heq]
      obtain rfl | hrest := hmem
      · exact List.subset_append_left _ _
      · exact fun u hu => List.mem_append_right _ (List.mem_cons_of_mem _ (ih hrest hu))
    exact fun u hu => List.mem_cons_of_mem _ (htail _ (hinner hu))
  | case3 w ws hopens hclosing => simp [Piece.group?, List.filterMap_cons] at h
  | case4 w ws hopens ih => exact fun u hu => List.mem_cons_of_mem _ (ih h hu)

theorem read_ofClause {t : Tree} (ht : ∀ w ∈ t.words, 0 < w.size) : Read t.words (ofClause t) := by
  have heffects : ofClause t = (pieces t.words).foldl Piece.read none :=
    Reading.effects_foldl_step t.words none false nofun
  have hthrowing : (ofClause t).throwing = lastThrowing t.words := by
    rw [heffects, throwing_foldl_read, lastThrowing_flatMap_pieces]
    exact Option.or_none
  have hthrown : (ofClause t).thrownType = (groups t.words).getLast?.map thrownText := by
    rw [heffects, thrownType_foldl_read]
    exact Option.or_none
  refine ⟨?_, hthrowing, ?_, hthrown, ?_, outside_eq_atDepthZero⟩
  · rw [heffects, isAsync_foldl_read]
    exact Bool.false_or _
  · rw [hthrowing]
    exact lastThrowing_eq_outside_iff _
  · rw [hthrown]
    cases h : (groups t.words).getLast? with
    | none => simp
    | some inner =>
      have hinner := subset_of_mem_groups (List.mem_of_getLast? h)
      simpa using thrownText_eq_spaced_iff fun w hw _ => ht w (hinner hw)

end Effects

theorem Tree.words_subset_tokens (t : Tree) : t.words ⊆ t.tokens := by
  intro w hw
  obtain ⟨c, hc, rfl⟩ := List.mem_map.1 hw
  obtain ⟨hc, hword⟩ := List.mem_filter.1 hc
  cases t with
  | token => cases hc
  | node k cs =>
    cases c with
    | node => cases hword
    | token j s => exact tokens_subset_of_mem hc (List.mem_singleton.2 rfl)

namespace Site

/-- What is read from the clauses of effects of every source file. -/
theorem effects_read {source : String} {s : Site} (h : s ∈ all (parse source).tree) :
    Effects.Read s.node.tree.words (Effects.ofClause s.node.tree) :=
  Effects.read_ofClause fun _ hw =>
    size_pos_of_mem_tokens h (Tree.words_subset_tokens _ hw)

/-- The theorem applies to a clause with parentheses in those of an error's type. -/
theorem effects_read_tuple :
    let source := "func f() throws(((A)[B], any C)) async {}"
    ∃ s ∈ all (parse source).tree, s.node.kind = .effectSpecifiers ∧
      Effects.outside s.node.tree.words = [⟨.kwThrows, "throws"⟩, ⟨.identifier, "async"⟩] ∧
      Effects.Read s.node.tree.words (Effects.ofClause s.node.tree) := by
  intro source
  have hany : ((all (parse source).tree).any fun s => s.node.kind == .effectSpecifiers &&
      Effects.outside s.node.tree.words ==
        [⟨.kwThrows, "throws"⟩, ⟨.identifier, "async"⟩]) = true := by
    decide +kernel
  obtain ⟨s, hs, hrest⟩ := List.any_eq_true.1 hany
  simp only [Bool.and_eq_true, beq_iff_eq] at hrest
  exact ⟨s, hs, hrest.1, hrest.2, effects_read hs⟩

/-- The type of an error loses the space between its words. -/
theorem thrown_words_joined :
    let source := "func f() throws(any ParseError) {}"
    (parse source).faults = [] ∧
      ∃ s ∈ all (parse source).tree, s.node.kind = .effectSpecifiers ∧
        Effects.groups s.node.tree.words = [[⟨.identifier, "any"⟩, ⟨.identifier, "ParseError"⟩]] ∧
        (Effects.ofClause s.node.tree).thrownType = some "anyParseError" ∧
        (Effects.groups s.node.tree.words).getLast?.map Lexeme.spaced = some "any ParseError" := by
  intro source
  have hany : ((all (parse source).tree).any fun s => s.node.kind == .effectSpecifiers &&
      (Effects.groups s.node.tree.words ==
          [[⟨.identifier, "any"⟩, ⟨.identifier, "ParseError"⟩]] &&
        ((Effects.ofClause s.node.tree).thrownType == some "anyParseError" &&
          (Effects.groups s.node.tree.words).getLast?.map Lexeme.spaced ==
            some "any ParseError"))) = true := by
    decide +kernel
  exact ⟨by decide +kernel, by simpa using hany⟩

end Site

end SwiftOutline

import SwiftOutline.Grammar.Attribute

/-!
# SwiftOutline.Grammar.Accessor

Looking ahead for accessors, which are told from statements by the names they start with and
by what follows those names.

* `atAccessor` — whether an accessor stands next;
* `atAccessorBlock` — whether a block of accessors stands next, and not a getter's body.
-/

namespace SwiftOutline.Grammar

/-- Names of accessors. -/
def accessorNames : List String := ["get", "set", "willSet", "didSet", "_read", "_modify"]

/-- Names of modifiers that an accessor may have. -/
def accessorModifierNames : List String := ["mutating", "nonmutating", "__consuming"]

/-- What stands after attributes, each with the arguments joined to it, and modifiers of
accessors. -/
def skipAccessorModifiers : List Word → List Word
  | [] => []
  | w :: r =>
    if w.kind = .atSign then skipAccessorModifiers (skipArguments r.tail)
    else if atName accessorModifierNames (w :: r) then skipAccessorModifiers r
    else w :: r
  termination_by ws => ws.length
  decreasing_by
  · have := length_skipArguments_le r.tail
    simp only [List.length_tail, List.length_cons] at *
    omega
  · simp

theorem length_skipAccessorModifiers_le (ws : List Word) :
    (skipAccessorModifiers ws).length ≤ ws.length := by
  fun_induction skipAccessorModifiers ws with
  | case1 => simp
  | case2 w r _ ih =>
    have := length_skipArguments_le r.tail
    simp only [List.length_tail, List.length_cons] at *
    omega
  | case3 w r _ _ ih => simp only [List.length_cons]; omega
  | case4 => simp

/-- Kinds of words that may follow the name of an accessor. -/
def afterAccessorName : List Kind :=
  [.openBrace, .closeBrace, .openParen, .kwThrows, .kwRethrows, .atSign]

/-- Whether an accessor stands next: its name, followed by a body, an effect, the end of the
block or another accessor. -/
def atAccessor (ws : List Word) : Bool :=
  match hs : skipAccessorModifiers ws with
  | [] => false
  | w :: r =>
    have : r.length < ws.length := by
      simpa [hs, Nat.succ_le_iff] using length_skipAccessorModifiers_le ws
    atName accessorNames (w :: r) &&
      (atAny afterAccessorName r || (at? .identifier r && (atName ["async"] r || atAccessor r)))
  termination_by ws.length

/-- Whether a brace stands next that opens accessors. -/
def atAccessorBlock (ws : List Word) : Bool := at? .openBrace ws && atAccessor ws.tail

theorem atAccessor_of_skip_nil {ws : List Word} (h : skipAccessorModifiers ws = []) :
    atAccessor ws = false := by
  rw [atAccessor]
  split
  · rfl
  · next hs => rw [h] at hs; cases hs

theorem atWord_of_atAccessor {ws : List Word} (h : atAccessor ws = true) :
    atWord ws = true := by
  cases ws with
  | nil => rw [atAccessor_of_skip_nil (by rw [skipAccessorModifiers])] at h; cases h
  | cons => rfl

end SwiftOutline.Grammar

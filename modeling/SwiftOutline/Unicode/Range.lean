/-!
# SwiftOutline.Unicode.Range

Character properties as tables of code point ranges.

* `isIn` — membership of a character in a table.
-/

namespace SwiftOutline.Unicode

/-- Whether a character lies in one of the closed ranges of a table. -/
def isIn (table : List (Nat × Nat)) (c : Char) : Bool :=
  table.any fun r => r.1 ≤ c.toNat && c.toNat ≤ r.2

theorem isIn_iff {table : List (Nat × Nat)} {c : Char} :
    isIn table c = true ↔ ∃ r ∈ table, r.1 ≤ c.toNat ∧ c.toNat ≤ r.2 := by
  simp [isIn]

end SwiftOutline.Unicode

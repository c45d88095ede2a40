import SimpleBinary.Text.Basic

/-!
Sets of code points, written as unions of intervals.

The character classes below this file are data of the Unicode standard (version 14). Each is a
short list of intervals, both ends included, and membership is one test per interval; nothing
else about a class is ever used.
-/

set_option autoImplicit false

namespace SimpleBinary.Text

/-- A set of code points: the union of the listed intervals, both ends included. -/
abbrev Ranges := List (Nat × Nat)

namespace Ranges

/-- Whether a code point lies in one of the intervals. -/
def contains (ranges : Ranges) (p : CodePoint) : Bool :=
  ranges.any fun (first, last) => first ≤ p.toNat && p.toNat ≤ last

theorem contains_eq_true_iff (ranges : Ranges) (p : CodePoint) :
    ranges.contains p = true ↔ ∃ r ∈ ranges, r.1 ≤ p.toNat ∧ p.toNat ≤ r.2 := by
  simp [contains]

end Ranges

end SimpleBinary.Text

import SimpleBinary.Decimal.Binary64

/-!
The shortest decimal that reads back as the same number.

A decimal reads back as a number when it lies among the reals that round to it: the interval that
reaches half way to the two neighbours, its ends included when the mantissa is even. For one digit,
two digits and so on, the grid of decimals with that many digits is tried at the two points next to
the number. The first grid with a point in the interval decides how many digits there are, and of
two such points the nearer decides which they are.
-/

set_option autoImplicit false

namespace SimpleBinary.Decimal

/-- The decimal `digits * 10 ^ exponent`. -/
structure Scaled where
  digits : Nat
  exponent : Int
  deriving DecidableEq, Repr

/-- The reals that round to `mantissa * 2 ^ exponent`, in quarters of that power of two. At a power
of two the neighbour below is half as far away as the one above, the least exponent apart. -/
structure Neighbourhood where
  lower : Nat
  value : Nat
  upper : Nat
  closed : Bool

/-- The neighbourhood of a number. -/
def Binary.neighbourhood (x : Binary) : Neighbourhood where
  lower := 4 * x.mantissa - (if x.mantissa = Nat.pow 2 52 ∧ x.exponent ≠ -1074 then 1 else 2)
  value := 4 * x.mantissa
  upper := 4 * x.mantissa + 2
  closed := x.mantissa % 2 == 0

/-- A power with an exponent of either sign, as a numerator and a denominator. -/
def power (base : Nat) : Int → Nat × Nat
  | .ofNat e => (Nat.pow base e, 1)
  | .negSucc e => (1, Nat.pow base (e + 1))

/-- How many digits stand before the point, less one, in the decimal of a number other than zero:
the exponent of its first digit. -/
def Binary.magnitude (x : Binary) : Int :=
  let (num, den) := power 2 x.exponent
  ((Nat.toDigits 10 (x.mantissa * num * Nat.pow 10 400 / den)).length : Int) - 401

/-- The point of the grid `10 ^ step` that stands for the number, if one of the two next to it
does. -/
def Binary.onGrid? (x : Binary) (step : Int) : Option Scaled :=
  let hood := x.neighbourhood
  let (two, halves) := power 2 (x.exponent - 2)
  let (ten, tenths) := power 10 step
  -- both sides are taken `halves * tenths` times, so that all numbers are whole
  let real (quarters : Nat) := quarters * two * tenths
  let grid (t : Nat) := t * ten * halves
  let inside (t : Nat) :=
    if hood.closed then real hood.lower ≤ grid t && grid t ≤ real hood.upper
    else real hood.lower < grid t && grid t < real hood.upper
  let below := real hood.value / (ten * halves)
  let above := below + 1
  let nearerAbove :=
    let down := real hood.value - grid below
    let up := grid above - real hood.value
    up < down || (up == down && below % 2 == 1)
  match inside below, inside above with
  | true, true => some ⟨if nearerAbove then above else below, step⟩
  | true, false => some ⟨below, step⟩
  | false, true => some ⟨above, step⟩
  | false, false => none

/-- The shortest decimal of a number other than zero, its sign left aside. Seventeen digits always
suffice. -/
def Binary.shortest (x : Binary) : Scaled :=
  let first := x.magnitude
  ((List.range 17).findSome? fun (n : Nat) => x.onGrid? (first - n)).getD ⟨x.mantissa, 0⟩

end SimpleBinary.Decimal

/-!
Double-precision numbers taken apart.

A finite number is a sign, a mantissa and a power of two; everything exact that is done with such a
number (its decimal digits, its integer part) starts from these.
-/

set_option autoImplicit false

namespace SimpleBinary.Decimal

/-- The number `mantissa * 2 ^ exponent`, or its opposite. -/
structure Binary where
  negative : Bool
  mantissa : Nat
  exponent : Int
  deriving DecidableEq, Repr

/-- A double-precision number: not a number, an infinity, or a finite one. -/
inductive Parts
  | nan
  | infinite (negative : Bool)
  | finite (value : Binary)
  deriving DecidableEq, Repr

/-- The parts of the number with the given bits: one bit of sign, eleven of exponent and 52 of
mantissa, with one more that is implied unless the exponent is the least. -/
def Parts.ofBits (bits : Nat) : Parts :=
  let negative := bits / Nat.pow 2 63 % 2 == 1
  let exponent : Nat := bits / Nat.pow 2 52 % Nat.pow 2 11
  let mantissa := bits % Nat.pow 2 52
  if exponent = Nat.pow 2 11 - 1 then
    if mantissa = 0 then .infinite negative else .nan
  else if exponent = 0 then
    .finite ⟨negative, mantissa, -1074⟩
  else
    .finite ⟨negative, Nat.pow 2 52 + mantissa, (exponent : Int) - 1075⟩

/-- The parts of a number. -/
def Parts.ofFloat (x : Float) : Parts :=
  .ofBits x.toBits.toNat

/-- The whole part: the number without what comes after its point. -/
def Binary.wholePart (x : Binary) : Int :=
  let magnitude :=
    match x.exponent with
    | .ofNat e => x.mantissa * Nat.pow 2 e
    | .negSucc e => x.mantissa / Nat.pow 2 (e + 1)
  if x.negative then -(magnitude : Int) else magnitude

end SimpleBinary.Decimal

import SimpleBinary.Decimal.Shortest

/-!
How a real number is written.

The digits are the fewest that read back as the same number. Numbers from 0.0001 up to, but without,
10^16 are written with a point, which at least one digit follows; all others with one digit before
the point and an exponent that has a sign and two digits or more.
-/

set_option autoImplicit false

namespace SimpleBinary.Decimal

/-- The choices that the text of a number leaves open once its digits are known. -/
structure Layout where
  /-- The least exponent of the first digit that is written with a point alone. -/
  positionalFrom : Int
  /-- The least exponent above those. -/
  positionalBelow : Int
  /-- The least number of digits in an exponent. -/
  exponentDigits : Nat
  notANumber : String
  infinity : String

/-- The layout of all numbers that this library writes. -/
def layout : Layout where
  positionalFrom := -4
  positionalBelow := 16
  exponentDigits := 2
  notANumber := "nan"
  infinity := "inf"

/-- Digits with zeros in front, up to a width. -/
def padded (width : Nat) (ds : List Char) : List Char :=
  List.replicate (width - ds.length) '0' ++ ds

/-- The digits of a decimal without the zeros at their end. -/
def Scaled.significant (x : Scaled) : List Char :=
  ((Nat.toDigits 10 x.digits).reverse.dropWhile (· == '0')).reverse

/-- The exponent of the first digit. -/
def Scaled.leading (x : Scaled) : Int :=
  x.exponent + (Nat.toDigits 10 x.digits).length - 1

/-- Digits with a point after the first `before` of them; zeros fill the places up to the point, and
one follows it where no digit does. -/
def positional (ds : List Char) (before : Nat) : List Char :=
  let whole := ds.take before ++ List.replicate (before - ds.length) '0'
  let fraction := ds.drop before
  whole ++ '.' :: (if fraction.isEmpty then ['0'] else fraction)

/-- Digits in the notation with an exponent. -/
def scientific (lay : Layout) (ds : List Char) (exponent : Int) : List Char :=
  let mantissa := match ds with
    | [] => ['0']
    | [d] => [d]
    | d :: rest => d :: '.' :: rest
  let sign := if exponent < 0 then '-' else '+'
  mantissa ++ 'e' :: sign :: padded lay.exponentDigits (Nat.toDigits 10 exponent.natAbs)

/-- A decimal other than zero, without its sign. -/
def Scaled.chars (lay : Layout) (x : Scaled) : List Char :=
  let ds := x.significant
  let exponent := x.leading
  if exponent < lay.positionalFrom || lay.positionalBelow ≤ exponent then
    scientific lay ds exponent
  else if exponent < 0 then
    '0' :: '.' :: (List.replicate (exponent.natAbs - 1) '0' ++ ds)
  else
    positional ds (exponent.toNat + 1)

/-- The text of a number in a layout. -/
def Parts.text (lay : Layout) : Parts → String
  | .nan => lay.notANumber
  | .infinite negative => (if negative then "-" else "") ++ lay.infinity
  | .finite x =>
    (if x.negative then "-" else "") ++
      (if x.mantissa = 0 then "0.0" else String.ofList (x.shortest.chars lay))

/-- The text of a number. -/
def text (x : Float) : String :=
  (Parts.ofFloat x).text layout

end SimpleBinary.Decimal

import SimpleBinary.Numeral.Integer
import SimpleBinary.Decimal.Binary64

/-!
Reading real numbers.

A real is an optional sign before `inf`, `infinity` or `nan` in any case, or before digits with or
without a point and an exponent. Underscores may stand between two digits. The value is the double-precision
number nearest to the decimal; a decimal beyond the greatest of them is an infinity.
-/

set_option autoImplicit false

namespace SimpleBinary.Numeral

open SimpleBinary.Text

/-- A decimal number: `digits * 10 ^ exponent`. -/
structure Fraction where
  digits : Nat
  exponent : Int
  deriving DecidableEq, Repr

/-- The double-precision number nearest to a decimal. A decimal whose first digit stands beyond
10^309 or below 10^-325 is an infinity or zero whatever its digits are. -/
def Fraction.toFloat (x : Fraction) : Float :=
  let leading := x.exponent + (Nat.toDigits 10 x.digits).length
  if x.digits = 0 || leading < -330 then
    0.0
  else if 320 < leading then
    1.0 / 0.0
  else
    match x.exponent with
    | .ofNat e => Float.ofScientific x.digits false e
    | .negSucc e => Float.ofScientific x.digits true (e + 1)

/-- The text without the underscores that stand between two digits; none if there is another
underscore. `afterDigit` tells whether a digit came just before. -/
def joinDigits? (afterDigit : Bool) : List Char → Option (List Char)
  | [] => some []
  | c :: rest =>
    if c = '_' then
      if afterDigit && rest.head?.any Char.isDigit then joinDigits? false rest else none
    else
      (joinDigits? c.isDigit rest).map (c :: ·)

/-- The value of ASCII digits. -/
def decimalOf (cs : List Char) : Nat :=
  ofDigits 10 (cs.filterMap digitOf?)

/-- An exponent: empty, or a letter `e`, an optional sign and at least one digit. -/
def exponent? : List Char → Option Int
  | [] => some 0
  | c :: rest =>
    if c = 'e' || c = 'E' then
      let (negative, ds) := match rest with
        | '-' :: ds => (true, ds)
        | '+' :: ds => (false, ds)
        | ds => (false, ds)
      if ds.isEmpty || !ds.all Char.isDigit then none
      else some (if negative then -(decimalOf ds : Int) else decimalOf ds)
    else
      none

/-- Digits with or without a point and an exponent; at least one digit stands before the exponent. -/
def fraction? (cs : List Char) : Option Fraction :=
  let whole := cs.takeWhile Char.isDigit
  let (part, rest) := match cs.dropWhile Char.isDigit with
    | '.' :: rest => (rest.takeWhile Char.isDigit, rest.dropWhile Char.isDigit)
    | rest => ([], rest)
  if whole.isEmpty && part.isEmpty then
    none
  else
    (exponent? rest).map fun e => ⟨decimalOf (whole ++ part), e - part.length⟩

/-- A real without its sign. -/
def unsignedReal? (cs : List Char) : Option Float :=
  let word := String.ofList (cs.map Char.toLower)
  if word = "inf" || word = "infinity" then
    some (1.0 / 0.0)
  else if word = "nan" then
    some (0.0 / 0.0)
  else do
    (← fraction? (← joinDigits? false cs)).toFloat

/-- A real with or without a sign. -/
def signedReal? : List Char → Option Float
  | '-' :: rest => (unsignedReal? rest).map fun x => -x
  | '+' :: rest => unsignedReal? rest
  | cs => unsignedReal? cs

/-- The number that a real stands for. -/
def real? (t : Text) : Option Float :=
  signedReal? (plain t)

end SimpleBinary.Numeral

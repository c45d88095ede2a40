import SimpleBinary.Text.Ranges

/-!
Digits of all scripts.

A decimal digit (general category Nd) belongs to a run of ten consecutive code points that starts
with the script's zero, so its value is the distance from that zero. The wider class of digits adds
superscripts, circled numbers and the like, which look like digits but have no place in a numeral.
-/

set_option autoImplicit false

namespace SimpleBinary.Text

/-- The code points of the decimal zeros, one for each run of ten decimal digits. -/
def zeros : List Nat :=
  [48, 1632, 1776, 1984, 2406, 2534, 2662, 2790, 2918, 3046, 3174, 3302, 3430, 3558, 3664,
    3792, 3872, 4160, 4240, 6112, 6160, 6470, 6608, 6784, 6800, 6992, 7088, 7232, 7248, 42528,
    43216, 43264, 43472, 43504, 43600, 44016, 65296, 66720, 68912, 69734, 69872, 69942, 70096,
    70384, 70736, 70864, 71248, 71360, 71472, 71904, 72016, 72784, 73040, 73120, 92768, 92864,
    93008, 120782, 120792, 120802, 120812, 120822, 123200, 123632, 125264, 130032]

/-- The value of a decimal digit of any script. -/
def decimalValue? (p : CodePoint) : Option Nat :=
  zeros.findSome? fun start =>
    if start ≤ p.toNat && p.toNat < start + 10 then some (p.toNat - start) else none

/-- Digits that are not decimal: superscripts, subscripts, circled and other enclosed numbers. -/
def otherDigits : Ranges :=
  [(178, 179), (185, 185), (4969, 4977), (6618, 6618), (8304, 8304), (8308, 8313),
    (8320, 8329), (9312, 9320), (9332, 9340), (9352, 9360), (9450, 9450), (9461, 9469),
    (9471, 9471), (10102, 10110), (10112, 10120), (10122, 10130), (68160, 68163),
    (69216, 69224), (69714, 69722), (127232, 127242)]

/-- Whether a code point counts as a digit: a decimal digit or one of the other digits. -/
def isDigit (p : CodePoint) : Bool :=
  (decimalValue? p).isSome || otherDigits.contains p

end SimpleBinary.Text

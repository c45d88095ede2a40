import SimpleBinary.Decimal.Text
import SimpleBinary.Fault
import SimpleBinary.Numeral.Real
import SimpleBinary.Primitive
import SimpleBinary.Text.Blank
import SimpleBinary.Text.Case

/-!
The values of primitive types, and their literals in the generated source.

A schema gives values as text. For an integer type the text is an integer literal, for a
floating-point type a real, in which any text that ends in `nan` is not a number. For characters, a
single code point that is no digit stands for its own number, and all else is an integer.
-/

set_option autoImplicit false

namespace SimpleBinary

/-- A value of a primitive type. -/
inductive Number
  | int (value : Int)
  | real (value : Float)

namespace Number

/-- The value as text: an integer in decimal, a real by the fewest digits that read back. -/
def text : Number → String
  | .int n => toString n
  | .real x => Decimal.text x

/-- The literal of a value in the generated source. Infinities and what is not a number have none of
their own and are taken from the module `math`. -/
def literal : Number → String
  | .int n => toString n
  | .real x =>
    match Decimal.Parts.ofFloat x with
    | .nan => "math.nan"
    | .infinite false => "math.inf"
    | .infinite true => "-math.inf"
    | .finite _ => Decimal.text x

/-- Whether a value can be written. -/
def isWritable : Number → Bool
  | .int n => Numeral.isWritable n
  | .real _ => true

/-- The value itself, if it can be written. -/
def checked (n : Number) : Except Fault Number :=
  if n.isWritable then .ok n else .error .longInteger

/-- Whether a value is at most another one. What is not a number is at most nothing. -/
def le : Number → Number → Bool
  | .int m, .int n => m ≤ n
  | .real x, .real y => x ≤ y
  | .int m, .real y => Float.ofInt m ≤ y
  | .real x, .int n => x ≤ Float.ofInt n

end Number

/-- The number of the code point of a text that is one and no digit. -/
def characterValue? (t : Text) : Option Int :=
  match t with
  | [p] => if Text.isDigit p then none else some p.toNat
  | _ => none

/-- The integer that a text stands for. -/
def integerValue (t : Text) : Except Fault Int :=
  (Numeral.integer .literal t).mapError (Fault.ofNumeral 0 (Text.quoted t))

/-- The real that a text stands for. -/
def realValue (t : Text) : Except Fault Float :=
  if ['n', 'a', 'n'].isSuffixOf t.lower.chars then
    .ok (0.0 / 0.0)
  else
    match Numeral.real? t with
    | some x => .ok x
    | none => .error (.notReal t)

namespace Primitive

/-- The value of the type that a text stands for, blanks around it left aside. -/
def parse (p : Primitive) (text : Text) : Except Fault Number :=
  let t := text.trim
  if p.isReal then
    (realValue t).map .real
  else if p = .char then
    match characterValue? t with
    | some n => .ok (.int n)
    | none => (integerValue t).map .int
  else
    (integerValue t).map .int

/-- The literal of the value that a text stands for. -/
def render (p : Primitive) (text : Text) : Except Fault String := do
  return (← (← p.parse text).checked).literal

end Primitive

/-- Whether a text occurs in another one. -/
def occursIn (part : List Char) : List Char → Bool
  | [] => part.isEmpty
  | c :: rest => part.isPrefixOf (c :: rest) || occursIn part rest

/-- The modules that a literal is taken to need: `math`, if that name and a point occur in it. -/
def literalModules (literal : String) : List String :=
  if occursIn ['m', 'a', 't', 'h', '.'] literal.toList then ["math"] else []

end SimpleBinary

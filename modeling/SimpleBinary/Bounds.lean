import SimpleBinary.Number
import SimpleBinary.Token.Basic

/-!
The range of a primitive type and its null value.

Each type reserves one value for "no value" and lays it outside the range, so that a range check
rejects it: the most negative signed integer, the greatest unsigned one, the zero character, and what
is not a number. An encoding may set the least value, the greatest value and the null value, each on
its own; it is worth a warning if the null value then lies inside the range.
-/

set_option autoImplicit false

namespace SimpleBinary

/-- A range and a null value. -/
structure Bounds where
  min : Number
  max : Number
  null : Number

/-- The greatest finite number of four bytes. -/
def floatMax : Float := 3.4028234663852886e38

/-- The greatest finite number of eight bytes. -/
def doubleMax : Float := 1.7976931348623157e308

/-- The bounds of a type whose encoding sets none. -/
def Primitive.bounds (p : Primitive) : Bounds :=
  let whole : Int := Nat.pow 2 (p.size * 8)
  let half : Int := Nat.pow 2 (p.size * 8 - 1)
  match p with
  | .char => ⟨.int 32, .int 126, .int 0⟩
  | .float => ⟨.real (-floatMax), .real floatMax, .real (0.0 / 0.0)⟩
  | .double => ⟨.real (-doubleMax), .real doubleMax, .real (0.0 / 0.0)⟩
  | .int8 | .int16 | .int32 | .int64 =>
    ⟨.int (-half + 1), .int (half - 1), .int (-half)⟩
  | .uint8 | .uint16 | .uint32 | .uint64 =>
    ⟨.int 0, .int (whole - 2), .int (whole - 1)⟩

/-- A warning: the null value of a type lies in its range. -/
structure Warning where
  type : Primitive
  bounds : Bounds

/-- The text of a warning. -/
def Warning.message (w : Warning) : String :=
  s!"{w.type.name}: null value {w.bounds.null.literal} lies inside " ++
    s!"[{w.bounds.min.literal}, {w.bounds.max.literal}] and will pass range checks"

namespace Bounds

/-- Whether the null value lies in the range. -/
def nullInRange (b : Bounds) : Bool :=
  b.min.le b.null && b.null.le b.max

/-- The modules that the literals need. -/
def modules (b : Bounds) : List String :=
  [b.min, b.max, b.null].flatMap fun n => literalModules n.literal

/-- The value that a text sets, or the default where there is no text. -/
def override (p : Primitive) (default : Number) : Option Text → Except Fault Number
  | none => .ok default
  | some text => p.parse text

/-- The bounds of a type in an encoding, if they can be written. -/
def resolve (p : Primitive) (e : Encoding) : Except Fault Bounds := do
  let min ← override p p.bounds.min e.minValue
  let max ← override p p.bounds.max e.maxValue
  let null ← override p p.bounds.null e.nullValue
  return ⟨← min.checked, ← max.checked, ← null.checked⟩

/-- The warning that the bounds of a type deserve. -/
def warning? (p : Primitive) (b : Bounds) : Option Warning :=
  if b.nullInRange then some ⟨p, b⟩ else none

end Bounds

end SimpleBinary

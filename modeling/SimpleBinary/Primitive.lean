/-!
The primitive types of the wire format.

A message is made of characters, of signed and unsigned integers of one, two, four and eight bytes,
and of two kinds of floating-point numbers. Each type has a code in the notation of packed formats.
-/

set_option autoImplicit false

namespace SimpleBinary

/-- A primitive type. -/
inductive Primitive
  | char
  | int8
  | int16
  | int32
  | int64
  | uint8
  | uint16
  | uint32
  | uint64
  | float
  | double
  deriving DecidableEq, Repr

namespace Primitive

/-- All primitive types. -/
def all : List Primitive :=
  [.char, .int8, .int16, .int32, .int64, .uint8, .uint16, .uint32, .uint64, .float, .double]

/-- The name of a type in a schema. -/
def name : Primitive → String
  | .char => "char"
  | .int8 => "int8"
  | .int16 => "int16"
  | .int32 => "int32"
  | .int64 => "int64"
  | .uint8 => "uint8"
  | .uint16 => "uint16"
  | .uint32 => "uint32"
  | .uint64 => "uint64"
  | .float => "float"
  | .double => "double"

/-- The number of bytes that a value takes. -/
def size : Primitive → Nat
  | .char | .int8 | .uint8 => 1
  | .int16 | .uint16 => 2
  | .int32 | .uint32 | .float => 4
  | .int64 | .uint64 | .double => 8

/-- The code of a type in a packed format. -/
def code : Primitive → Char
  | .char => 's'
  | .int8 => 'b'
  | .int16 => 'h'
  | .int32 => 'i'
  | .int64 => 'q'
  | .uint8 => 'B'
  | .uint16 => 'H'
  | .uint32 => 'I'
  | .uint64 => 'Q'
  | .float => 'f'
  | .double => 'd'

/-- Whether the values of a type have a sign. -/
def isSigned : Primitive → Bool
  | .int8 | .int16 | .int32 | .int64 | .float | .double => true
  | _ => false

/-- Whether the values of a type are floating-point numbers. -/
def isReal : Primitive → Bool
  | .float | .double => true
  | _ => false

/-- Whether the values of a type are integers; characters are not. -/
def isInteger : Primitive → Bool
  | .char | .float | .double => false
  | _ => true

/-- The type of a name. -/
def ofName? (s : String) : Option Primitive :=
  all.find? (·.name == s)

theorem mem_all (p : Primitive) : p ∈ all := by
  cases p <;> simp [all]

theorem ofName?_name (p : Primitive) : ofName? p.name = some p := by
  cases p <;> rfl

theorem isReal_iff (p : Primitive) : p.isReal = true ↔ p = .float ∨ p = .double := by
  cases p <;> simp [isReal]

end Primitive

end SimpleBinary

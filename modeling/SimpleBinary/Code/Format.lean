import SimpleBinary.Primitive

/-!
Packed formats: what the generated source reads and writes at once.

A format is a row of primitive types, each with a count or without one, which counts as one. It is
written with the count in front of the code of the type, and it packs as many bytes as its values
take, without padding.
-/

set_option autoImplicit false

namespace SimpleBinary.Code

/-- Values of one type in a row. -/
structure Packed where
  count : Option Int := none
  type : Primitive
  deriving DecidableEq

/-- The text of values in a row. -/
def Packed.text (p : Packed) : String :=
  (match p.count with
    | some n => toString n
    | none => "") ++ p.type.code.toString

/-- The number of bytes that values in a row take. -/
def Packed.size (p : Packed) : Int :=
  p.count.getD 1 * p.type.size

/-- A packed format. -/
abbrev Format := List Packed

namespace Format

/-- The format of one value. -/
def one (type : Primitive) : Format :=
  [{ type }]

/-- The format of several values of one type. -/
def many (count : Int) (type : Primitive) : Format :=
  [{ count := some count, type }]

/-- The text of a format. -/
def text (f : Format) : String :=
  String.join (f.map Packed.text)

/-- The number of bytes that a format packs. -/
def size (f : Format) : Int :=
  f.foldr (fun p bytes => p.size + bytes) 0

theorem size_one (type : Primitive) : size (one type) = type.size := by
  simp [size, one, Packed.size]

theorem size_many (count : Int) (type : Primitive) : size (many count type) = count * type.size := by
  simp [size, many, Packed.size]

end Format

end SimpleBinary.Code

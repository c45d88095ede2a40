import SimpleBinary.Codec.Basic

/-!
The integers that enumerations and choice sets are written as.

The type is the one that the token gives. A token without a type, or with characters, stands for the
unsigned integer of its length. Floating-point numbers are refused.
-/

set_option autoImplicit false

namespace SimpleBinary.Codec

open Code

/-- The unsigned integer of a number of bytes. -/
def unsignedOf (length : Option Int) : Option Primitive :=
  if length = some 1 then some .uint8
  else if length = some 2 then some .uint16
  else if length = some 4 then some .uint32
  else if length = some 8 then some .uint64
  else none

/-- The integer type that a token is written as. -/
def integerType (t : Token) : Except Fault Primitive :=
  match t.primitive.filter (· != .char) with
  | none =>
    match unsignedOf t.encodedLength with
    | some type => .ok type
    | none => inconsistent (.integerWidth t.name t.encodedLength)
  | some type =>
    if type.isInteger then .ok type else inconsistent (.notInteger t.name type)

/-- The class name of a token that opens an enumeration or a set. -/
def definedName (t : Token) : Except Fault String :=
  match t.typeName with
  | .text name => .ok (Identifier.typeName name)
  | name => .error (.notText name.kind)

/-- The first of some tokens, which must open a construct. -/
def opening (construct : Construct) : List Token → Except Fault Token
  | [] => .error (.pastEnd .list)
  | first :: _ =>
    if first.signal = .opens construct then .ok first
    else inconsistent (.otherConstruct (.opens construct) first.signal first.name)

/-- The bytes that a token says its value takes, read. -/
def packedOf (type : Primitive) (t : Token) : List Expr :=
  [ordered (.one type), readExact (.int t.encodedLength)]

end SimpleBinary.Codec

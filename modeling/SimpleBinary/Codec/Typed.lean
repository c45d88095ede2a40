import SimpleBinary.Codec.Basic
import SimpleBinary.Text.Blank
import SimpleBinary.Text.Split

/-!
Fields of enumerations, choice sets and composites.

The class of the field reads and writes itself. The value of an enumeration is replaced when it is
read, a set or a composite reads into the object that is there. A constant of an enumeration is named
by the text of the field, with or without the name of the type in front, or given as a number.
-/

set_option autoImplicit false

namespace SimpleBinary.Codec

open Code

/-- Whether a text is a number of an enumeration: digits after any number of minus signs. -/
def isNumeral (t : Text) : Bool :=
  let digits := t.dropWhile (· == .char '-')
  !digits.isEmpty && digits.all Text.isDigit

/-- A constant of an enumeration class, by the name that the schema has for it. -/
def enumerationMember (type : String) (name : Text) : Expr :=
  .member (.name type) (Identifier.constantName name)

/-- The constant of an enumeration that the text of a field names. -/
def enumerationConstant (type : String) (field : Token) : Except Fault Expr :=
  let t := (field.encoding.constValue.getD []).trim
  match (Text.split (.char '.') t).reverse with
  | last :: _ :: _ => .ok (enumerationMember type last)
  | _ =>
    if t.isEmpty then
      .ok (.apply type [.count 0])
    else if isNumeral t then do
      let n ← (Numeral.integer .decimal t).mapError (Fault.ofNumeral 10 (Text.quoted t))
      return .apply type [.count n]
    else
      .ok (enumerationMember type t)

/-- The bodies of a constant of an enumeration. -/
def enumerationConstantBodies (type property : String) (field : Token) : Except Fault Bodies := do
  let value ← enumerationConstant type field
  let set := Stmt.assign (.own property) value
  return { decode := [set], init := [set] }

/-- The statement that lets an object check itself. -/
def checkOwn (value : Expr) : Stmt :=
  .run (.send value "range_check" [.name "acting_version", .name "schema_version"])

/-- The bodies of a field whose value is a member of an enumeration. -/
def enumerationBodies (type property : String) : Bodies :=
  let target := Expr.own property
  let value := Expr.apply type [target]
  { zero := [.assign target (.apply type [.count 0])]
    encode := [.run (.send value "encode" [.name "writer", .name "order"])]
    decode := [whenPresent property
      [.assign target (.send (.name type) "decode"
        [.name "reader", .name "order", .name "acting_version"])]
      [.assign target (.member (.name type) "NULL_VALUE")]]
    rangeCheck := [.branch (isPresent property) [checkOwn value] []] }

/-- The bodies of a field whose value is an object that reads and writes itself. -/
def objectBodies (type property : String) : Bodies :=
  let target := Expr.own property
  { zero := [.assign target (.apply type [])]
    encode := [.run (.send target "encode" [.name "writer", .name "order"])]
    decode := [whenPresent property
      [.run (.send target "decode" [.name "reader", .name "order", .name "acting_version"])]
      [.assign target (.apply type [])]] }

/-- The bodies of a field with a class, the accessors left aside. -/
def valueOfTypeBodies (construct : Construct) (type property : String) (field : Token) :
    Except Fault Bodies :=
  match construct with
  | .enumeration =>
    if field.isConstant then enumerationConstantBodies type property field
    else .ok (enumerationBodies type property)
  | .composite =>
    .ok { objectBodies type property with
      rangeCheck := [.branch (isPresent property) [checkOwn (.own property)] []] }
  | _ => .ok (objectBodies type property)

/-- The class of a field: a composite with a plan of its own is named already, and all other classes
are those of other modules. -/
def typeOf (typeName : Datum) (nested : Option String) : Emission String :=
  match nested, typeName with
  | some type, _ => pure type
  | none, .text name => do
    let type := Identifier.typeName name
    Emission.note (.type type)
    return type
  | none, name => Emission.fail (.notText name.kind)

/-- The bodies of a field of an enumeration, a set or a composite; the class of a composite with a
plan of its own is given. -/
def typedBodies (construct : Construct) (typeName : Datum) (field : Token) (nested : Option String) :
    Emission Bodies := do
  let property := Identifier.propertyName field.name
  let type ← typeOf typeName nested
  Emission.demand (fieldWritable field)
  let bodies ← Emission.ofExcept (valueOfTypeBodies construct type property field)
  return { bodies with accessors := fieldAccessors property field }

end SimpleBinary.Codec

import SimpleBinary.Codec.Integer

/-!
The class of an enumeration.

Its values are integers. One that the schema does not know, from a producer with a newer schema, is
read and written like any other; only the range check objects to it, and only where the data is not
newer than the schema.
-/

set_option autoImplicit false

namespace SimpleBinary

open Code

/-- A value of an enumeration: its token, its name as a constant, and the number it stands for. -/
structure Enumerator where
  token : Token
  name : String
  value : Number

/-- An enumeration. -/
structure Enumeration where
  name : String
  /-- The type that values are given in. -/
  type : Primitive
  /-- The type that they are written as. -/
  wire : Primitive
  token : Token
  null : Number
  values : List Enumerator

namespace Enumeration

/-- The value that a token stands for. -/
def enumerator (type : Primitive) (t : Token) : Except Fault Enumerator := do
  let value ← (← type.parse (t.encoding.constValue.getD "None")).checked
  return { token := t, name := Identifier.constantName t.name, value }

/-- The null value of an encoding: the one it sets, or that of the type. -/
def nullOf (type : Primitive) (e : Encoding) : Except Fault Number :=
  Bounds.override type type.bounds.null e.nullValue

/-- The enumeration that tokens describe. -/
def ofTokens (tokens : List Token) : Emission Enumeration := do
  let token ← Emission.ofExcept (Codec.opening .enumeration tokens)
  let name ← Emission.ofExcept (Codec.definedName token)
  let type := token.primitive.getD .uint8
  let wire ← Emission.ofExcept (Codec.integerType token)
  let null ← Emission.ofExcept (nullOf type token.encoding)
  Emission.note (.defined name)
  Emission.note (.module "struct")
  Emission.note (.helper .readExact)
  Emission.note (.helper .rangeCheckError)
  let values ← Emission.ofExcept
    ((tokens.filter (·.signal == .validValue)).mapM (enumerator type))
  let null ← Emission.ofExcept null.checked
  Emission.demand (Codec.isWritable token.encodedLength &&
    values.all fun v => Codec.versionsWritable v.token)
  return { name, type, wire, token, null, values }

/-- The names of the values, for the reader. -/
def doc (e : Enumeration) : String :=
  let names := ", ".intercalate (e.values.map Enumerator.name)
  s!"Enumeration over {e.type.name}: " ++ (if names.isEmpty then "no values" else names) ++ "."

/-- The dictionary from numbers to names. -/
def names (e : Enumeration) : Expr :=
  .member (.name e.name) "_NAMES"

/-- An object as a plain number. -/
def selfNumber : Expr :=
  .apply "int" [.self]

/-- The method that shows a value by its name, if it has one. -/
def showMethod (e : Enumeration) : Method where
  name := "__repr__"
  params := Param.ofNames ["self"]
  body := [
    .assign (.name "label") (.send e.names "get" [selfNumber]),
    .give (some (.choose (.name "label")
      (.template [.text (e.name ++ "."), .value (.name "label")])
      (.template [.text (e.name ++ "("), .value selfNumber, .text ")"])))]

/-- The method that writes a value. -/
def encodeMethod (e : Enumeration) : Method where
  name := "encode"
  params := Param.ofNames ["self", "writer", "order"]
  body := [Codec.writePacked (.one e.wire) [.self]]

/-- The method that reads a value. -/
def decodeMethod (e : Enumeration) : Method where
  decorators := [.name "classmethod"]
  name := "decode"
  params := Param.ofNames ["cls", "reader", "order", "acting_version"]
  body := [
    .unpack [.name "value"] Codec.unpack (Codec.packedOf e.wire e.token),
    .give (some (.apply "cls" [.name "value"]))]

/-- The method that refuses a value without a name. -/
def rangeCheckMethod (e : Enumeration) : Method where
  name := "range_check"
  params := Param.ofNames ["self", "acting_version", "schema_version"]
  body := [
    .remark "Values added by a newer schema are not errors",
    .branch (.binary .greater (.name "acting_version") (.name "schema_version")) [.give none] [],
    .branch (.binary .absent selfNumber e.names)
      [Codec.complain [
        .text s!"Range check failed on {e.name}: unknown enumeration value ",
        .value selfNumber]] []]

/-- Sets an attribute of the class to one of its values. -/
def setMember (e : Enumeration) (name : String) (value : Number) : Stmt :=
  .assign (.member (.name e.name) name) (.apply e.name [.number value])

/-- The class of an enumeration. -/
def toClass (e : Enumeration) : ClassDef where
  name := e.name
  base := some "int"
  doc := e.doc
  constants := [.assign (.name "__slots__") (.tuple [])]
  methods :=
    [e.showMethod, e.encodeMethod, e.decodeMethod, e.rangeCheckMethod,
      .static "encoded_length" [] (.int e.token.encodedLength)] ++
    e.values.flatMap fun v => Codec.versionAccessors (Identifier.propertyName v.token.name) v.token
  trailer :=
    (e.values.map fun v => e.setMember v.name v.value) ++
    [e.setMember "NULL_VALUE" e.null,
      .assign e.names (.dict (e.values.map fun v => (.number v.value, .label v.name)))]

end Enumeration

end SimpleBinary

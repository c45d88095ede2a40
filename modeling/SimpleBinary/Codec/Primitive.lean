import SimpleBinary.Code.Print
import SimpleBinary.Codec.Basic

/-!
Fields of a primitive type.

A field holds one value, an array of values, or a text of characters, which is read and written as
bytes. What is not there in the acting version is the null value, as often as the field has values. A
constant is neither written nor read: it gets its value wherever the others get theirs.
-/

set_option autoImplicit false

namespace SimpleBinary.Codec

open Code

/-- What a field holds. -/
inductive Extent
  | text (count : Int)
  | array (count : Int)
  | single

namespace Extent

/-- What a field with a number of values of a type holds. -/
def of (type : Primitive) (count : Int) : Extent :=
  if type = .char then .text count
  else if 1 < count then .array count
  else .single

/-- The format that the values are packed in. -/
def format (type : Primitive) : Extent → Format
  | .text count => .many count .char
  | .array count => .many count type
  | .single => .one type

/-- A single zero. -/
def zeroValue (type : Primitive) : Expr :=
  if type.isReal then .number (.real 0.0) else .count 0

/-- The value before anything is read. -/
def zero (type : Primitive) : Extent → Expr
  | .text count => .apply "bytes" [.count count]
  | .array count => .binary .times (.list [zeroValue type]) (.count count)
  | .single => zeroValue type

/-- The value where the field is not there, given the null value of its type. -/
def absent (null : Expr) : Extent → Expr
  | .text count => .binary .times (.apply "bytes" [.list [null]]) (.count count)
  | .array count => .binary .times (.list [null]) (.count count)
  | .single => null

/-- Reads the values. -/
def read (type : Primitive) (target : Expr) (size : Int) : Extent → Stmt
  | .text count => .assign target (readExact (.count count))
  | .array count =>
    .assign target
      (.apply "list" [.call unpack (packedArguments (format type (.array count)) size)])
  | .single => .unpack [target] unpack (packedArguments (format type .single) size)

/-- The values as they are packed. -/
def packedValue (value : Expr) : Extent → Expr
  | .array _ => .spread value
  | _ => value

end Extent

/-- Whether a value is out of the range of an attribute. What is not a number is neither below nor
above, and out of every range. -/
def outOfRange (type : Primitive) (property : String) (value : Expr) : Expr :=
  let below := .binary .less value (.call (.own (property ++ "_min_value")) [])
  let above := .binary .greater value (.call (.own (property ++ "_max_value")) [])
  if type.isReal then
    .binary .either
      (.binary .either (.send (.name "math") "isnan" [value]) below) above
  else
    .binary .either below above

/-- The complaint about a value, under the name of the attribute. -/
def complainOutside (name : List Piece) (property : String) (value : Expr) : Stmt :=
  complain (name ++ [.text ": ", .value value, .text " outside [",
    .value (.call (.own (property ++ "_min_value")) []), .text ", ",
    .value (.call (.own (property ++ "_max_value")) []), .text "]"])

/-- The check of the values of an attribute. Packing would pad or cut what has another number of
values, so the number is checked too. -/
def rangeCheckStmts (type : Primitive) (owner property : String) : Extent → List Stmt
  | .single =>
    let value := .own property
    [.branch (outOfRange type property value)
      [complainOutside [.text s!"Range check failed on {owner}.{property}"] property value] []]
  | .text count | .array count =>
    let values := .own property
    let value := .name "value"
    [.branch (.binary .differs (.length values) (.count count))
        [complain [.text s!"Range check failed on {owner}.{property}: length ",
          .value (.length values), .text s!" is not {count}"]] [],
      .loop ["idx", "value"] (.apply "enumerate" [values])
        [.branch (outOfRange type property value)
          [complainOutside
            [.text s!"Range check failed on {owner}.{property}[", .value (.name "idx"), .text "]"]
            property value] []]]

/-- The check of a character encoding, if it has one. -/
def validatorStmts (owner property : String) (characterEncoding : Datum) :
    Emission (List Stmt) := do
  match ← Emission.ofExcept (Helper.validator? characterEncoding) with
  | some validator =>
    Emission.note (.helper validator)
    return [.run (.apply validator.name [.label s!"{owner}.{property}", .own property])]
  | none => return []

/-- The text of a constant: that of the encoding unless it is empty, then that of the field. -/
def constantText (field encoding : Token) : Text :=
  ((encoding.encoding.constValue.filter (!·.isEmpty)).or field.encoding.constValue).getD "None"

/-- The value of a constant: the bytes of a text of characters, or a number. -/
def constantValue (type : Primitive) (text : Text) : Except Fault Expr :=
  if type = .char then
    (text.encode.mapError Fault.notEncodable).map .bytes
  else do
    return .number (← (← type.parse text).checked)

/-- The accessors of the bounds of an attribute. -/
def boundAccessors (property : String) (b : Bounds) : List Method :=
  [.static (property ++ "_min_value") [] (.number b.min),
    .static (property ++ "_max_value") [] (.number b.max),
    .static (property ++ "_null_value") [] (.number b.null)]

/-- A number of values that must not be missing: where it is, what is done with it fails. -/
def countOf (encoding : Token) (fault : Fault) : Emission Int :=
  match encoding.arrayLength with
  | some count => pure count
  | none => Emission.fail fault

/-- The accessor of the character encoding of a text with more than one character. -/
def textAccessors (type : Primitive) (property : String) (encoding : Token) :
    Emission (List Method) :=
  if type = .char then do
    let count ← countOf encoding (.noOrder ">" .null .int)
    if 1 < count then
      Emission.demand (isShowable encoding.encoding.characterEncoding)
      return [characterEncodingAccessor property encoding.encoding]
    else
      return []
  else
    pure []

/-- Whether the number of values and the number of their bytes can be written, where they are. -/
def Extent.isWritable (type : Primitive) (count : Int) : Extent → Bool
  | .text count => Numeral.isWritable count
  | .array count => Numeral.isWritable count && Numeral.isWritable (type.size * count)
  | .single => Numeral.isWritable (type.size * count)

/-- The bodies of a field whose values are on the wire, the accessors left aside. -/
def valueBodies (owner property : String) (type : Primitive) (encoding : Token) :
    Emission Bodies := do
  Emission.note (.module "struct")
  Emission.note (.helper .readExact)
  Emission.note (.helper .rangeCheckError)
  let count ← countOf encoding (.noArithmetic "*" .int .null)
  let extent := Extent.of type count
  Emission.demand (extent.isWritable type count)
  let target := Expr.own property
  let null := Expr.call (.own (property ++ "_null_value")) []
  if type.isReal then Emission.note (.module "math")
  let validation ←
    if type = .char then validatorStmts owner property encoding.encoding.characterEncoding
    else pure []
  return {
    zero := [.assign target (extent.zero type)]
    encode := [writePacked (extent.format type) [extent.packedValue target]]
    decode := [whenPresent property [extent.read type target (type.size * count)]
      [.assign target (extent.absent null)]]
    rangeCheck := [.branch (isPresent property)
      (rangeCheckStmts type owner property extent ++ validation) []] }

/-- The bodies of a constant, the accessors left aside. -/
def constantBodies (property : String) (type : Primitive) (field encoding : Token) :
    Emission Bodies := do
  let value ← Emission.ofExcept (constantValue type (constantText field encoding))
  Emission.noteModules (literalModules value.text)
  let set := Stmt.assign (.own property) value
  return { decode := [set], init := [set] }

/-- The bodies of a field of a primitive type. -/
def primitiveBodies (owner : String) (field encoding : Token) : Emission Bodies := do
  let property := Identifier.propertyName field.name
  Emission.demand (fieldWritable field)
  let type ← Emission.ofOption "is_integer" encoding.primitive
  let b ← Emission.bounds type encoding.encoding
  Emission.noteModules b.modules
  let texts ← textAccessors type property encoding
  let bodies ←
    if encoding.isConstant || field.isConstant then
      constantBodies property type field encoding
    else
      valueBodies owner property type encoding
  return { bodies with
    accessors := fieldAccessors property field ++ boundAccessors property b ++ texts }

end SimpleBinary.Codec

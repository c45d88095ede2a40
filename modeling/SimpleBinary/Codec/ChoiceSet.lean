import SimpleBinary.Codec.Integer
import SimpleBinary.Text.Blank

/-!
The class of a choice set.

A set holds a truth value for each bit of its integer, named by a choice or not, so that bits which
the schema does not know survive reading and writing.
-/

set_option autoImplicit false

namespace SimpleBinary

open Code

/-- A choice of a set: its token, the names of its attribute and of its constant, and its bit. -/
structure Choice where
  token : Token
  property : String
  constant : String
  bit : Int

/-- A choice set. -/
structure ChoiceSet where
  name : String
  /-- The type that a set is written as. -/
  wire : Primitive
  token : Token
  /-- The number of bits. -/
  width : Int
  choices : List Choice

namespace ChoiceSet

/-- The choice that a token of a set stands for. Its bit must be one of the set. -/
def choice (set : String) (width : Int) (t : Token) : Except Fault Choice := do
  let bit ← integerValue (t.encoding.constValue.getD "None").trim
  if 0 ≤ bit ∧ bit < width then
    return {
      token := t
      property := Identifier.propertyName t.name
      constant := Identifier.constantName t.name
      bit }
  else
    inconsistent (.choiceBit set t.name bit width)

/-- The number of bits of a token. -/
def widthOf (t : Token) : Except Fault Int :=
  match t.encodedLength with
  | some length => .ok (length * 8)
  | none => .error (.noArithmetic "*" .null .int)

/-- The set that tokens describe. -/
def ofTokens (tokens : List Token) : Emission ChoiceSet := do
  let token ← Emission.ofExcept (Codec.opening .choiceSet tokens)
  let name ← Emission.ofExcept (Codec.definedName token)
  let wire ← Emission.ofExcept (Codec.integerType token)
  let width ← Emission.ofExcept (widthOf token)
  let choices ← Emission.ofExcept
    ((tokens.filter (·.signal == .choice)).mapM (choice name width))
  Emission.note (.defined name)
  Emission.note (.module "struct")
  Emission.note (.helper .readExact)
  Emission.demand (Numeral.isWritable width && Codec.isWritable token.encodedLength &&
    choices.all fun c => Codec.versionsWritable c.token)
  return { name, wire, token, width, choices }

/-- The truth values of the bits. -/
def bits : Expr :=
  .own "bits"

/-- The integer that a set is written as, in the methods that write and read it. -/
def wireValue : Expr :=
  .name "wire"

/-- The method that makes an empty set. -/
def initMethod (s : ChoiceSet) : Method where
  name := "__init__"
  params := Param.ofNames ["self"]
  body := [.assign bits (.binary .times (.list [.name "False"]) (.count s.width))]

/-- The method that compares sets. -/
def equalMethod : Method where
  name := "__eq__"
  params := Param.ofNames ["self", "other"]
  body := [.give (some (.binary .both
    (.binary .same (.apply "type" [.self]) (.apply "type" [.name "other"]))
    (.binary .equals bits (.member (.name "other") "bits"))))]

/-- The method that shows a set by the names of its choices. -/
def showMethod (s : ChoiceSet) : Method where
  name := "__repr__"
  params := Param.ofNames ["self"]
  body := [
    .assign (.name "names") (.list [.each (.name "label") ["label", "bit"] (.own "_CHOICES")
      (some (.item bits (.name "bit")))]),
    .give (some (.template [.text (s.name ++ "("),
      .value (.send (.words ", ") "join" [.name "names"]), .text ")"]))]

/-- The method that writes a set. -/
def encodeMethod (s : ChoiceSet) : Method where
  name := "encode"
  params := Param.ofNames ["self", "writer", "order"]
  body := [
    .assign wireValue (.count 0),
    .loop ["bit", "value"] (.apply "enumerate" [bits])
      [.branch (.name "value")
        [.update wireValue .bitOr (.binary .shiftLeft (.count 1) (.name "bit"))] []],
    Codec.writePacked (.one s.wire) [wireValue]]

/-- The method that reads a set. -/
def decodeMethod (s : ChoiceSet) : Method where
  name := "decode"
  params := Param.ofNames ["self", "reader", "order", "acting_version"]
  body := [
    .unpack [wireValue] Codec.unpack (Codec.packedOf s.wire s.token),
    .assign bits (.list [.each
      (.apply "bool" [.binary .bitAnd (.binary .shiftRight wireValue (.name "bit")) (.count 1)])
      ["bit"] (.apply "range" [.count s.width]) none])]

/-- The accessors of a choice: one that reads its bit, one that sets it, and those of its
versions. -/
def choiceMethods (c : Choice) : List Method :=
  let bit := Expr.item bits (.count c.bit)
  [{ decorators := [.name "property"]
     name := c.property
     params := Param.ofNames ["self"]
     body := [.give (some bit)] },
   { decorators := [.member (.name c.property) "setter"]
     name := c.property
     params := Param.ofNames ["self", "value"]
     body := [.assign bit (.apply "bool" [.name "value"])] }] ++
    Codec.versionAccessors c.property c.token

/-- The class of a choice set. -/
def toClass (s : ChoiceSet) : ClassDef where
  name := s.name
  doc := s!"Bit set over {s.width} bits."
  constants :=
    (s.choices.map fun c => .assign (.name c.constant) (.count c.bit)) ++
    [.assign (.name "_CHOICES")
      (.tuple (s.choices.map fun c => .tuple [.label c.property, .count c.bit]))]
  methods :=
    [s.initMethod, equalMethod, s.showMethod, s.encodeMethod, s.decodeMethod,
      .static "encoded_length" [] (.int s.token.encodedLength)] ++
    s.choices.flatMap choiceMethods

end ChoiceSet

end SimpleBinary

import SimpleBinary.Datum
import SimpleBinary.Primitive
import SimpleBinary.Signal

/-!
Tokens: the entries of a flattened schema.

A token carries a signal, a name, the numbers that place it in the message, and the attributes of
its encoding. A number may be missing altogether, and so may the primitive type and the presence;
attributes that only pass through to the generated source stay as the document spelled them.
-/

set_option autoImplicit false

namespace SimpleBinary

/-- Whether a field is on the wire always, may hold the null value, or is a constant. -/
inductive Presence
  | required
  | optional
  | constant
  deriving DecidableEq, Repr

namespace Presence

/-- All presences. -/
def all : List Presence :=
  [.required, .optional, .constant]

/-- The name of a presence in a document. -/
def name : Presence → String
  | .required => "required"
  | .optional => "optional"
  | .constant => "constant"

end Presence

/-- The attributes of an encoding. -/
structure Encoding where
  primitive : Option Primitive := none
  presence : Option Presence := some .required
  constValue : Option Text := none
  minValue : Option Text := none
  maxValue : Option Text := none
  nullValue : Option Text := none
  characterEncoding : Datum := .null
  epoch : Datum := .null
  timeUnit : Datum := .null
  semanticType : Datum := .null

/-- A token. A field without an offset follows the previous one at once. `tokenCount` is the number
of tokens of the construct that the token opens, or one. -/
structure Token where
  signal : Signal
  name : Text
  referencedName : Datum := .null
  id : Option Int := some (-1)
  version : Option Int := some 0
  deprecated : Option Int := some 0
  offset : Option Int := none
  encodedLength : Option Int := some 0
  arrayLength : Option Int := some 1
  tokenCount : Option Int := some 1
  encoding : Encoding := {}

namespace Token

/-- Whether the encoding is that of a constant. -/
def isConstant (t : Token) : Bool :=
  t.encoding.presence == some .constant

/-- The primitive type of the encoding. -/
def primitive (t : Token) : Option Primitive :=
  t.encoding.primitive

/-- The name of the type that an enumeration, a set or a composite stands for: the name it refers
to, or its own. -/
def typeName (t : Token) : Datum :=
  if t.referencedName.isGiven then t.referencedName else .text t.name

/-- Whether no number of the token is missing, the offset apart. -/
structure Numbered (t : Token) : Prop where
  id : t.id.isSome
  version : t.version.isSome
  deprecated : t.deprecated.isSome
  encodedLength : t.encodedLength.isSome
  arrayLength : t.arrayLength.isSome
  tokenCount : t.tokenCount.isSome

end Token

end SimpleBinary

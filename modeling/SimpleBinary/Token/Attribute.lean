import SimpleBinary.Fault
import SimpleBinary.Numeral.Integer
import SimpleBinary.Text.Case
import SimpleBinary.Token.Basic

/-!
A token as a document writes it: a mapping from the names of its attributes to their values.

An attribute may be written in words with underscores or in camel case, and may stand in the mapping
itself or in a mapping under the key `encoding`. What a token is given is a value for each of some
attributes, whatever the order in which they are written; an attribute that is written twice has the
value that comes last, and those of the inner mapping come first.
-/

set_option autoImplicit false

namespace SimpleBinary

/-- An attribute of a token or of its encoding. -/
inductive Attribute
  | signal
  | name
  | referencedName
  | id
  | version
  | deprecated
  | offset
  | encodedLength
  | arrayLength
  | tokenCount
  | primitive
  | presence
  | constValue
  | minValue
  | maxValue
  | nullValue
  | characterEncoding
  | epoch
  | timeUnit
  | semanticType
  deriving DecidableEq, Repr

namespace Attribute

/-- All attributes. -/
def all : List Attribute :=
  [.signal, .name, .referencedName, .id, .version, .deprecated, .offset, .encodedLength,
    .arrayLength, .tokenCount, .primitive, .presence, .constValue, .minValue, .maxValue,
    .nullValue, .characterEncoding, .epoch, .timeUnit, .semanticType]

/-- The name of an attribute in a document. -/
def key : Attribute → String
  | .signal => "signal"
  | .name => "name"
  | .referencedName => "referenced_name"
  | .id => "id"
  | .version => "version"
  | .deprecated => "deprecated"
  | .offset => "offset"
  | .encodedLength => "encoded_length"
  | .arrayLength => "array_length"
  | .tokenCount => "component_token_count"
  | .primitive => "primitive_type"
  | .presence => "presence"
  | .constValue => "const_value"
  | .minValue => "min_value"
  | .maxValue => "max_value"
  | .nullValue => "null_value"
  | .characterEncoding => "character_encoding"
  | .epoch => "epoch"
  | .timeUnit => "time_unit"
  | .semanticType => "semantic_type"

/-- The attribute of a name. -/
def ofKey? (key : Text) : Option Attribute :=
  all.find? fun a => Text.ofString a.key == key

theorem mem_all (a : Attribute) : a ∈ all := by
  cases a <;> simp [all]

theorem ofKey?_key (a : Attribute) : ofKey? a.key = some a := by
  cases a <;> decide

/-- The text with an underscore before each capital that follows a small letter or a digit. -/
def separate : Text → Text
  | [] => []
  | [p] => [p]
  | before :: p :: after =>
    if p.toChar.isUpper && (before.toChar.isLower || before.toChar.isDigit) then
      before :: .char '_' :: separate (p :: after)
    else
      before :: separate (p :: after)

/-- The form in which keys are compared: in small letters, with underscores between words. -/
def plainKey (key : Text) : Text :=
  Text.lower (separate key)

end Attribute

/-- The values that a token is given. -/
@[ext]
structure Given where
  value? : Attribute → Option Datum

namespace Given

/-- No values. -/
def nothing : Given where
  value? _ := none

/-- The values with that of one attribute set. -/
def set (given : Given) (a : Attribute) (value : Datum) : Given where
  value? b := if b = a then some value else given.value? b

/-- The values with an entry of a mapping added. -/
def add (index : Nat) (given : Given) (entry : Datum × Datum) : Except Fault Given :=
  match entry with
  | (.text key, value) =>
    match Attribute.ofKey? (Attribute.plainKey key) with
    | some a => .ok (given.set a value)
    | none => inconsistent (.unknownKey index (Attribute.plainKey key))
  | (key, _) => .error (.notText key.kind)

/-- Whether a key is the one of the inner mapping. -/
def isEncodingKey : Datum → Bool
  | .text key => key == Text.ofString "encoding"
  | _ => false

/-- The entries under the key `encoding`. -/
def innerEntries (entries : List (Datum × Datum)) : Except Fault (List (Datum × Datum)) :=
  match Datum.find? "encoding" entries with
  | none => .ok []
  | some inner =>
    if inner.isGiven then
      match inner.entries? with
      | some entries => .ok entries
      | none => .error (.noPart inner.kind "items")
    else
      .ok []

/-- The values that an entry of a token list gives. -/
def ofDatum (index : Nat) (d : Datum) : Except Fault Given :=
  match d.entries? with
  | some entries => do
    let inner ← innerEntries entries
    let own := entries.filter fun entry => !isEncodingKey entry.1
    (inner ++ own).foldlM (add index) nothing
  | none => inconsistent (.notMapping index d)

theorem set_comm (given : Given) {a b : Attribute} (x y : Datum) (h : a ≠ b) :
    (given.set a x).set b y = (given.set b y).set a x := by
  ext1
  funext c
  by_cases ha : c = a <;> by_cases hb : c = b <;> simp_all [set]

end Given

/-! ## Values of attributes -/

/-- The member of a list whose name a value is, blanks around it and the case of its letters left
aside. -/
def memberNamed {α : Type} (all : List α) (name : α → String) (kind : String) (value : Datum) :
    Except Fault α := do
  let text := (← value.written).trim
  let upper := Text.upper text
  let lower := Text.lower text
  match all.find? fun m => upper == Text.upper (name m) || lower == Text.lower (name m) with
  | some m => return m
  | none => inconsistent (.unknownName kind value)

namespace Datum

/-- Bytes as a text, in which only those of ASCII stand for characters. -/
def asciiText (bytes : List UInt8) : Text :=
  bytes.map fun b => if b < 0x80 then .char (Char.ofNat b.toNat) else .char '\ufffd'

/-- The value as an integer. A truth value counts as one or zero, a real as its whole part, and a
text, or bytes, as the decimal numeral that they hold. -/
def toInteger : Datum → Except Fault Int
  | .bool b => .ok (if b then 1 else 0)
  | .int n => .ok n
  | .real x =>
    match Decimal.Parts.ofFloat x with
    | .nan => .error .partOfNaN
    | .infinite _ => .error .partOfInfinity
    | .finite parts => .ok parts.wholePart
  | .text t =>
    (Numeral.integer .decimal t).mapError (Fault.ofNumeral 10 (Text.quoted t))
  | .bytes b =>
    (Numeral.integer .decimal (asciiText b)).mapError (Fault.ofNumeral 10 (Text.quotedBytes b))
  | d => .error (.notNumber d.kind)

end Datum

namespace Given

/-- The number of an attribute: the default if it is not given, and none if it is given as null. -/
def number (given : Given) (a : Attribute) (default : Option Int) :
    Except Fault (Option Int) :=
  match given.value? a with
  | none => .ok default
  | some .null => .ok none
  | some value => value.toInteger.map some

/-- The text of an attribute; null is no text. -/
def text (given : Given) (a : Attribute) : Except Fault (Option Text) :=
  match given.value? a with
  | none | some .null => .ok none
  | some value => value.written.map some

/-- The value of an attribute that is kept as it is. -/
def raw (given : Given) (a : Attribute) : Datum :=
  (given.value? a).getD .null

/-- The member that an attribute names: the default if it is not given, and none if it is null. -/
def member {α : Type} (given : Given) (a : Attribute) (all : List α) (name : α → String)
    (kind : String) (default : Option α) : Except Fault (Option α) :=
  match given.value? a with
  | none => .ok default
  | some .null => .ok none
  | some value => (memberNamed all name kind value).map some

/-- The encoding that the values describe. -/
def encoding (given : Given) : Except Fault Encoding := do
  let primitive ← given.member .primitive Primitive.all Primitive.name "primitive type" none
  let presence ← given.member .presence Presence.all Presence.name "presence" (some .required)
  let constValue ← given.text .constValue
  let minValue ← given.text .minValue
  let maxValue ← given.text .maxValue
  let nullValue ← given.text .nullValue
  return {
    primitive, presence, constValue, minValue, maxValue, nullValue
    characterEncoding := given.raw .characterEncoding
    epoch := given.raw .epoch
    timeUnit := given.raw .timeUnit
    semanticType := given.raw .semanticType }

/-- The token that the values describe. A signal and a name are always needed. -/
def token (index : Nat) (given : Given) : Except Fault Token := do
  match given.value? .signal, given.value? .name with
  | some signal, some name =>
    let signal ← memberNamed Signal.all Signal.name "signal" signal
    let name ← name.written
    let id ← given.number .id (some (-1))
    let version ← given.number .version (some 0)
    let deprecated ← given.number .deprecated (some 0)
    let offset ← given.number .offset none
    let encodedLength ← given.number .encodedLength (some 0)
    let arrayLength ← given.number .arrayLength (some 1)
    let tokenCount ← given.number .tokenCount (some 1)
    let encoding ← given.encoding
    return {
      signal, name, id, version, deprecated, offset, encodedLength, arrayLength, tokenCount, encoding
      referencedName := given.raw .referencedName }
  | _, _ => inconsistent (.unnamed index)

end Given

end SimpleBinary

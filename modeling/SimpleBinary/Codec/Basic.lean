import SimpleBinary.Code.Basic
import SimpleBinary.Emission
import SimpleBinary.Identifier
import SimpleBinary.Token.Basic

/-!
What the classes of a package have in common.

Each step of a plan adds to five methods at once: the one that gives every attribute its first value,
those that write, read and check them, and the one that sets the constants. The parts that a step
adds are collected side by side, so that all methods go through the attributes in the same order.
Every class also has accessors, which tell what the schema says about its attributes.

An integer of the schema may be too long to be written. Whether it is shows where source is made of it
for the first time, so the functions here that tell which integers can be written go with those that
make the source.
-/

set_option autoImplicit false

namespace SimpleBinary

open Code

/-- What steps add to the methods of a class. -/
structure Bodies where
  zero : List Stmt := []
  encode : List Stmt := []
  decode : List Stmt := []
  rangeCheck : List Stmt := []
  init : List Stmt := []
  accessors : List Method := []

namespace Bodies

instance : Append Bodies where
  append a b := {
    zero := a.zero ++ b.zero
    encode := a.encode ++ b.encode
    decode := a.decode ++ b.decode
    rangeCheck := a.rangeCheck ++ b.rangeCheck
    init := a.init ++ b.init
    accessors := a.accessors ++ b.accessors }

/-- The bodies of steps that follow each other. -/
def join : List Bodies → Bodies
  | [] => {}
  | b :: rest => b ++ join rest

end Bodies

namespace Codec

/-! ## Accessors -/

/-- A value of the schema as source shows it; one that does not count as given is the empty text. -/
def shown (d : Datum) : Expr :=
  .datum (if d.isGiven then d else .text "")

/-- Whether a value of the schema can be shown. -/
def isShowable (d : Datum) : Bool :=
  !d.isGiven || d.spelling?.isSome

/-- Whether a count of the schema can be written. -/
def isWritable (n : Option Int) : Bool :=
  n.all Numeral.isWritable

/-- The accessors of the versions from which on, and in which, an attribute is there, and of that
which deprecates it. -/
def versionAccessors (property : String) (t : Token) : List Method :=
  [.static (property ++ "_since_version") [] (.int t.version),
    { decorators := [.name "classmethod"]
      name := property ++ "_in_acting_version"
      params := Param.ofNames ["cls", "acting_version"]
      body := [.give (some (.binary .atLeast (.name "acting_version")
        (.send (.name "cls") (property ++ "_since_version") [])))] },
    .static (property ++ "_deprecated") [] (.int t.deprecated)]

/-- Whether the accessors of the versions can be written. -/
def versionsWritable (t : Token) : Bool :=
  isWritable t.version && isWritable t.deprecated

/-- The accessor of the number of an attribute. -/
def idAccessor (property : String) (t : Token) : Method :=
  .static (property ++ "_id") [] (.int t.id)

/-- The accessor of what an encoding says about the meaning of an attribute. -/
def metaAccessor (property : String) (e : Encoding) : Method :=
  .static (property ++ "_meta_attribute") ["meta"]
    (.send
      (.dict [(.label "epoch", shown e.epoch), (.label "time_unit", shown e.timeUnit),
        (.label "semantic_type", shown e.semanticType)])
      "get" [.name "meta", .label ""])

/-- Whether the accessor of the meaning of an attribute can be written. -/
def metaWritable (e : Encoding) : Bool :=
  isShowable e.epoch && isShowable e.timeUnit && isShowable e.semanticType

/-- The accessor of the character encoding of an attribute. -/
def characterEncodingAccessor (property : String) (e : Encoding) : Method :=
  .static (property ++ "_character_encoding") [] (shown e.characterEncoding)

/-- The accessors of a field. A member of a composite has no number and no meaning of its own. -/
def fieldAccessors (property : String) (field : Token) : List Method :=
  if field.signal = .opens .field then
    idAccessor property field :: (versionAccessors property field ++
      [metaAccessor property field.encoding])
  else
    versionAccessors property field

/-- Whether the accessors of a field can be written. -/
def fieldWritable (field : Token) : Bool :=
  if field.signal = .opens .field then
    isWritable field.id && versionsWritable field && metaWritable field.encoding
  else
    versionsWritable field

/-! ## Reading and writing -/

/-- A packed format in the byte order at hand. -/
def ordered (f : Format) : Expr :=
  .binary .add (.name "order") (.format f)

/-- The function that packs values. -/
def pack : Expr :=
  .member (.name "struct") "pack"

/-- The function that unpacks values. -/
def unpack : Expr :=
  .member (.name "struct") "unpack"

/-- Writes some bytes. -/
def write (value : Expr) : Stmt :=
  .run (.send (.name "writer") "write" [value])

/-- Writes packed values. -/
def writePacked (f : Format) (values : List Expr) : Stmt :=
  write (.call pack (ordered f :: values))

/-- Some bytes that are read. -/
def readExact (size : Expr) : Expr :=
  .apply Helper.readExact.name [.name "reader", size]

/-- What is unpacked: a format, and bytes that are read for it. -/
def packedArguments (f : Format) (size : Int) : List Expr :=
  [ordered f, readExact (.count size)]

/-- Whether an attribute is there in the acting version. -/
def isPresent (property : String) : Expr :=
  .call (.own (property ++ "_in_acting_version")) [.name "acting_version"]

/-- One statement where an attribute is there, and another where it is not. -/
def whenPresent (property : String) (yes no : List Stmt) : Stmt :=
  .branch (isPresent property) yes no

/-! ## Checks -/

/-- The complaint that a value is out of its range. -/
def complain (pieces : List Piece) : Stmt :=
  .raise (.apply Helper.rangeCheckError.name [.template pieces])

/-- Refuses a number of items that the size in front of them cannot carry. -/
def lengthCheck (owner property : String) (b : Bounds) : Stmt :=
  .branch (.binary .greater (.length (.own property)) (.number b.max))
    [complain [.text s!"Range check failed on {owner}.{property}: length ",
      .value (.length (.own property)), .text s!" exceeds {b.max.literal}"]] []

end Codec

end SimpleBinary

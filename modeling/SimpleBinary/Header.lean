import SimpleBinary.Fault
import SimpleBinary.Token.Basic

/-!
The header that comes before every message.

It is a composite, and among its encodings are four by fixed names: the length of the block, the
number of the message, and the number and the version of the schema. If two have one name, the later
one counts. Any of the four may lack a primitive type.
-/

set_option autoImplicit false

namespace SimpleBinary

/-- The header of messages. -/
structure Header where
  tokens : List Token
  blockLength : Option Primitive
  templateId : Option Primitive
  schemaId : Option Primitive
  version : Option Primitive

namespace Header

/-- The encoding of a name, the last one if there are several. -/
def member? (tokens : List Token) (name : String) : Option Token :=
  tokens.reverse.find? fun t => t.signal == .encoding && t.name == Text.ofString name

/-- The names of the four members. -/
def memberNames : List String :=
  ["blockLength", "templateId", "schemaId", "version"]

/-- The header that tokens describe. -/
def ofTokens (tokens : List Token) : Except Fault Header :=
  match tokens.head? with
  | some ⟨.opens .composite, _, _, _, _, _, _, _, _, _, _⟩ =>
    match member? tokens "blockLength", member? tokens "templateId", member? tokens "schemaId",
        member? tokens "version" with
    | some blockLength, some templateId, some schemaId, some version =>
      .ok ⟨tokens, blockLength.primitive, templateId.primitive, schemaId.primitive,
        version.primitive⟩
    | _, _, _, _ =>
      inconsistent (.headerMembers (memberNames.filter fun name => (member? tokens name).isNone))
  | _ => inconsistent .headerStart

/-- The number of bytes of a header. -/
def encodedLength (h : Header) : Option Int :=
  h.tokens.head?.bind Token.encodedLength

end Header

/-- What the classes of a schema tell about it. -/
structure Edition where
  id : Int := 0
  version : Int := 0
  header : Header

end SimpleBinary

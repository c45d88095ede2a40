import SimpleBinary.Token.Basic

/-!
Plans: what the class of an entity has to do, step by step.

An entity is a message, the element of a group, or a composite. Its plan lists, in the order of the
wire, the padding and the fields of the fixed block, what closes the block, and the groups and the
variable data after it. Each method of the class is written from the one list, so that all of them go
through the fields in the same order.
-/

set_option autoImplicit false

namespace SimpleBinary

/-- What an entity is. A range of tokens can also be walked on its own, under another label. -/
inductive EntityKind
  | message
  | group
  | composite
  | other (label : String)
  deriving DecidableEq, Repr

namespace EntityKind

/-- The label of a kind. -/
def label : EntityKind → String
  | .message => "message"
  | .group => "group"
  | .composite => "composite"
  | .other label => label

/-- The kind of a label. -/
def ofLabel (label : String) : EntityKind :=
  if label = "message" then .message
  else if label = "group" then .group
  else if label = "composite" then .composite
  else .other label

theorem ofLabel_label (kind : EntityKind) (h : ∀ l, kind ≠ .other l) :
    ofLabel kind.label = kind := by
  cases kind with
  | other l => exact absurd rfl (h l)
  | _ => rfl

end EntityKind

mutual

/-- One step of a plan. -/
inductive Step where
  /-- Bytes that no field covers. They are on the wire from the version of the field that they
  precede. -/
  | gap (size : Int) (since : Option Int) (trailing : Bool)
  /-- A scalar, an array or a constant. In a composite the field is the encoding itself. -/
  | primitive (field encoding : Token)
  /-- An enumeration, a set or a composite. A composite that is a member of a composite has a plan of
  its own. -/
  | typed (construct : Construct) (typeName : Datum) (field type : Token) (nested : Option Plan)
  /-- Bytes that a newer schema has put at the end of the block. The list tells from which version on
  how many bytes of the block are known. -/
  | extensionSkip (known : List (Int × Int))
  /-- A repeating group, with the plan of its elements. -/
  | group (token blockLength numInGroup : Token) (element : Plan)
  /-- Variable data after its length. -/
  | varData (token length data : Token)
  /-- The range check before a message is written. -/
  | encodeValidation
  /-- The range check after a message is read. -/
  | decodeValidation

/-- The plan of an entity. -/
structure Plan where
  typeName : String
  kind : EntityKind
  blockLength : Option Int
  isExtensible : Bool
  token : Option Token
  steps : List Step := []
  consumed : Int := 0

end

namespace Step

/-- Whether the step is a field of the fixed block. -/
def isField : Step → Bool
  | .primitive .. | .typed .. => true
  | _ => false

/-- Whether the step is padding that closes the fixed block. -/
def isTrailingGap : Step → Bool
  | .gap _ _ trailing => trailing
  | _ => false

end Step

namespace Plan

/-- Whether the entity is a message. -/
def isMessage (p : Plan) : Bool :=
  p.kind == .message

end Plan

end SimpleBinary

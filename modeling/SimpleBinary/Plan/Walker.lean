import SimpleBinary.Identifier
import SimpleBinary.Plan.Basic
import SimpleBinary.Token.Span

/-!
From the tokens of an entity to its plan.

A walker goes once over the tokens and keeps the offset that the fixed block has reached. A field
that declares an offset beyond it is preceded by a gap, and one that declares an offset before it is
refused. The first group, variable data or end marker closes the block: what is left of the declared
length becomes a trailing gap, and an entity that newer schemas may extend gets its extension skip,
which knows how much of the block a producer of each version writes. Constants are not on the wire;
they neither pad nor advance.

A walker that fails stays as it is at that point, with the steps it has recorded, and can go on with
other tokens.
-/

set_option autoImplicit false

namespace SimpleBinary

/-- The furthest end of the fields of each version, in the order in which the versions came up. -/
abbrev FieldEnds := List (Option Int × Int)

namespace FieldEnds

/-- The ends with a field of a version added. -/
def record (version : Option Int) (stop : Int) : FieldEnds → FieldEnds
  | [] => [(version, max 0 stop)]
  | (v, e) :: rest =>
    if v = version then (v, max e stop) :: rest else (v, e) :: record version stop rest

/-- The ends in ascending order of the versions. A version that is missing cannot be ordered. -/
def ascending (ends : FieldEnds) : Except Fault (List (Int × Int)) := do
  let known ← ends.mapM fun
    | (some version, stop) => Except.ok (version, stop)
    | (none, _) => .error (.noOrder "<" .null .int)
  return known.mergeSort fun a b => a.1 ≤ b.1

/-- The entries that reach further than all before them. -/
def rising (reached : Int) : List (Int × Int) → List (Int × Int)
  | [] => []
  | (version, stop) :: rest =>
    if reached < stop then (version, stop) :: rising stop rest else rising reached rest

/-- How many bytes of the block are known from which version on: the first version and all that
reach further than the ones before. -/
def knownLengths (ends : FieldEnds) : Except Fault (List (Int × Int)) := do
  match ← ends.ascending with
  | [] => return []
  | (version, stop) :: rest => return (version, stop) :: rising stop rest

end FieldEnds

/-- How far an entity has been walked. -/
structure Walker where
  plan : Plan
  offset : Int := 0
  isClosed : Bool := false
  ends : FieldEnds := [(some 0, 0)]

/-- A part of a walk. A failure keeps the walker as it is at that point. -/
abbrev Walk := EStateM Fault Walker

namespace Walk

/-- The value of a computation, or its fault. -/
def ofExcept {α : Type} : Except Fault α → Walk α
  | .ok a => pure a
  | .error fault => throw fault

/-- Fails with an inconsistency. -/
def fail {α : Type} (cause : Inconsistency) : Walk α :=
  throw (.inconsistent cause)

/-- Records a step. -/
def push (step : Step) : Walk Unit :=
  modify fun w => { w with plan := { w.plan with steps := w.plan.steps ++ [step] } }

/-- The offset that a field declares: the first that is given and not negative, of its own and that
of its type. -/
def declaredOffset (field type : Token) : Option Int :=
  [field.offset, type.offset].findSome? fun offset => offset.filter (0 ≤ ·)

/-- Whether a field is a constant: itself or its encoding. -/
def isConstant (field type : Token) : Bool :=
  field.isConstant || (type.signal == .encoding && type.isConstant)

/-- Pads up to the offset that a field declares, and returns the size of the gap. -/
def pad (field type : Token) : Walk Int := do
  match declaredOffset field type with
  | none => return 0
  | some declared =>
    let w ← get
    let size := declared - w.offset
    if size < 0 then
      fail (.overlap w.plan.typeName field.name declared w.offset)
    else if size = 0 then
      return 0
    else
      push (.gap size field.version false)
      return size

/-- Begins a field: pads in front of it unless it is a constant. -/
def openField (field type : Token) : Walk Int :=
  if isConstant field type then pure 0 else pad field type

/-- Records a field after its gap, and advances behind it unless it is a constant. -/
def place (field type : Token) (gap : Int) (step : Step) : Walk Unit := do
  push step
  if !isConstant field type then
    match type.encodedLength with
    | none => throw (.noArithmetic "+" .int .null)
    | some length =>
      modify fun w =>
        let reached := w.offset + (gap + length)
        { w with offset := reached, ends := w.ends.record field.version reached }

/-- Closes the fixed block, once. -/
def close : Walk Unit := do
  if !(← get).isClosed then
    modify fun w => { w with isClosed := true }
    let w ← get
    match w.plan.blockLength with
    | none => throw (.noOrder ">" .null .int)
    | some length =>
      if w.offset < length then
        push (.gap (length - w.offset) (some 0) true)
      if w.plan.isExtensible then
        push (.extensionSkip (← ofExcept w.ends.knownLengths))

/-- Closes the block if nothing has, and notes how far it reaches. -/
def finish : Walk Plan := do
  close
  modify fun w => { w with plan := { w.plan with consumed := w.offset } }
  return (← get).plan

/-- The plan that a walk from the start makes of an empty one. -/
def fresh (plan : Plan) (walk : Walk Unit) : Except Fault Plan :=
  match (do walk; finish : Walk Plan).run { plan } with
  | .ok plan _ => .ok plan
  | .error fault _ => .error fault

/-- The plan of a part of the walked entity: a member composite or the element of a group. The name
of its class begins with that of the entity. -/
def inner (kind : EntityKind) (isExtensible : Bool) (token : Token) (walk : Walk Unit) :
    Walk Plan := do
  let w ← get
  let plan : Plan := {
    typeName := w.plan.typeName ++ Identifier.typeName token.name
    kind, isExtensible
    blockLength := token.encodedLength
    token := some token }
  ofExcept (fresh plan walk)

/-- The three tokens that a group or variable data begins with, its own left aside: the composite,
which may fail with the given cause, and its first two members. -/
def leading (cause : Inconsistency) : List Token → Walk (Token × Token)
  | [] => throw (.pastEnd .list)
  | composite :: rest =>
    if composite.signal == .opens .composite then
      match rest with
      | first :: second :: _ => pure (first, second)
      | _ => throw (.pastEnd .list)
    else
      fail cause

/-- The step of a field whose type is the given token. -/
def fieldStep (field type : Token) : Walk Step :=
  match type.signal with
  | .encoding => pure (.primitive field type)
  | .opens .enumeration => pure (.typed .enumeration type.typeName field type none)
  | .opens .choiceSet => pure (.typed .choiceSet type.typeName field type none)
  | .opens .composite => pure (.typed .composite type.typeName field type none)
  | signal => fail (.fieldEncoding field.name signal)

/-- Walks over tokens. -/
def tokens : List Token → Walk Unit
  | [] => pure ()
  | token :: rest =>
    match token.signal with
    | .opens .message => do
      push .encodeValidation
      tokens rest
    | .closes .message => do
      close
      push .decodeValidation
      tokens rest
    | .closes .group => do
      close
      tokens rest
    | .opens .field =>
      match rest with
      | [] => fail (.fieldAlone token.name)
      | type :: rest => do
        let gap ← openField token type
        place token type gap (← fieldStep token type)
        let span ← ofExcept (spanLength (token :: type :: rest))
        tokens ((token :: type :: rest).drop span.1)
    | .encoding => do
      let gap ← openField token token
      place token token gap (.primitive token token)
      tokens rest
    | .opens .enumeration | .opens .choiceSet => do
      let gap ← openField token token
      place token token gap (← fieldStep token token)
      let span ← ofExcept (spanLength (token :: rest))
      tokens ((token :: rest).drop span.1)
    | .opens .composite => do
      let gap ← openField token token
      let span ← ofExcept (spanLength (token :: rest))
      let nested ← inner .composite false token
        (tokens (((token :: rest).take (span.1 - 1)).drop 1))
      place token token gap (.typed .composite (.text nested.typeName) token token (some nested))
      tokens ((token :: rest).drop span.1)
    | .opens .group => do
      close
      let span ← ofExcept (spanLength (token :: rest))
      let (blockLength, numInGroup) ← leading (.groupDimensions token.name) rest
      let dimensions ← ofExcept (spanLength rest)
      let element ← inner .group true token
        (tokens (((token :: rest).take span.1).drop (1 + dimensions.1)))
      push (.group token blockLength numInGroup element)
      tokens ((token :: rest).drop span.1)
    | .opens .varData => do
      close
      let (length, data) ← leading (.varDataLength token.name) rest
      push (.varData token length data)
      let span ← ofExcept (spanLength (token :: rest))
      tokens ((token :: rest).drop span.1)
    | _ => tokens rest
termination_by ts => ts.length
decreasing_by
  all_goals
    first
    | exact length_drop_span_lt _
    | (have inside := span.2
       simp only [List.length_cons, List.length_drop, List.length_take] at *
       omega)
    | (simp only [List.length_cons]; omega)

end Walk

/-- Walks over more tokens of the entity, and closes its block. -/
def Walker.walk (w : Walker) (tokens : List Token) : EStateM.Result Fault Walker Plan :=
  (do Walk.tokens tokens; Walk.finish : Walk Plan).run w

namespace Plan

/-- The plan of an entity with the given tokens. -/
def ofTokens (plan : Plan) (tokens : List Token) : Except Fault Plan :=
  Walk.fresh plan (Walk.tokens tokens)

/-- The plan of a range of tokens whose first one stands for the entity. -/
def ofRange (typeName : String) (kind : EntityKind) (blockLength : Option Int)
    (isExtensible : Bool) : List Token → Except Fault Plan
  | [] => .error (.pastEnd .list)
  | token :: rest =>
    ofTokens { typeName, kind, blockLength, isExtensible, token := some token } (token :: rest)

/-- The plan of a message. -/
def ofMessage (typeName : String) : List Token → Except Fault Plan
  | [] => .error (.pastEnd .list)
  | token :: rest =>
    ofRange typeName .message token.encodedLength true (token :: rest)

/-- The plan of a composite, from the token that opens it to the one that closes it. -/
def ofComposite (typeName : String) : List Token → Except Fault Plan
  | [] => .error (.pastEnd .list)
  | token :: rest =>
    ofTokens {
      typeName
      kind := .composite
      blockLength := token.encodedLength
      isExtensible := false
      token := some token } rest.dropLast

end Plan

end SimpleBinary

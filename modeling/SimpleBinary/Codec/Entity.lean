import SimpleBinary.Codec.Block
import SimpleBinary.Codec.Repeated
import SimpleBinary.Header
import SimpleBinary.Plan.Basic

/-!
The classes of an entity.

A message, a group element or a composite becomes a class with the methods that all classes have,
and each entity inside it one of its own after it. Messages also tell their numbers and check
themselves when they are written and read, if the caller asks for it.
-/

set_option autoImplicit false

namespace SimpleBinary

open Code

/-- What a step of a plan adds to the class, whose name and extensibility are given. -/
def Step.bodies (owner : String) (isExtensible : Bool) : Step → Emission Bodies
  | .gap size since trailing => Codec.gapBodies isExtensible size since trailing
  | .primitive field encoding => Codec.primitiveBodies owner field encoding
  | .typed construct typeName field _ nested =>
    Codec.typedBodies construct typeName field (nested.map Plan.typeName)
  | .extensionSkip known => Codec.skipBodies known
  | .group token blockLength numInGroup element =>
    Codec.groupBodies owner token blockLength numInGroup element.typeName
  | .varData token length data => Codec.varDataBodies owner token length data
  | .encodeValidation => pure Codec.encodeValidationBodies
  | .decodeValidation => pure Codec.decodeValidationBodies

namespace Plan

/-- The names of the four types of the header of a schema. -/
def headerTypes (h : Header) : Option String := do
  let blockLength ← h.blockLength
  let templateId ← h.templateId
  let schemaId ← h.schemaId
  let version ← h.version
  return s!"{blockLength.name}/{templateId.name}/{schemaId.name}/{version.name}"

/-- What a class is, in a sentence, where all that the sentence needs is there. -/
def sentence (e : Edition) (p : Plan) : Option Text :=
  let blockLength := countText p.blockLength
  match p.kind with
  | .message => do
    let token ← p.token
    let types ← headerTypes e.header
    let id := countText token.id
    return "Message " ++ token.name ++ s!" (template {id}, block length {blockLength}; " ++
      s!"header types {types})."
  | .group => do
    let token ← p.token
    return "Element of repeating group " ++ token.name ++ s!" (block length {blockLength})."
  | _ => some (s!"Composite {p.typeName} ({blockLength} bytes)." : String)

/-- The parameter that asks for a range check. -/
def rangeCheckParam : Param :=
  { name := "do_range_check", default := some (.name "False") }

/-- The parameters of the method that writes. -/
def encodeParams (p : Plan) : List Param :=
  Param.ofNames ["self", "writer", "order"] ++ (if p.isMessage then [rangeCheckParam] else [])

/-- The parameters of the method that reads. -/
def decodeParams (p : Plan) : List Param :=
  Param.ofNames ["self", "reader", "order", "acting_version"] ++
    (if p.isExtensible then [{ name := "block_length", default := some (.int p.blockLength) }]
      else []) ++
    (if p.isMessage then [rangeCheckParam] else [])

/-- The methods that compare objects and show them. -/
def objectMethods : List Method :=
  let type (value : Expr) := Expr.apply "type" [value]
  let vars (value : Expr) := Expr.apply "vars" [value]
  [{ name := "__eq__"
     params := Param.ofNames ["self", "other"]
     body := [.give (some (.binary .both
       (.binary .same (type .self) (type (.name "other")))
       (.binary .equals (vars .self) (vars (.name "other")))))] },
   { name := "__repr__"
     params := Param.ofNames ["self"]
     body := [
      .assign (.name "fields") (.send (.label ", ") "join"
        [.each (.template [.value (.name "k"), .text "=", .spelling (.name "v")]) ["k", "v"]
          (.send (vars .self) "items" []) none]),
      .give (some (.template [.value (.member (type .self) "__name__"), .text "(",
        .value (.name "fields"), .text ")"]))] }]

/-- The methods that tell the numbers of an entity. -/
def numberMethods (e : Edition) (p : Plan) : Option (List Method) :=
  let blockLength := Method.static "sbe_block_length" [] (.int p.blockLength)
  let version := Method.static "sbe_schema_version" [] (.count e.version)
  match p.kind with
  | .message => do
    let token ← p.token
    return [blockLength,
      .static "sbe_template_id" [] (.int token.id),
      .static "sbe_schema_id" [] (.count e.id),
      version,
      .static "sbe_semantic_type" [] (Codec.shown token.encoding.semanticType)]
  | .group => some [blockLength, version]
  | _ => some []

/-- The class of an entity, from what its steps add to the methods. -/
def classOf (e : Edition) (p : Plan) (b : Bodies) : Option ClassDef := do
  let doc ← p.sentence e
  let numbers ← p.numberMethods e
  return {
    name := p.typeName
    doc
    methods :=
      [{ name := "__init__"
         params := Param.ofNames ["self"]
         body := b.zero ++ [.run (.call (.own "init") [])] }] ++
      objectMethods ++
      [{ name := "encode", params := p.encodeParams, body := b.encode },
       { name := "decode", params := p.decodeParams, body := b.decode },
       { name := "range_check"
         params := Param.ofNames ["self", "acting_version", "schema_version"]
         body := b.rangeCheck },
       { name := "init", params := Param.ofNames ["self"], body := b.init },
       .static "encoded_length" [] (.int p.blockLength)] ++
      numbers ++ b.accessors }

/-- Goes on if the class of an entity can be written: what it needs is there, and the numbers in it are
not too long. -/
def demandClass (e : Edition) (p : Plan) : Emission Unit := do
  let blockLength := Codec.isWritable p.blockLength
  match p.kind with
  | .message =>
    let token ← Emission.ofOption "name" p.token
    Emission.demand (Codec.isWritable token.id && blockLength)
    discard (Emission.ofOption "value" (headerTypes e.header))
    Emission.demand (Numeral.isWritable e.id && Numeral.isWritable e.version &&
      Codec.isShowable token.encoding.semanticType)
  | .group =>
    discard (Emission.ofOption "name" p.token)
    Emission.demand (blockLength && Numeral.isWritable e.version)
  | _ => Emission.demand blockLength

mutual

/-- The classes of an entity: its own, and those of the entities inside it. -/
def classes (e : Edition) : Plan → Emission (List ClassDef)
  | ⟨typeName, kind, blockLength, isExtensible, token, steps, consumed⟩ => do
    Emission.note (.defined typeName)
    let bodies ← steps.mapM (Step.bodies typeName isExtensible)
    let plan := ⟨typeName, kind, blockLength, isExtensible, token, steps, consumed⟩
    demandClass e plan
    let own ← Emission.ofOption "value" (classOf e plan (Bodies.join bodies))
    let inner ← innerClasses e steps
    return own :: inner

/-- The classes of the entities that steps hold. -/
def innerClasses (e : Edition) : List Step → Emission (List ClassDef)
  | [] => pure []
  | .typed _ _ _ _ (some nested) :: rest => do
    let own ← classes e nested
    let others ← innerClasses e rest
    return own ++ others
  | .group _ _ _ element :: rest => do
    let own ← classes e element
    let others ← innerClasses e rest
    return own ++ others
  | _ :: rest => innerClasses e rest

end

end Plan

end SimpleBinary

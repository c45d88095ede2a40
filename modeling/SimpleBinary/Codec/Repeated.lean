import SimpleBinary.Codec.Primitive
import SimpleBinary.Codec.Typed

/-!
Groups and variable data, which follow the fixed block.

A group is written as the length of the block of its elements and their number, and then the
elements one after another. Variable data is written as its length and then the data: bytes as they
are, and values of other types packed. Neither may be longer than the number in front can tell.
-/

set_option autoImplicit false

namespace SimpleBinary.Codec

open Code

/-- The bodies of a group whose elements have a class. -/
def groupBodies (owner : String) (token blockLength numInGroup : Token) (element : String) :
    Emission Bodies := do
  let property := Identifier.propertyName token.name
  let target := Expr.own property
  let blockLengthType ← Emission.ofOption "struct_format" blockLength.primitive
  let numInGroupType ← Emission.ofOption "struct_format" numInGroup.primitive
  let format : Format := [{ type := blockLengthType }, { type := numInGroupType }]
  Emission.note (.module "struct")
  Emission.note (.helper .readExact)
  Emission.demand (isWritable token.id && versionsWritable token && isWritable token.encodedLength)
  let b ← Emission.bounds numInGroupType numInGroup.encoding
  Emission.note (.helper .rangeCheckError)
  let each := Expr.name "element"
  return {
    zero := [.assign target (.list [])]
    encode := [writePacked format [.int token.encodedLength, .length target],
      .loop ["element"] target [.run (.send each "encode" [.name "writer", .name "order"])]]
    decode := [whenPresent property
      [.unpack [.name (property ++ "_block_length"), .name (property ++ "_num_in_group")]
          unpack (packedArguments format (blockLengthType.size + numInGroupType.size)),
        .assign target (.list [.each (.apply element []) ["_"]
          (.apply "range" [.name (property ++ "_num_in_group")]) none]),
        .loop ["element"] target [.run (.send each "decode"
          [.name "reader", .name "order", .name "acting_version",
            .name (property ++ "_block_length")])]]
      [.assign target (.list [])]]
    rangeCheck := [lengthCheck owner property b, .loop ["element"] target [checkOwn each]]
    accessors := idAccessor property token :: versionAccessors property token }

/-- How the data of variable data is written, read, and empty. -/
structure DataStmts where
  write : Stmt
  read : Stmt
  empty : Expr

/-- Data that is bytes. -/
def bytesData (property : String) : DataStmts where
  write := write (.apply "bytes" [.own property])
  read := .assign (.own property) (readExact (.name (property ++ "_length")))
  empty := .bytes []

/-- Data that is values of a type. -/
def valuesData (property : String) (type : Primitive) : DataStmts where
  write := write (.call pack
    [.template [.value (.name "order"), .value (.length (.own property)),
      .text type.code.toString], .spread (.own property)])
  read := .assign (.own property) (.apply "list"
    [.call unpack
      [.template [.value (.name "order"), .value (.name (property ++ "_length")),
        .text type.code.toString],
      readExact (.binary .times (.name (property ++ "_length")) (.count type.size))]])
  empty := .list []

/-- Data of a type: characters and single bytes are bytes. -/
def dataStmts (property : String) (type : Primitive) : DataStmts :=
  if type = .char || type = .uint8 then bytesData property else valuesData property type

/-- The bodies of variable data. -/
def varDataBodies (owner : String) (token length data : Token) : Emission Bodies := do
  let property := Identifier.propertyName token.name
  let lengthType ← Emission.ofOption "struct_format" length.primitive
  Emission.note (.module "struct")
  Emission.note (.helper .readExact)
  Emission.demand (isWritable token.id && versionsWritable token && metaWritable token.encoding &&
    isShowable data.encoding.characterEncoding)
  let dataType ← Emission.ofOption "struct_format" data.primitive
  let stmts := dataStmts property dataType
  let b ← Emission.bounds lengthType length.encoding
  Emission.note (.helper .rangeCheckError)
  let validation ←
    if dataType = .char then validatorStmts owner property data.encoding.characterEncoding
    else pure []
  return {
    zero := [.assign (.own property) stmts.empty]
    encode := [writePacked (.one lengthType) [.length (.own property)], stmts.write]
    decode := [whenPresent property
      [.unpack [.name (property ++ "_length")] unpack
        (packedArguments (.one lengthType) lengthType.size), stmts.read]
      [.assign (.own property) stmts.empty]]
    rangeCheck := [.branch (isPresent property)
      (lengthCheck owner property b :: validation) []]
    accessors := idAccessor property token :: (versionAccessors property token ++
      [metaAccessor property token.encoding,
        characterEncodingAccessor property data.encoding,
        .static (property ++ "_header_length") [] (.count lengthType.size)]) }

end SimpleBinary.Codec

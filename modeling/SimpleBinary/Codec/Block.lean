import SimpleBinary.Codec.Basic

/-!
The fixed block apart from its fields.

Gaps are zero bytes that are written, and bytes that are read and thrown away. A producer with an
older schema sends a shorter block and one with a newer schema a longer one, so the end of the block
is found from the length that was received: what lies beyond the bytes that the acting version knows
is thrown away as well. The gap that closes the block of an extensible entity is part of that.
-/

set_option autoImplicit false

namespace SimpleBinary.Codec

open Code

/-- Throws away bytes that are read. -/
def discard (size : Expr) : Stmt :=
  .run (.apply Helper.discard.name [.name "reader", size])

/-- Writes zero bytes. -/
def pad (size : Int) : Stmt :=
  .run (.apply Helper.writePadding.name [.name "writer", .count size])

/-- Whether the acting version is a given one or a later one. -/
def isSince (version : Int) : Expr :=
  .binary .atLeast (.name "acting_version") (.count version)

/-- The bytes of a gap thrown away, from the version on that brought them. -/
def discardSince (since : Option Int) (size : Int) : Stmt :=
  match since.filter (· != 0) with
  | some version => .branch (isSince version) [discard (.count size)] []
  | none => discard (.count size)

/-- The bodies of a gap. -/
def gapBodies (isExtensible : Bool) (size : Int) (since : Option Int) (trailing : Bool) :
    Emission Bodies := do
  Emission.note (.helper .writePadding)
  Emission.demand (Numeral.isWritable size)
  let encode := [pad size]
  if trailing && isExtensible then
    return { encode }
  else
    Emission.note (.helper .discard)
    Emission.demand (isWritable since)
    return { encode, decode := [discardSince since size] }

/-- How many bytes of the block the acting version knows: those of the last entry whose version it
has reached. -/
def knownLength (first : Int) (later : List (Int × Int)) : Expr :=
  later.foldl (fun before (version, length) => .choose (isSince version) (.count length) before)
    (.count first)

/-- Throws away what a block has beyond a number of bytes. -/
def discardBeyond (length : Expr) : Stmt :=
  .branch (.binary .greater (.name "block_length") length)
    [discard (.binary .subtract (.name "block_length") length)] []

/-- The bodies of the extension skip. -/
def skipBodies (known : List (Int × Int)) : Emission Bodies := do
  Emission.note (.helper .discard)
  Emission.demand (known.all fun entry => Numeral.isWritable entry.2)
  match known with
  | [] => Emission.fail (.pastEnd .tuple)
  | [(_, length)] => return { decode := [discardBeyond (.count length)] }
  | (_, first) :: later =>
    Emission.demand (later.all fun entry => Numeral.isWritable entry.1)
    let length := .name "known_length"
    return { decode := [.assign length (knownLength first later), discardBeyond length] }

/-- The bodies of the range check before a message is written. -/
def encodeValidationBodies : Bodies where
  encode := [.branch (.name "do_range_check")
    [.run (.call (.own "range_check")
      [.call (.own "sbe_schema_version") [], .call (.own "sbe_schema_version") []])] []]

/-- The bodies of the range check after a message is read. -/
def decodeValidationBodies : Bodies where
  decode := [.branch (.name "do_range_check")
    [.run (.call (.own "range_check")
      [.name "acting_version", .call (.own "sbe_schema_version") []])] []]

end SimpleBinary.Codec

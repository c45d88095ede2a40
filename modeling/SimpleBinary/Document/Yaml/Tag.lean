import SimpleBinary.Document.Yaml.Cursor
import SimpleBinary.Numeral.Integer

/-!
Tags, which say what a node of a YAML document stands for.

A tag is written as a handle, for which a directive or the standard gives the beginning of a name, and
the rest of the name, or between angle brackets as a whole. A name may hold the bytes of a character
by their numbers, after percent signs.

Ordered mappings and rows of pairs are told apart by their tags alone: both stand for a list of pairs,
in which a key may come more than once.
-/

set_option autoImplicit false

namespace SimpleBinary.Yaml

/-- What a node stands for. -/
inductive Tag
  | null
  | bool
  | int
  | real
  | text
  | moment
  | binary
  | sequence
  | mapping
  /-- A sequence of mappings with one entry each. -/
  | pairs
  /-- A mapping whose keys alone count. -/
  | set
  /-- The key under which a mapping is given mappings to take over. -/
  | merge
  /-- The key of a default value, which is a text only as a key. -/
  | default
  /-- A tag that is not known, or a text that stands for nothing. -/
  | other
  deriving DecidableEq, Repr

namespace Tag

/-- The beginning of the names of standard tags. -/
def standard : String := "tag:yaml.org,2002:"

/-- The standard tags by the rest of their names. -/
def names : List (String × Tag) :=
  [("null", .null), ("bool", .bool), ("int", .int), ("float", .real), ("str", .text),
    ("timestamp", .moment), ("binary", .binary), ("seq", .sequence), ("map", .mapping),
    ("omap", .pairs), ("pairs", .pairs), ("set", .set), ("merge", .merge), ("value", .default)]

/-- The tag of a name. -/
def ofName (name : String) : Tag :=
  match names.find? fun (rest, _) => standard ++ rest == name with
  | some (_, tag) => tag
  | none => .other

/-- Whether a node with the tag is made of other nodes. -/
def isCollection (tag : Tag) : Bool :=
  [.sequence, .mapping, .pairs, .set].contains tag

end Tag

/-- The handles that need no directive, with what they stand for. -/
def standardHandles : List (String × String) :=
  [("!", "!"), ("!!", Tag.standard)]

/-- A tag as it is written: a handle, if there is one, and the rest of the name. -/
structure WrittenTag where
  handle : Option String
  rest : String

/-- Whether a character may stand in the name of a tag. -/
def isTagChar (c : Char) : Bool :=
  c.isAlphanum || "-;/?:@&=+$,_.!~*'()[]%".toList.contains c

/-- The bytes of a name, in which a percent sign and two hexadecimal digits stand for one. -/
def tagBytes : List Char → Option (List UInt8)
  | [] => some []
  | '%' :: a :: b :: rest => do
    let high ← Numeral.digitIn? 16 a
    let low ← Numeral.digitIn? 16 b
    return (high * 16 + low).toUInt8 :: (← tagBytes rest)
  | c :: rest => do
    if c = '%' then none else return c.toNat.toUInt8 :: (← tagBytes rest)

namespace Cursor

/-- The name of a tag at the front. -/
def tagName (c : Cursor) : Except Fault (String × Cursor) :=
  let (written, c) := c.takeWhile isTagChar
  match (tagBytes written).bind fun bytes => String.fromUTF8? ⟨bytes.toArray⟩ with
  | some name => if written.isEmpty then malformed else .ok (name, c)
  | none => malformed

/-- The handle of a tag at the front: an exclamation mark before a space, or a name between two of
them. -/
def tagHandle (c : Cursor) : Except Fault (String × Cursor) :=
  if c.peek ≠ '!' then
    malformed
  else if c.peekAt 1 = ' ' then
    .ok ("!", c.step)
  else
    let (name, c) := c.step.takeWhile isNameChar
    if c.peek = '!' then .ok (String.ofList ('!' :: (name ++ ['!'])), c.step) else malformed

/-- Whether a space or the end of a line is at the front. -/
def isBeforeSpace (c : Cursor) : Bool :=
  c.peek = ' ' || isLineEnd c.peek

/-- The tag at the front, which a space or the end of the line follows. -/
def tag (c : Cursor) : Except Fault (WrittenTag × Cursor) := do
  let (written, c) ←
    if c.peekAt 1 = '<' then do
      let (rest, c) ← (c.advance 2).tagName
      if c.peek = '>' then pure (⟨none, rest⟩, c.step) else malformed
    else if isGap (c.peekAt 1) then
      pure (⟨none, "!"⟩, c.step)
    else do
      let word := c.step.rest.takeWhile fun ch => !(ch = ' ' || isLineEnd ch)
      let (handle, c) ← if word.contains '!' then c.tagHandle else pure ("!", c.step)
      let (rest, c) ← c.tagName
      pure ((⟨some handle, rest⟩ : WrittenTag), c)
  if c.isBeforeSpace then return (written, c) else malformed

end Cursor

end SimpleBinary.Yaml

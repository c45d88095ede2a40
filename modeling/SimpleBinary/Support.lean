import SimpleBinary.Fault
import SimpleBinary.Text.Blank
import SimpleBinary.Text.Case

/-!
The support module: what the modules of every generated package share.

Each package holds one copy of it. A generated module imports from it the names that it uses and no
others, so the names that it defines are a type here.
-/

set_option autoImplicit false

namespace SimpleBinary

/-- A name that the support module defines. -/
inductive Helper
  | bigEndian
  | littleEndian
  | rangeCheckError
  | discard
  | readExact
  | validateAscii
  | validateUtf8
  | writePadding
  deriving DecidableEq, Repr

namespace Helper

/-- All helpers. -/
def all : List Helper :=
  [.bigEndian, .littleEndian, .rangeCheckError, .discard, .readExact, .validateAscii,
    .validateUtf8, .writePadding]

/-- The name of a helper in the source. -/
def name : Helper → String
  | .bigEndian => "BIG_ENDIAN"
  | .littleEndian => "LITTLE_ENDIAN"
  | .rangeCheckError => "RangeCheckError"
  | .discard => "discard"
  | .readExact => "read_exact"
  | .validateAscii => "validate_ascii"
  | .validateUtf8 => "validate_utf8"
  | .writePadding => "write_padding"

/-- The helper of a name. -/
def ofName (name : String) : Except Fault Helper :=
  match all.find? fun h => h.name == name with
  | some h => .ok h
  | none => .error (.notSupported name)

theorem mem_all (h : Helper) : h ∈ all := by
  cases h <;> simp [all]

/-- The names of the character encodings that have a validity check, in capitals. -/
def validators : List (String × Helper) :=
  [("ASCII", .validateAscii), ("US-ASCII", .validateAscii), ("UTF-8", .validateUtf8),
    ("UTF8", .validateUtf8)]

/-- The validity check of a character encoding whose name is in capitals. -/
def validator (name : Text) : Option Helper :=
  name.toString?.bind fun name => validators.lookup name

/-- The validity check of a character encoding, if it has one. Blanks around the name and the case
of its letters do not matter. Bytes are no name of one. -/
def validator? (characterEncoding : Datum) : Except Fault (Option Helper) :=
  if characterEncoding.isGiven then
    match characterEncoding with
    | .text name => .ok (validator (Text.upper (Text.trim name)))
    | .bytes _ => .ok none
    | value => .error (.noPart value.kind "strip")
  else
    .ok none

end Helper

/-- The lines of the support module. -/
def supportLines : List String :=
  ["LITTLE_ENDIAN = '<'",
    "BIG_ENDIAN = '>'",
    "",
    "",
    "class RangeCheckError(ValueError):",
    "    \"\"\"A value violates its declared range, enumeration or text encoding.\"\"\"",
    "",
    "",
    "def read_exact(reader, size):",
    "    \"\"\"Read exactly size bytes or raise EOFError.\"\"\"",
    "    data = reader.read(size)",
    "    got = 0 if data is None else len(data)",
    "    if got != size:",
    "        raise EOFError(f'expected \x7bsize\x7d bytes, got \x7bgot\x7d')",
    "    return data",
    "",
    "",
    "def discard(reader, size):",
    "    read_exact(reader, size)",
    "",
    "",
    "def write_padding(writer, size):",
    "    writer.write(bytes(size))",
    "",
    "",
    "def validate_ascii(name, value):",
    "    for idx, ch in enumerate(value):",
    "        if ch > 127:",
    "            raise RangeCheckError(f'\x7bname\x7d[\x7bidx\x7d]=\x7bch\x7d failed ASCII validation')",
    "",
    "",
    "def validate_utf8(name, value):",
    "    try:",
    "        bytes(value).decode('utf-8')",
    "    except UnicodeDecodeError as e:",
    "        raise RangeCheckError(f'\x7bname\x7d failed UTF-8 validation: \x7be.reason\x7d at byte \x7be.start\x7d') from None"]

/-- The source of the support module. -/
def supportSource : String :=
  String.join (supportLines.map (· ++ "\n"))

/-- The name of the support module. -/
def supportModule : String := "_sbe"

end SimpleBinary

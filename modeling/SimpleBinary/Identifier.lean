import SimpleBinary.Text.Basic

/-!
Identifiers of the generated source.

A name of a schema may be any text; an identifier holds ASCII letters, digits and underscores, and
does not begin with a digit. Classes keep the case of the name. Attributes, constants and modules
are written in words with underscores between them: a new word begins at a capital that follows a
small letter or a digit, and at the last capital of several where a small letter follows it.
-/

set_option autoImplicit false

namespace SimpleBinary.Identifier

/-- Whether a character may stand in an identifier. -/
def isAllowed (c : Char) : Bool :=
  c.isAlphanum || c == '_'

/-- The name with an underscore for each code point that may not stand in an identifier, and one in
front of a leading digit. -/
def sanitize (name : Text) : List Char :=
  match name.chars.map fun c => if isAllowed c then c else '_' with
  | [] => []
  | c :: rest => if c.isDigit then '_' :: c :: rest else c :: rest

/-- Whether a word begins at `c`, between the character before it and the characters after it. -/
def beginsWord (before c : Char) (after : List Char) : Bool :=
  c.isUpper &&
    (before.isLower || before.isDigit || (before.isUpper && after.head?.any Char.isLower))

/-- The identifier with underscores between its words. -/
def splitWords : List Char → List Char
  | [] => []
  | [c] => [c]
  | before :: c :: after =>
    if beginsWord before c after then before :: '_' :: splitWords (c :: after)
    else before :: splitWords (c :: after)

/-- The words of a name, as an identifier. -/
def words (name : Text) : List Char :=
  splitWords (sanitize name)

/-- The identifier with its first letter a capital. -/
def capitalize : List Char → List Char
  | [] => []
  | c :: rest => c.toUpper :: rest

/-- The words that the language of the generated source reserves, those with a capital left
aside. -/
def keywords : List String :=
  ["and", "as", "assert", "async", "await", "break", "class", "continue", "def", "del", "elif",
    "else", "except", "finally", "for", "from", "global", "if", "import", "in", "is", "lambda",
    "nonlocal", "not", "or", "pass", "raise", "return", "try", "while", "with", "yield"]

/-- The identifier of a class: `fuelFigures` becomes `FuelFigures`. -/
def typeName (name : Text) : String :=
  String.ofList (capitalize (sanitize name))

/-- The identifier of a module: `MessageHeader` becomes `message_header`. -/
def moduleName (name : Text) : String :=
  String.ofList ((words name).map Char.toLower)

/-- The identifier of an attribute: `someNumbers` becomes `some_numbers`. An underscore is added to
a reserved word. -/
def propertyName (name : Text) : String :=
  let property := moduleName name
  if keywords.contains property then property ++ "_" else property

/-- The identifier of a constant: `sunRoof` becomes `SUN_ROOF`. -/
def constantName (name : Text) : String :=
  String.ofList ((words name).map Char.toUpper)

end SimpleBinary.Identifier

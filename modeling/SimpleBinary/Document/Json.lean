import SimpleBinary.Fault
import SimpleBinary.Numeral.Real

/-!
Reading JSON.

A number without a point and an exponent is an integer, and any other number is a real; besides, the
words `NaN`, `Infinity` and `-Infinity` are read as reals. A name that occurs twice in an object
keeps the last value. What is wrong with a text is told together with the place: a line, a column
and the number of characters before it.
-/

set_option autoImplicit false

namespace SimpleBinary.Json

/-- What is wrong with a text. -/
inductive Problem
  | value
  | name
  | colon
  | comma
  | unterminated
  | control
  | escape
  | unicodeEscape
  | extra
  | byteOrderMark
  /-- An integer has more digits than are read. -/
  | longNumeral (digits : Nat)
  /-- Lists and objects stand inside one another too deeply; the innermost one may be an object. -/
  | nesting (isObject : Bool)

/-- The message of a problem. -/
def Problem.message : Problem → Text
  | .value => "Expecting value"
  | .name => "Expecting property name enclosed in double quotes"
  | .colon => "Expecting ':' delimiter"
  | .comma => "Expecting ',' delimiter"
  | .unterminated => "Unterminated string starting at"
  | .control => "Invalid control character at"
  | .escape => "Invalid \\escape"
  | .unicodeEscape => "Invalid \\uXXXX escape"
  | .extra => "Extra data"
  | .byteOrderMark => "Unexpected UTF-8 BOM (decode using utf-8-sig)"
  | .longNumeral digits => (Fault.longNumeral digits).message
  | .nesting isObject =>
    let found := if isObject then "object" else "array"
    Fault.endless.message ++ s!" while decoding a JSON {found} from a unicode string"

/-- A problem at a place, which is given by the number of characters from there to the end. -/
structure Malformed where
  problem : Problem
  left : Nat

/-- Whether a problem is told without its place. -/
def Problem.isPlaceless : Problem → Bool
  | .longNumeral _ | .nesting _ => true
  | _ => false

/-- The message of a problem in a text, with its place. -/
def Malformed.message (text : List Char) (m : Malformed) : Text :=
  let before := text.take (text.length - m.left)
  let line := before.count '\n' + 1
  let column := (before.reverse.takeWhile (· != '\n')).length + 1
  if m.problem.isPlaceless then m.problem.message
  else m.problem.message ++ s!": line {line} column {column} (char {before.length})"

/-- Reads a value at the front of a text and returns it with the rest. -/
abbrev Reader (α : Type) := List Char → Except Malformed (α × List Char)

/-- Fails with a problem at the front of a text. -/
def fail {α : Type} (problem : Problem) (at_ : List Char) : Except Malformed α :=
  .error ⟨problem, at_.length⟩

/-- The text without the white space in front. -/
def skip (cs : List Char) : List Char :=
  cs.dropWhile fun c => c = ' ' || c = '\t' || c = '\n' || c = '\r'

/-- The number that four hexadecimal digits stand for. -/
def hex4? (a b c d : Char) : Option Nat := do
  let ds ← [a, b, c, d].mapM (Numeral.digitIn? 16)
  return Numeral.ofDigits 16 ds

/-- The code point of a number of four hexadecimal digits. -/
def codePoint (n : Nat) : CodePoint :=
  (CodePoint.ofNat? n).getD '\ufffd'

/-- The characters that one letter after a backslash stands for. -/
def shortEscape? : Char → Option Char
  | '"' => some '"'
  | '\\' => some '\\'
  | '/' => some '/'
  | 'b' => some '\x08'
  | 'f' => some '\x0c'
  | 'n' => some '\n'
  | 'r' => some '\r'
  | 't' => some '\t'
  | _ => none

/-- The number after `\u`, which four digits and at least one more character make up. The place of
a failure is the letter `u`. -/
def unicode (cs : List Char) : Reader Nat
  | a :: b :: c :: d :: rest =>
    match hex4? a b c d with
    | some n => if rest.isEmpty then fail .unicodeEscape cs else .ok (n, rest)
    | none => fail .unicodeEscape cs
  | _ => fail .unicodeEscape cs

/-- The code point that begins with the given half of a surrogate pair: a character if the other half
follows, and otherwise the half alone. -/
def pair (high : Nat) : Reader CodePoint
  | '\\' :: 'u' :: a :: b :: c :: d :: e :: rest =>
    match hex4? a b c d with
    | some low =>
      if 0xdc00 ≤ low ∧ low ≤ 0xdfff then
        .ok (Char.ofNat (0x10000 + (high - 0xd800) * 0x400 + (low - 0xdc00)), e :: rest)
      else
        .ok (codePoint high, '\\' :: 'u' :: a :: b :: c :: d :: e :: rest)
    | none => fail .unicodeEscape ('u' :: a :: b :: c :: d :: e :: rest)
  | rest => .ok (codePoint high, rest)

/-- The text of a string up to its closing quote, after what is already read, the last first.
`opening` is the source from the opening quote on. -/
def stringTail (opening : List Char) : (fuel : List Char) → (done : Text) → Reader Text
  | [], _, _ => fail .unterminated opening
  | _ :: _, _, [] => fail .unterminated opening
  | _ :: fuel, done, c :: rest =>
    if c = '"' then
      .ok (done.reverse, rest)
    else if c.toNat < 0x20 then
      fail .control (c :: rest)
    else if c = '\\' then
      match rest with
      | [] => fail .unterminated opening
      | 'u' :: more => do
        let (n, more) ← unicode rest more
        if 0xd800 ≤ n ∧ n ≤ 0xdbff then
          let (p, more) ← pair n more
          stringTail opening fuel (p :: done) more
        else
          stringTail opening fuel (codePoint n :: done) more
      | e :: more =>
        match shortEscape? e with
        | some c => stringTail opening fuel (.char c :: done) more
        | none => fail .escape (c :: rest)
    else
      stringTail opening fuel (.char c :: done) rest

/-- A string, its opening quote already read. It takes a step for each character at the most, so the
text is fuel enough. -/
def string (rest : List Char) : Except Malformed (Text × List Char) :=
  stringTail ('"' :: rest) ('"' :: rest) [] rest

/-- A fraction or exponent at the front of a text: the characters it takes. -/
def fractionChars : List Char → List Char
  | '.' :: rest =>
    let ds := rest.takeWhile Char.isDigit
    if ds.isEmpty then [] else '.' :: ds
  | _ => []

/-- The exponent at the front of a text, if it is complete: the characters it takes. -/
def exponentChars : List Char → List Char
  | e :: rest =>
    if e = 'e' || e = 'E' then
      let sign := rest.takeWhile fun c => c = '+' || c = '-'
      let ds := (rest.drop sign.length).takeWhile Char.isDigit
      if sign.length ≤ 1 && !ds.isEmpty then e :: (sign ++ ds) else []
    else
      []
  | [] => []

/-- A number at the front of a text. -/
def number (cs : List Char) : Except Malformed (Datum × List Char) :=
  let (sign, digits) := match cs with
    | '-' :: rest => (['-'], rest)
    | rest => ([], rest)
  let whole := match digits with
    | '0' :: _ => ['0']
    | rest => rest.takeWhile Char.isDigit
  if whole.isEmpty then
    fail .value cs
  else
    let rest := digits.drop whole.length
    let fraction := fractionChars rest
    let rest := rest.drop fraction.length
    let exponent := exponentChars rest
    let rest := rest.drop exponent.length
    let written := sign ++ whole ++ fraction ++ exponent
    if fraction.isEmpty && exponent.isEmpty then
      match Numeral.integer .decimal (Text.ofChars written) with
      | .ok n => .ok (.int n, rest)
      | .error (.long digits) => fail (.longNumeral digits) cs
      | .error .malformed => fail .value cs
    else
      match Numeral.real? (Text.ofChars written) with
      | some x => .ok (.real x, rest)
      | none => fail .value cs

/-- The words that stand for values. -/
def keywords : List (String × Datum) :=
  [("null", .null), ("true", .bool true), ("false", .bool false), ("NaN", .real (0.0 / 0.0)),
    ("Infinity", .real (1.0 / 0.0)), ("-Infinity", .real (-1.0 / 0.0))]

/-- A word or a number at the front of a text. -/
def scalar (cs : List Char) : Except Malformed (Datum × List Char) :=
  match keywords.find? fun (word, _) => word.toList.isPrefixOf cs with
  | some (word, value) => .ok (value, cs.drop word.length)
  | none => number cs

/-- How many lists and objects may stand inside one another. -/
def nestingLimit : Nat := 989

mutual

/-- A value at the front of a text, in which lists and objects may stand inside one another as deeply
as `room` says. -/
def value : (fuel room : Nat) → Reader Datum
  | 0, _, cs => fail .value cs
  | fuel + 1, room, cs =>
    match cs with
    | '"' :: rest => do
      let (s, rest) ← string rest
      return (.text s, rest)
    | '[' :: rest =>
      if room = 0 then
        fail (.nesting false) cs
      else
        match skip rest with
        | ']' :: rest => .ok (.list [], rest)
        | rest => do
          let (items, rest) ← items fuel (room - 1) rest
          return (.list items, rest)
    | '{' :: rest =>
      if room = 0 then
        fail (.nesting true) cs
      else
        match skip rest with
        | '}' :: rest => .ok (.map [], rest)
        | rest => do
          let (entries, rest) ← entries fuel (room - 1) [] rest
          return (.map entries, rest)
    | cs => scalar cs

/-- The items of a list up to its closing bracket, at least one. -/
def items : (fuel room : Nat) → Reader (List Datum)
  | 0, _, cs => fail .value cs
  | fuel + 1, room, cs => do
    let (item, rest) ← value fuel room cs
    match skip rest with
    | ']' :: rest => return ([item], rest)
    | ',' :: rest =>
      let (more, rest) ← items fuel room (skip rest)
      return (item :: more, rest)
    | rest => fail .comma rest

/-- The entries of an object up to its closing bracket, at least one, after those already read. -/
def entries : (fuel room : Nat) → (done : List (Datum × Datum)) → Reader (List (Datum × Datum))
  | 0, _, _, cs => fail .name cs
  | fuel + 1, room, done, '"' :: rest => do
    let (key, rest) ← string rest
    match skip rest with
    | ':' :: rest =>
      let (item, rest) ← value fuel room (skip rest)
      let done := Datum.put (.text key) item done
      match skip rest with
      | '}' :: rest => return (done, rest)
      | ',' :: rest => entries fuel room done (skip rest)
      | rest => fail .comma rest
    | rest => fail .colon rest
  | _ + 1, _, _, cs => fail .name cs

end

/-- The value of a whole text. Every value but the first follows two characters at the least, so the
fuel lasts. -/
def read (text : List Char) : Except Malformed Datum :=
  match text with
  | '\ufeff' :: _ => fail .byteOrderMark text
  | _ => do
    let (item, rest) ← value (2 * text.length + 2) nestingLimit (skip text)
    match skip rest with
    | [] => return item
    | rest => fail .extra rest

end SimpleBinary.Json

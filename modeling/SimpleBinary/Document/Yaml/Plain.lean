import SimpleBinary.Document.Yaml.Tag
import SimpleBinary.Numeral.Real
import SimpleBinary.Text.Base64
import SimpleBinary.Text.Case
import SimpleBinary.Text.Split

/-!
What a scalar stands for.

Without a tag the form of a plain text decides: one of the words for null and the truth values, an
integer in binary, octal, decimal, hexadecimal or base sixty, a real, which has a point and whose
exponent has a sign, or a date. Everything else is a text. Two marks are no values of their own: `<<`
merges mappings, and `=` can only be a key. Three indicators that no plain text begins with stand for
nothing at all, should they come alone in a quoted text or a block whose form is asked for.

A tag decides alone, and the text may then stand for nothing of that kind.
-/

set_option autoImplicit false

namespace SimpleBinary.Yaml

namespace Plain

/-- The words for null. -/
def nulls : List String := ["", "~", "null", "Null", "NULL"]

/-- The words for true. -/
def trues : List String := ["yes", "Yes", "YES", "true", "True", "TRUE", "on", "On", "ON"]

/-- The words for false. -/
def falses : List String := ["no", "No", "NO", "false", "False", "FALSE", "off", "Off", "OFF"]

/-- The indicators that stand for nothing when they come alone. -/
def indicators : List String := ["!", "&", "*"]

/-- Whether the text begins with a sign, and if so whether that is a minus, and the rest. -/
def splitSign : List Char → Option Bool × List Char
  | '-' :: rest => (some true, rest)
  | '+' :: rest => (some false, rest)
  | rest => (none, rest)

/-- Whether all characters are digits of a base or underscores, and there is one. -/
def isRun (base : Nat) (cs : List Char) : Bool :=
  !cs.isEmpty && cs.all fun c => c = '_' || (Numeral.digitIn? base c).isSome

/-- Whether the text is a digit, possibly one of those given only, followed by digits and
underscores. -/
def isDecimal (first : Char → Bool) : List Char → Bool
  | [] => false
  | c :: rest => first c && rest.all fun c => c = '_' || c.isDigit

/-- A digit other than zero. -/
def isLeading (c : Char) : Bool :=
  c.isDigit && c ≠ '0'

/-- The parts of a text between its colons. -/
def colonParts (cs : List Char) : List (List Char) :=
  Text.split ':' cs

/-- Whether a text is a number from 0 to 59 of one digit or two. -/
def isSixtieth : List Char → Bool
  | [c] => c.isDigit
  | [t, c] => ('0' ≤ t && t ≤ '5') && c.isDigit
  | _ => false

/-- Whether an unsigned text has the form of an integer. -/
def isInteger (cs : List Char) : Bool :=
  match cs with
  | ['0'] => true
  | '0' :: 'b' :: rest => isRun 2 rest
  | '0' :: 'x' :: rest => isRun 16 rest
  | '0' :: rest => isRun 8 rest
  | _ =>
    match colonParts cs with
    | [] => false
    | first :: rest => isDecimal isLeading first && rest.all isSixtieth

/-- Whether a text is empty or an exponent with its sign. -/
def isExponent : List Char → Bool
  | [] => true
  | e :: sign :: ds =>
    (e = 'e' || e = 'E') && (sign = '+' || sign = '-') && !ds.isEmpty && ds.all Char.isDigit
  | _ => false

/-- Whether an unsigned text has the form of a real with digits on one side of its point. -/
def isReal (signed : Bool) (cs : List Char) : Bool :=
  let whole := cs.takeWhile (· ≠ '.')
  match cs.dropWhile (· ≠ '.') with
  | [] => false
  | _ :: rest =>
    let isPart (c : Char) := c = '_' || c.isDigit
    let part := rest.takeWhile isPart
    let more := rest.dropWhile isPart
    match colonParts whole with
    | [[]] => !signed && isDecimal Char.isDigit part && isExponent more
    | [first] => isDecimal Char.isDigit first && isExponent more
    | first :: rest => isDecimal Char.isDigit first && rest.all isSixtieth && more.isEmpty
    | [] => false

/-- The number of the digits at the front of a text, of which there are at least and at most so many,
and the rest. -/
def digitsOf? (least most : Nat) (cs : List Char) : Option (Nat × List Char) :=
  let ds := (cs.take most).takeWhile Char.isDigit
  if ds.length < least then none
  else some (Numeral.decimalOf ds, cs.drop ds.length)

/-- The text after a character, if it begins with that. -/
def after? (c : Char) : List Char → Option (List Char)
  | [] => none
  | d :: rest => if d = c then some rest else none

/-- Whether a character parts the words of a date. -/
def isDateSpace (c : Char) : Bool :=
  c = ' ' || c = '\t'

/-- The zone of a time of day, in minutes: none if the text is empty, and zero for `Z`. -/
def zone? (cs : List Char) : Option (Option Int) :=
  let signed (sign : Int) (cs : List Char) : Option (Option Int) := do
    let (hours, rest) ← digitsOf? 1 2 cs
    if rest.isEmpty then
      return some (sign * (hours * 60))
    else
      let (minutes, rest) ← digitsOf? 2 2 (← after? ':' rest)
      if rest.isEmpty then return some (sign * (hours * 60 + minutes)) else none
  if cs.isEmpty then
    some none
  else
    match cs.dropWhile isDateSpace with
    | ['Z'] => some (some 0)
    | '-' :: rest => signed (-1) rest
    | '+' :: rest => signed 1 rest
    | _ => none

/-- The millionths of a second that the digits after a point stand for, and the rest. -/
def fraction (cs : List Char) : Nat × List Char :=
  match cs with
  | '.' :: rest =>
    let ds := rest.takeWhile Char.isDigit
    let six := (ds.take 6) ++ List.replicate (6 - ds.length) '0'
    (Numeral.decimalOf six, rest.drop ds.length)
  | _ => (0, cs)

/-- A time of day. -/
def time? (cs : List Char) : Option TimeOfDay := do
  let (hour, rest) ← digitsOf? 1 2 cs
  let (minute, rest) ← digitsOf? 2 2 (← after? ':' rest)
  let (second, rest) ← digitsOf? 2 2 (← after? ':' rest)
  let (micro, rest) := fraction rest
  let zone ← zone? rest
  return { hour, minute, second, micro, zone }

/-- A date with or without a time of day. The flag tells whether month and day may have one digit. -/
def moment? (short : Bool) (cs : List Char) : Option Moment := do
  let (year, rest) ← digitsOf? 4 4 cs
  let (month, rest) ← digitsOf? 1 2 (← after? '-' rest)
  let (day, rest) ← digitsOf? 1 2 (← after? '-' rest)
  match rest with
  | [] => if short || cs.length = 10 then return { year, month, day } else none
  | 'T' :: rest | 't' :: rest => return { year, month, day, time := some (← time? rest) }
  | c :: rest =>
    if isDateSpace c then
      return { year, month, day, time := some (← time? (rest.dropWhile isDateSpace)) }
    else
      none

/-- The tag that a scalar has by its form. A line end behind it does not count. -/
def tagOf (text : Text) : Tag :=
  let cs := Text.withoutBreak text.chars
  let s := String.ofList cs
  let (sign, body) := splitSign cs
  if text.plain = "\n" then .text
  else if nulls.contains s then .null
  else if trues.contains s || falses.contains s then .bool
  else if s = "<<" then .merge
  else if s = "=" then .default
  else if indicators.contains s then .other
  else if [".inf", ".Inf", ".INF"].contains (String.ofList body) then .real
  else if [".nan", ".NaN", ".NAN"].contains s then .real
  else if isInteger body then .int
  else if isReal sign.isSome body then .real
  else if (moment? false cs).isSome then .moment
  else .text

/-! ## Values -/

/-- The number that digits of a base stand for. -/
def inBase (base : Nat) (t : Text) : Except Fault Int :=
  (Numeral.integer (.based base) t).mapError (Fault.ofNumeral base (Text.quoted t))

/-- The number that a numeral stands for. -/
def decimal (t : Text) : Except Fault Int :=
  (Numeral.integer .decimal t).mapError (Fault.ofNumeral 10 (Text.quoted t))

/-- The integer of an unsigned text without underscores. -/
def integer (t : Text) : Except Fault Int :=
  match t with
  | [] => .error (.pastEnd .text)
  | [.char '0'] => .ok 0
  | .char '0' :: .char 'b' :: rest => inBase 2 rest
  | .char '0' :: .char 'x' :: rest => inBase 16 rest
  | .char '0' :: rest => inBase 8 (.char '0' :: rest)
  | _ =>
    match Text.split (.char ':') t with
    | [_] => decimal t
    | parts => do
      let parts ← parts.mapM decimal
      return parts.foldl (fun n part => n * 60 + part) 0

/-- A real that has no colons. -/
def simpleReal (t : Text) : Except Fault Float :=
  match Numeral.real? t with
  | some x => .ok x
  | none => .error (.notReal t)

/-- The sum of the parts between colons, the last one first, each with its unit. A unit that is too
great for a real cannot be multiplied. -/
def sixtieths (sum : Float) (unit : Nat) : List Float → Except Fault Float
  | [] => .ok sum
  | part :: rest =>
    let scale := Float.ofNat unit
    if scale.isInf then .error .hugeInteger
    else sixtieths (sum + part * scale) (unit * 60) rest

/-- The real of an unsigned text without underscores, in small letters. -/
def real (t : Text) : Except Fault Float :=
  if t = Text.ofString ".inf" then
    .ok (1.0 / 0.0)
  else if t = Text.ofString ".nan" then
    .ok (0.0 / 0.0)
  else
    match Text.split (.char ':') t with
    | [_] => simpleReal t
    | parts => do sixtieths 0.0 1 (← parts.mapM simpleReal).reverse

/-- The truth value of a word. -/
def truth (t : Text) : Except Fault Bool :=
  let word := t.lower
  if trues.contains word.plain then .ok true
  else if falses.contains word.plain then .ok false
  else .error (.unknownWord word)

/-- The moment of a text. -/
def moment (t : Text) : Except Fault Moment :=
  match moment? true (Text.withoutBreak t.chars) with
  | none => .error (.noPart .null "groupdict")
  | some m =>
    match m.problem? with
    | some problem => .error (.notMoment problem)
    | none => .ok m

/-- A text without underscores: whether it begins with a minus, and what comes after its sign. -/
def signedDigits (t : Text) : Except Fault (Bool × Text) :=
  match t.filter (· ≠ .char '_') with
  | [] => .error (.pastEnd .text)
  | .char '-' :: rest => .ok (true, rest)
  | .char '+' :: rest => .ok (false, rest)
  | rest => .ok (false, rest)

/-- The bytes of a text of ASCII characters that encodes them in base 64. -/
def binary (t : Text) : Except Fault (List UInt8) :=
  if t.all fun p => p.toNat < 128 then
    match Text.Base64.decode? t.chars with
    | some bytes => .ok bytes
    | none => malformed
  else
    malformed

/-- The value of a scalar with a tag. The tags of collections have none, nor have unknown ones and
the two marks. -/
def valueOf (tag : Tag) (t : Text) : Except Fault Datum :=
  match tag with
  | .null => .ok .null
  | .text => .ok (.text t)
  | .bool => (truth t).map .bool
  | .moment => (moment t).map .moment
  | .binary => (binary t).map .bytes
  | .int => do
    let (negative, digits) ← signedDigits t
    let n ← integer digits
    return .int (if negative then -n else n)
  | .real => do
    let (negative, digits) ← signedDigits t
    let x ← real digits.lower
    return .real (if negative then -x else x)
  | .sequence | .mapping | .pairs | .set | .merge | .default | .other => malformed

end Plain

end SimpleBinary.Yaml

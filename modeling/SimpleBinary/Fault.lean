import SimpleBinary.Datum
import SimpleBinary.Primitive
import SimpleBinary.Signal
import SimpleBinary.Text.Utf8

/-!
What can go wrong, by cause.

A document may hold an *inconsistent* schema; a text may stand for no number; a value may be of the
wrong kind for the place where it stands. Each cause is a constructor with the data that its message
needs, and the wording is in one function for each of the two types.
-/

set_option autoImplicit false

namespace SimpleBinary

/-- Why a schema is inconsistent. -/
inductive Inconsistency
  /-- An entry of a token list is not a mapping. -/
  | notMapping (index : Nat) (found : Datum)
  /-- A token has a key that names no attribute. -/
  | unknownKey (index : Nat) (key : Text)
  /-- A token lacks its signal or its name. -/
  | unnamed (index : Nat)
  /-- A value is none of the names that the attribute knows. -/
  | unknownName (kind : String) (found : Datum)
  /-- A closing token closes nothing. -/
  | neverOpened (closing : Signal) (name : Text) (index : Nat)
  /-- A closing token stands where another construct is open. -/
  | crossed (closing : Signal) (name : Text) (index : Nat) (opening : Signal) (opened : Text)
  /-- The tokens end while a construct is open. -/
  | neverClosed (opening : Signal) (name : Text)
  /-- A token spans no token, not even itself. -/
  | emptySpan (name : Text) (count : Int)
  /-- A token spans more tokens than there are. -/
  | longSpan (name : Text) (count : Int) (remaining : Nat)
  /-- The last token that an opening token spans does not close it. -/
  | openSpan (opening : Signal) (name : Text) (count : Int) (last : Signal) (lastName : Text)
  /-- The header is not a composite. -/
  | headerStart
  /-- The header lacks members. -/
  | headerMembers (missing : List String)
  /-- The document is not a mapping. -/
  | documentKind
  /-- The document names no package. -/
  | documentPackage
  /-- The document has no header. -/
  | documentHeader
  /-- A message does not begin as one. -/
  | messageStart
  /-- A field is the last token of its range. -/
  | fieldAlone (field : Text)
  /-- A field is followed by a token that is no encoding. -/
  | fieldEncoding (field : Text) (found : Signal)
  /-- A field is declared to start inside the previous one. -/
  | overlap (type : String) (field : Text) (declared reached : Int)
  /-- A group is not followed by the composite of its dimensions. -/
  | groupDimensions (group : Text)
  /-- Variable data is not followed by the composite of its length. -/
  | varDataLength (varData : Text)
  /-- The tokens of an enumeration or a set begin with another signal. -/
  | otherConstruct (expected found : Signal) (name : Text)
  /-- No integer has the declared number of bytes. -/
  | integerWidth (name : Text) (length : Option Int)
  /-- A type without integers is used as an encoding of integers. -/
  | notInteger (name : Text) (type : Primitive)
  /-- A choice is outside the bits of its set. -/
  | choiceBit (set : String) (choice : Text) (bit width : Int)
  /-- Two entities of a package have one module name. -/
  | moduleTaken (type module : String)
  /-- The tokens of a type begin with a signal that starts no type. -/
  | notType (found : Signal) (name : Text)

/-- A count as messages show it, if it can be written; one that is not given is `None`. -/
def countText? : Option Int → Option String
  | some n => Numeral.written? n
  | none => some "None"

namespace Inconsistency

/-- The message of an inconsistency, unless there is an integer in it that is too long. -/
def message? : Inconsistency → Option Text
  | .notMapping i found => do
    let spelling ← found.spelling?
    return s!"Token #{i} is not a mapping: {spelling}"
  | .unknownKey i key => some (s!"Token #{i} has unknown key '" ++ key ++ "'")
  | .unnamed i => some s!"Token #{i} needs 'signal' and 'name'"
  | .unknownName kind found => do return s!"Unknown {kind} '" ++ (← found.asText?) ++ "'"
  | .neverOpened s name i =>
    some (s.name ++ " '" ++ name ++ s!"' at #{i} has no begin marker")
  | .crossed s name i opening opened =>
    some (s.name ++ " '" ++ name ++ s!"' at #{i} closes {opening.name} '" ++ opened ++ "'")
  | .neverClosed s name => some (s.name ++ " '" ++ name ++ "' is never closed")
  | .emptySpan name count => do
    return "Token '" ++ name ++ "' has component_token_count " ++ (← Numeral.written? count)
  | .longSpan name count remaining => do
    let count ← Numeral.written? count
    return "Token '" ++ name ++ s!"' spans {count} tokens but only {remaining} remain"
  | .openSpan s name count last lastName => do
    let count ← Numeral.written? count
    return s.name ++ " '" ++ name ++ s!"' spans {count} tokens but ends on {last.name} '" ++
      lastName ++ "'"
  | .headerStart => some "Header structure must begin with BEGIN_COMPOSITE"
  | .headerMembers missing =>
    some ("Header structure missing members: " ++ ", ".intercalate missing : String)
  | .documentKind => some "IR document must be a mapping"
  | .documentPackage => some "IR document needs 'namespaces' or 'package'"
  | .documentHeader => some "IR document needs a 'header' token list"
  | .messageStart => some "Every message token list must begin with BEGIN_MESSAGE"
  | .fieldAlone field => some ("Field '" ++ field ++ "' has no encoding token")
  | .fieldEncoding field s => some ("Field '" ++ field ++ s!"' has unexpected {s.name} encoding")
  | .overlap type field declared reached => do
    let declared ← Numeral.written? declared
    let reached ← Numeral.written? reached
    return type ++ "." ++ field ++
      s!": offset {declared} overlaps previous field ending at {reached}"
  | .groupDimensions group => some ("Group '" ++ group ++ "' has no dimension composite")
  | .varDataLength varData => some ("Var data '" ++ varData ++ "' has no length composite")
  | .otherConstruct expected found name =>
    some (s!"Expected {expected.name}, got {found.name} '" ++ name ++ "'")
  | .integerWidth name length => do
    return "'" ++ name ++ "' has unsupported encoded length " ++ (← countText? length)
  | .notInteger name type => some ("'" ++ name ++ s!"' cannot be encoded as {type.name}")
  | .choiceBit set choice bit width => do
    let bit ← Numeral.written? bit
    let width ← Numeral.written? width
    return set ++ "." ++ choice ++ s!": bit {bit} outside a {width}-bit set"
  | .moduleTaken type module => some s!"Type '{type}' collides with module '{module}'"
  | .notType s name => some (s!"Unexpected {s.name} '" ++ name ++ "' in types")

end Inconsistency

/-- Why an operation fails. -/
inductive Fault
  | inconsistent (cause : Inconsistency)
  /-- What is spelled so stands for no integer in the base, or in any base where that is zero. -/
  | notInteger (base : Nat) (spelling : String)
  /-- A numeral has more digits than are read. -/
  | longNumeral (digits : Nat)
  /-- An integer has more digits than are written. -/
  | longInteger
  /-- A text stands for no real number. -/
  | notReal (text : Text)
  /-- An integer is too great for a real number. -/
  | hugeInteger
  /-- The integer part of what is not a number. -/
  | partOfNaN
  /-- The integer part of an infinity. -/
  | partOfInfinity
  /-- No character has the number, which may be too great for any. -/
  | notCharacter (isHuge : Bool)
  /-- Numbers make up no moment. -/
  | notMoment (problem : Moment.Problem)
  /-- A word is not one of those that stand for a value. -/
  | unknownWord (word : Text)
  /-- The support module defines no such name. -/
  | notSupported (name : String)
  /-- A value that has no parts is gone through. -/
  | notIterable (kind : Kind)
  /-- A value that is no text is read as one. -/
  | notText (kind : Kind)
  /-- A value that is neither a number nor a text is made an integer. -/
  | notNumber (kind : Kind)
  /-- A value that is no text stands for a path. -/
  | notPath (kind : Kind)
  /-- Two values that have no order are compared. -/
  | noOrder (sign : String) (left right : Kind)
  /-- Two values are combined that no arithmetic combines. -/
  | noArithmetic (sign : String) (left right : Kind)
  /-- A value is asked for a part that values of its kind do not have. -/
  | noPart (kind : Kind) (part : String)
  /-- A part is needed after the last one. -/
  | pastEnd (kind : Kind)
  /-- What is nested without an end, or too deeply, is gone through. -/
  | endless
  /-- The text is no YAML document. -/
  | notYaml
  /-- The text is no JSON document. -/
  | notJson (problem : Text)
  /-- A text holds code points that cannot be encoded. -/
  | notEncodable (problem : Unencodable)
  /-- A path holds the character NUL. -/
  | nulInPath
  /-- The file system refuses a path, for the reason with this number and text. -/
  | refused (number : Nat) (reason : String) (path : Text)

namespace Fault

/-- The fault of what stands for no integer, and is spelled so. -/
def ofNumeral (base : Nat) (spelling : String) : Numeral.Problem → Fault
  | .malformed => .notInteger base spelling
  | .long digits => .longNumeral digits

/-- The limit that a numeral or an integer exceeds. -/
def limitText : String :=
  s!"Exceeds the limit ({Numeral.digitLimit} digits) for integer string conversion"

/-- The advice that goes with a limit. -/
def limitAdvice : String :=
  "; use sys.set_int_max_str_digits() to increase the limit"

/-- The fault that shows: an inconsistency whose message cannot be written shows as that. -/
def shown : Fault → Fault
  | .inconsistent cause => if cause.message?.isSome then .inconsistent cause else .longInteger
  | fault => fault

/-- The message about code points that cannot be encoded. -/
def encodingMessage (problem : Unencodable) : String :=
  let position := toString problem.start
  let found := String.ofList (Text.escapeNumber problem.first.toNat)
  let place :=
    if problem.count = 1 then s!"character '{found}' in position {position}"
    else s!"characters in position {position}-{problem.start + problem.count - 1}"
  s!"'utf-8' codec can't encode {place}: surrogates not allowed"

/-- The message of a fault. What is no integer is shown by the first 200 characters of its
spelling. -/
def message : Fault → Text
  | .inconsistent cause => cause.message?.getD []
  | .notInteger base spelling =>
    s!"invalid literal for int() with base {base}: " ++ String.ofList (spelling.toList.take 200)
  | .longNumeral digits => limitText ++ s!": value has {digits} digits" ++ limitAdvice
  | .longInteger => limitText ++ limitAdvice
  | .notReal text => "could not convert string to float: " ++ Text.quoted text
  | .hugeInteger => "int too large to convert to float"
  | .partOfNaN => "cannot convert float NaN to integer"
  | .partOfInfinity => "cannot convert float infinity to integer"
  | .notCharacter false => "chr() arg not in range(0x110000)"
  | .notCharacter true => "Python int too large to convert to C int"
  | .notMoment problem => problem.message
  | .unknownWord word => word
  | .notSupported name => s!"Support module has no '{name}'"
  | .notIterable kind => s!"'{kind.name}' object is not iterable"
  | .notText .bytes => "cannot use a string pattern on a bytes-like object"
  | .notText kind => s!"expected string or bytes-like object, got '{kind.name}'"
  | .notNumber kind =>
    "int() argument must be a string, a bytes-like object or a real number, not " ++ s!"'{kind.name}'"
  | .notPath kind => s!"expected str, bytes or os.PathLike object, not {kind.name}"
  | .noOrder sign left right =>
    s!"'{sign}' not supported between instances of '{left.name}' and '{right.name}'"
  | .noArithmetic sign left right =>
    s!"unsupported operand type(s) for {sign}: '{left.name}' and '{right.name}'"
  | .noPart kind part => s!"'{kind.name}' object has no attribute '{part}'"
  | .pastEnd .text => "string index out of range"
  | .pastEnd kind => s!"{kind.name} index out of range"
  | .endless => "maximum recursion depth exceeded"
  | .notYaml => "not a YAML document"
  | .notJson problem => problem
  | .notEncodable problem => encodingMessage problem
  | .nulInPath => "embedded null byte"
  | .refused number reason path => s!"[Errno {number}] {reason}: " ++ Text.quoted path

/-- The message of a fault in a report, where a missing name is quoted once more. -/
def report : Fault → Text
  | .unknownWord word => Text.quoted word
  | .notSupported name => Text.quoted (message (.notSupported name))
  | fault => fault.message

end Fault

/-- Fails with an inconsistency. -/
def inconsistent {α : Type} (cause : Inconsistency) : Except Fault α :=
  .error (.inconsistent cause)

namespace Datum

/-- The text that stands for a value, if it can be written. -/
def written (d : Datum) : Except Fault Text :=
  match d.asText? with
  | some t => .ok t
  | none => .error .longInteger

/-- The values that a value yields one by one. -/
def partsOf (d : Datum) : Except Fault (List Datum) :=
  match d.parts? with
  | some parts => .ok parts
  | none => .error (.notIterable d.kind)

end Datum

end SimpleBinary

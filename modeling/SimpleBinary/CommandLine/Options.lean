import SimpleBinary.Fault
import SimpleBinary.Text.Digit
import SimpleBinary.Text.Split

/-!
The options of the command line.

An argument that begins with a minus sign is an option, unless it is a lone minus sign, a negative
number, or holds a space and names no option. A long name may be cut short where it stays the name of
one option only. A value follows its option as the next argument, after an equals sign, or, for a
short name, at once; short names that take no value may be written together, the later ones also after
an equals sign, and the last of them may take a value. After `--` all is input, and as a value it is
lost. The inputs stand together in one place.
-/

set_option autoImplicit false

namespace SimpleBinary.CommandLine

/-- An option. -/
inductive Flag
  | help
  | output
  | package
  | verbose
  deriving DecidableEq, Repr

namespace Flag

/-- All options by their names. -/
def names : List (String × Flag) :=
  [("-h", .help), ("--help", .help), ("-o", .output), ("--output", .output),
    ("--package", .package), ("-v", .verbose), ("--verbose", .verbose)]

/-- Whether an option takes a value. -/
def takesValue : Flag → Bool
  | .output | .package => true
  | .help | .verbose => false

/-- The option of a short name. -/
def ofLetter? (c : Char) : Option Flag :=
  names.lookup (String.ofList ['-', c])

end Flag

/-- What an argument says. -/
inductive Word
  /-- An input, or the value of the option before it. -/
  | plain (text : String)
  /-- All that follows is input. -/
  | separator
  /-- Options without a value. -/
  | switches (flags : List Flag)
  /-- Options without a value, and one that takes the next argument. -/
  | awaiting (flags : List Flag) (flag : Flag)
  /-- Options without a value, and one with its value. -/
  | valued (flags : List Flag) (flag : Flag) (value : String)
  /-- An option with something attached that is neither its value nor the names of others. -/
  | unwanted
  /-- An option that does not exist. -/
  | unknown

namespace Word

/-- An option that nothing is attached to. -/
def bare (flag : Flag) : Word :=
  if flag.takesValue then .awaiting [] flag else .switches [flag]

/-- Short names written together, after others that take no value. What follows a name that takes one
is the value. -/
def letters (before : List Flag) : List Char → Word
  | [] => .switches before
  | c :: rest =>
    match Flag.ofLetter? c with
    | none => .unwanted
    | some flag =>
      if !flag.takesValue then letters (before ++ [flag]) rest
      else if rest.isEmpty then .awaiting before flag
      else .valued before flag (String.ofList rest)

/-- A short name with what is attached to it: its value, or more short names. -/
def short (flag : Flag) (rest : List Char) : Word :=
  if flag.takesValue then .valued [] flag (String.ofList rest)
  else if rest.isEmpty then .unwanted
  else letters [flag] rest

/-- A long name with what is attached to it. -/
def long (flag : Flag) (rest : List Char) : Word :=
  if flag.takesValue then .valued [] flag (String.ofList rest) else .unwanted

/-- Whether a text is a negative number, possibly with a line end behind it. -/
def isNegativeNumber (cs : List Char) : Bool :=
  match Text.withoutBreak cs with
  | '-' :: rest =>
    let isDigit (c : Char) := (Text.decimalValue? c).isSome
    let whole := rest.takeWhile isDigit
    match rest.dropWhile isDigit with
    | [] => !whole.isEmpty
    | '.' :: fraction => !fraction.isEmpty && fraction.all isDigit
    | _ => false
  | _ => false

/-- A text cut at its first equals sign. -/
def cut (cs : List Char) : List Char × Option (List Char) :=
  match cs.dropWhile (· != '=') with
  | [] => (cs, none)
  | _ :: value => (cs.takeWhile (· != '='), some value)

/-- The options that a long name may be cut short from. A name is counted as often as an option has
names that begin so. -/
def longMatches (start : List Char) : List Flag :=
  (Flag.names.filter fun (name, _) => start.isPrefixOf name.toList).map Prod.snd

/-- An option that is not written out: a long name cut short, or letters. There is none if the name
stands for several options. -/
def abbreviated (cs : List Char) : Option Word :=
  let (start, value) := cut cs
  let otherwise := if isNegativeNumber cs || cs.contains ' ' then .plain (String.ofList cs)
    else .unknown
  match cs with
  | '-' :: '-' :: _ =>
    match longMatches start with
    | [] => some otherwise
    | [flag] =>
      match value with
      | some value => some (long flag value)
      | none => some (bare flag)
    | _ => none
  | '-' :: c :: rest =>
    match Flag.ofLetter? c with
    | some flag => some (short flag rest)
    | none => some otherwise
  | _ => some otherwise

/-- What an argument says. There is nothing where it stands for several options. -/
def ofText (text : String) : Option Word :=
  let cs := text.toList
  if cs.head? ≠ some '-' then
    some (.plain text)
  else
    match Flag.names.lookup text with
    | some flag => some (bare flag)
    | none =>
      if cs.length = 1 then
        some (.plain text)
      else
        match cut cs with
        | (name, some value) =>
          match Flag.names.lookup (String.ofList name) with
          | some flag => some (if name.length = 2 then short flag value else long flag value)
          | none => abbreviated cs
        | (_, none) => abbreviated cs

/-- What the arguments say. -/
def ofTexts : List String → Option (List Word)
  | [] => some []
  | "--" :: rest => some (.separator :: rest.map .plain)
  | text :: rest => do
    let word ← ofText text
    let words ← ofTexts rest
    return word :: words

end Word

/-- Why nothing is generated. -/
inductive Stop
  /-- The options ask for help. -/
  | help
  /-- The options are wrong. -/
  | usage
  /-- The command breaks off before the first schema. -/
  | fault (cause : Fault)

namespace Stop

/-- The code that a command stops with. -/
def code : Stop → Nat
  | .help => 0
  | .fault _ => 1
  | .usage => 2

/-- What a command that stops says. -/
def message : Stop → Text
  | .help | .usage => "usage: input [input ...] -o OUTPUT [--package PACKAGE] [-v]"
  | .fault cause => cause.report

end Stop

/-- Where the inputs stand. -/
inductive InputPhase
  | before
  | inside
  | after
  deriving DecidableEq

/-- What has been read of the options. The output may be given and its value lost. -/
structure Draft where
  inputs : List String := []
  phase : InputPhase := .before
  output : Option (Option String) := none
  package : Option String := none
  isVerbose : Bool := false
  /-- Whether there are arguments that belong nowhere. -/
  hasSurplus : Bool := false

namespace Draft

/-- The draft with an input, which belongs nowhere once the inputs have ended. -/
def addInput (text : String) (d : Draft) : Draft :=
  if d.phase = .after then { d with hasSurplus := true }
  else { d with inputs := d.inputs ++ [text], phase := .inside }

/-- The draft where an option stands: inputs that have begun end. -/
def endInputs (d : Draft) : Draft :=
  if d.phase = .inside then { d with phase := .after } else d

/-- The draft with an option. -/
def switch (d : Draft) : Flag → Except Stop Draft
  | .help => .error .help
  | .verbose => .ok { d with isVerbose := true }
  | .output | .package => .ok d

/-- The draft with several options. -/
def switches (d : Draft) (flags : List Flag) : Except Stop Draft :=
  flags.foldlM switch d

/-- The draft with the value of an option. A separator is lost as a value. -/
def setValue (flag : Flag) (value : String) (d : Draft) : Draft :=
  let kept := if value = "--" then none else some value
  match flag with
  | .output => { d with output := some kept }
  | .package => { d with package := kept }
  | .help | .verbose => d

/-- The draft after some words. -/
def read (d : Draft) : List Word → Except Stop Draft
  | [] => .ok d
  | .plain text :: rest => (d.addInput text).read rest
  | .separator :: rest =>
    { d with hasSurplus := d.hasSurplus || d.phase == InputPhase.after }.read rest
  | .switches flags :: rest => do (← d.endInputs.switches flags).read rest
  | .awaiting flags flag :: .plain value :: rest => do
    ((← d.endInputs.switches flags).setValue flag value).read rest
  | .awaiting _ _ :: _ => .error .usage
  | .valued flags flag value :: rest => do
    ((← d.endInputs.switches flags).setValue flag value).read rest
  | .unwanted :: _ => .error .usage
  | .unknown :: rest => { d.endInputs with hasSurplus := true }.read rest

end Draft

/-- The options of a command. -/
structure Options where
  inputs : List String
  output : String
  package : Option String
  isVerbose : Bool

/-- The options that arguments give. -/
def Options.ofArguments (arguments : List String) : Except Stop Options :=
  match Word.ofTexts arguments with
  | none => .error .usage
  | some words => do
    let d ← Draft.read {} words
    if d.inputs.isEmpty || d.hasSurplus then
      .error .usage
    else
      match d.output with
      | none => .error .usage
      | some none => .error (.fault (.notPath .list))
      | some (some output) =>
        .ok { inputs := d.inputs, output, package := d.package, isVerbose := d.isVerbose }

end SimpleBinary.CommandLine

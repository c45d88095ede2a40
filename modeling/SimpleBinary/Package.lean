import SimpleBinary.Code.Print
import SimpleBinary.Codec.ChoiceSet
import SimpleBinary.Codec.Entity
import SimpleBinary.Codec.Enumeration
import SimpleBinary.Plan.Walker
import SimpleBinary.Schema

/-!
The package of a schema.

A package holds the support module, one module for the header, for each type and for each message,
and the module that stands for the package and exports all classes. Modules are written one after
another. A name that is taken is a fault, and a fault leaves what has been written. The composite of
the header is skipped where it is listed among the types.

A package keeps what it has exported, so a schema that is generated once more into the same package
finds its first name taken.
-/

set_option autoImplicit false

namespace SimpleBinary

open Code

/-- The lines that each generated module begins with. -/
def moduleHeader : String :=
  "# Generated SBE (Simple Binary Encoding) message codec\n# DO NOT EDIT - regenerate from IR\n"

/-- The text without the line ends at its end. -/
def withoutLastBreaks (t : Text) : Text :=
  (t.reverse.dropWhile (· == .char '\n')).reverse

/-- The source of a module: the header, the imports if there are any, and the body. -/
def moduleSource (body : Text) (i : Imports) : Text :=
  let imports : List Text := if i.text.isEmpty then [] else [i.text ++ "\n\n"]
  withoutLastBreaks (Text.join "\n" (Text.ofString moduleHeader :: imports ++ [body])) ++ "\n"

/-- What happens while a package is generated. -/
inductive Event
  | wrote (module : String) (source : Text)
  | warned (warning : Warning)
  /-- A class has its module. -/
  | placed (type module : String)
  /-- The composite of the header is not written a second time. -/
  | skipped (type : String)

/-- What is logged of an event: warnings, and the rest for those who ask for every detail. -/
def Event.log (verbose : Bool) : Event → List String
  | .warned w => ["[WARN] " ++ w.message]
  | .placed type module => if verbose then [s!"[DEBUG] {type} -> {module}.py"] else []
  | .skipped type =>
    if verbose then [s!"[DEBUG] {type} already generated from the header structure"] else []
  | .wrote .. => []

/-- What has been generated so far. -/
structure Package where
  /-- The classes of each module. -/
  exports : List (String × List String) := []
  events : List Event := []

/-- A part of the generation of a package. A failure keeps what has been generated. -/
abbrev Generation := EStateM Fault Package

/-- Classes that share a module, and the class that the module is named for. -/
structure Entity where
  typeName : String
  classes : Emission (List ClassDef)

namespace Generation

/-- A result or a fault. -/
def ofExcept {α : Type} : Except Fault α → Generation α
  | .ok a => pure a
  | .error fault => throw fault

/-- Records what happens. -/
def record (events : List Event) : Generation Unit :=
  modify fun p => { p with events := p.events ++ events }

/-- The result of an emission. Its warnings are recorded, also if it fails. -/
def emit {α : Type} (x : Emission α) : Generation α := do
  record ((x.notes.filterMap Note.warning?).map .warned)
  ofExcept x.outcome

/-- Writes the module of an entity, whose name must not be taken. -/
def add (entity : Entity) : Generation Unit := do
  let body := classesText (← emit entity.classes)
  let imports := Imports.addAll {} entity.classes.notes
  let module := Identifier.moduleName entity.typeName
  let p ← get
  if p.exports.any (·.1 == module) then
    throw (.inconsistent (.moduleTaken entity.typeName module))
  else
    set { p with exports := p.exports ++ [(module, imports.defined.toList)] }
    record [.wrote module (moduleSource body imports),
      .placed entity.typeName module]

end Generation

/-- The name of the class of the header. -/
def headerType : String :=
  "MessageHeader"

/-- The classes of a plan, if there is one. -/
def planClasses (e : Edition) (plan : Except Fault Plan) : Emission (List ClassDef) := do
  Plan.classes e (← Emission.ofExcept plan)

namespace Entity

/-- The entity of the header, whose tokens never change. -/
def ofHeader (e : Edition) : Entity where
  typeName := headerType
  classes := planClasses e ((Plan.ofComposite headerType e.header.tokens).mapError fun
    | .pastEnd _ => .pastEnd .tuple
    | fault => fault)

/-- The entity of a message. -/
def ofMessage (e : Edition) (tokens : List Token) : Except Fault Entity :=
  match tokens with
  | [] => .error (.pastEnd .list)
  | first :: _ =>
    let typeName := Identifier.typeName first.name
    .ok { typeName, classes := planClasses e (Plan.ofMessage typeName tokens) }

/-- The entity of a type, or the name of the header where that is listed. -/
def ofType (e : Edition) (tokens : List Token) : Except Fault (Entity ⊕ String) :=
  match tokens with
  | [] => .error (.pastEnd .list)
  | first :: _ => do
    let typeName ← Codec.definedName first
    match first.signal with
    | .opens .enumeration =>
      return .inl { typeName, classes := do return [(← Enumeration.ofTokens tokens).toClass] }
    | .opens .choiceSet =>
      return .inl { typeName, classes := do return [(← ChoiceSet.ofTokens tokens).toClass] }
    | .opens .composite =>
      if typeName = headerType then
        return .inr typeName
      else
        return .inl { typeName, classes := planClasses e (Plan.ofComposite typeName tokens) }
    | signal => inconsistent (.notType signal first.name)

end Entity

/-- The names of the support module that every package exports. -/
def exportedHelpers : List String :=
  [Helper.bigEndian, Helper.littleEndian, Helper.rangeCheckError].map Helper.name

/-- Whether the numbers of a schema and its version can be written. -/
def Edition.isWritable (e : Edition) : Bool :=
  Numeral.isWritable e.id && Numeral.isWritable e.version

/-- The source of the module that stands for the package. -/
def initSource (e : Edition) (exports : List (String × List String)) : String :=
  let modules := exports.mergeSort fun a b => a.1 ≤ b.1
  let line (module : String) (names : List String) : String :=
    s!"from .{module} import " ++ commas names
  let names := exportedHelpers ++ modules.flatMap Prod.snd
  let lines :=
    ["\"\"\"SBE codecs for schema " ++ toString e.id ++ " version " ++ toString e.version ++ ".\"\"\"",
      "", line supportModule exportedHelpers] ++
    (modules.map fun m => line m.1 m.2) ++
    ["", "__all__ = ["] ++
    (names.map fun name : String => "    " ++ Text.quoted name ++ ",") ++
    ["]"]
  "\n".intercalate lines ++ "\n"

namespace Generation

/-- Writes the module of a type, unless it is the header. -/
def addType (e : Edition) (tokens : List Token) : Generation Unit := do
  match ← ofExcept (Entity.ofType e tokens) with
  | .inl entity => add entity
  | .inr typeName => record [.skipped typeName]

/-- Writes the module of a message. -/
def addMessage (e : Edition) (tokens : List Token) : Generation Unit := do
  add (← ofExcept (Entity.ofMessage e tokens))

/-- Writes all modules of a schema. -/
def addSchema (s : Schema) : Generation Unit := do
  record [.wrote supportModule supportSource]
  add (Entity.ofHeader s.toEdition)
  s.types.forM (addType s.toEdition)
  s.messages.forM (addMessage s.toEdition)
  if s.toEdition.isWritable then
    record [.wrote "__init__" (initSource s.toEdition (← get).exports)]
  else
    throw .longInteger

end Generation

namespace Package

/-- The package after a part of its generation, and the fault that ended it. -/
def after (p : Package) (g : Generation Unit) : Package × Option Fault :=
  match g.run p with
  | .ok _ p => (p, none)
  | .error fault p => (p, some fault)

/-- The package with a schema generated into it a number of times, up to the first fault. -/
def generate (s : Schema) : (times : Nat) → Package → Package × Option Fault
  | 0, p => (p, none)
  | times + 1, p =>
    match p.after (Generation.addSchema s) with
    | (p, none) => generate s times p
    | (p, some fault) => (p, some fault)

/-- The modules in the order in which they were written. -/
def written (p : Package) : List (String × Text) :=
  p.events.filterMap fun
    | .wrote module source => some (module, source)
    | _ => none

/-- The sources with that of a module set: a module that is written again has its last source. -/
def setSource (module : String) (source : Text) : List (String × Text) → List (String × Text)
  | [] => [(module, source)]
  | (m, old) :: rest =>
    if m = module then (m, source) :: rest else (m, old) :: setSource module source rest

/-- The sources of the modules. -/
def sources (p : Package) : List (String × Text) :=
  p.written.foldl (fun sources (module, source) => setSource module source sources) []

end Package

end SimpleBinary

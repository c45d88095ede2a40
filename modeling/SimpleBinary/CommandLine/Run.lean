import SimpleBinary.CommandLine.Options
import SimpleBinary.Document.Json
import SimpleBinary.Document.Yaml.Value
import SimpleBinary.Files.Basic
import SimpleBinary.Package
import SimpleBinary.Text.Case

/-!
The command that generates packages.

Each input is a schema or a directory of schemas, and each schema becomes a package below the output
directory. A schema that fails is reported and does not keep the others from being generated; what it
has written before stays. The modules of a schema are listed once all of them are written.
-/

set_option autoImplicit false

namespace SimpleBinary.CommandLine

/-- The suffixes of schemas, in small letters. -/
def schemaSuffixes : List String :=
  [".yaml", ".yml", ".json"]

/-- The suffix of a path in small letters. -/
def suffixOf (p : Path) : String :=
  p.suffix.lower.plain

/-- The schemas that an input stands for: those in a directory, in the order of their names, and
otherwise the input itself. Of a path that is too long it cannot be told what it leads to. -/
def schemasOf (f : Files) (input : String) : Except Stop (List Path) :=
  let p := Path.ofText input
  match f.locate p with
  | .error .tooLong => .error (.fault (Refusal.tooLong.fault p))
  | _ =>
    if f.isDirectory p then
      .ok (((f.namesIn p).map p.child).filter fun child => schemaSuffixes.contains (suffixOf child))
    else
      .ok [p]

/-- A text with all line ends alike. -/
def plainBreaks : List Char → List Char
  | [] => []
  | '\r' :: '\n' :: rest => '\n' :: plainBreaks rest
  | '\r' :: rest => '\n' :: plainBreaks rest
  | c :: rest => c :: plainBreaks rest

/-- The document in a text: JSON if the suffix says so, and YAML otherwise. -/
def documentOf (suffix : String) (text : List Char) : Except Fault Datum :=
  if suffix = ".json" then
    match Json.read text with
    | .ok d => .ok d
    | .error m => .error (.notJson (m.message text))
  else
    Yaml.read text

/-- The schema at a path. -/
def schemaAt (f : Files) (package : Option String) (p : Path) : Except Fault Schema :=
  match f.read p with
  | .error refusal => .error (refusal.fault p)
  | .ok text => do
    Schema.ofDatum package (← documentOf (suffixOf p) (plainBreaks text.toList))

/-- What a command has done so far. -/
structure Report where
  files : Files
  /-- The lines of the output. -/
  printed : List Text := []
  /-- The messages of the log. -/
  logged : List Text := []
  hasFailed : Bool := false

namespace Report

/-- The report of what happens while a package is generated in a directory, up to the first module
that cannot be written, and the paths of the modules. -/
def replay (verbose : Bool) (directory : Path) (r : Report) (written : List Path) :
    List Event → Report × Except Fault (List Path)
  | [] => (r, .ok written)
  | .wrote module source :: rest =>
    let p := directory.child (module ++ ".py")
    match r.files.writeText p source with
    | (files, none) => replay verbose directory { r with files } (written ++ [p]) rest
    | (files, some fault) => ({ r with files }, .error fault)
  | event :: rest =>
    let lines := (event.log verbose).map Text.ofString
    replay verbose directory { r with logged := r.logged ++ lines } written rest

/-- The report of the package of a schema, and the paths of its modules. -/
def generate (verbose : Bool) (directory : Path) (r : Report) (s : Schema) :
    Report × Except Fault (List Path) :=
  match r.files.ensureDirectories directory with
  | (files, some fault) => ({ r with files }, .error fault)
  | (files, none) =>
    let (p, ending) := Package.generate s 1 {}
    match replay verbose directory { r with files } [] p.events, ending with
    | (r, .ok _), some fault => (r, .error fault)
    | result, _ => result

/-- The report with a fault of an input. -/
def fail (name : Text) (fault : Fault) (r : Report) : Report :=
  { r with
    logged := r.logged ++ ["Error: " ++ name ++ ": " ++ fault.shown.report]
    hasFailed := true }

/-- The report with the success of an input. -/
def succeed (name : Text) (s : Schema) (written : List Path) (r : Report) : Report :=
  { r with
    printed := r.printed ++ written.map fun p => Text.ofString "Generated: " ++ p.text
    logged := r.logged ++
      ["[INFO] " ++ name ++ s!": {s.messages.length} messages, {s.types.length} types"] }

/-- The report with the schema at a path generated. -/
def add (o : Options) (r : Report) (p : Path) : Report :=
  match schemaAt r.files o.package p with
  | .error fault => r.fail p.name fault
  | .ok s =>
    let directory := (Path.ofText o.output).join (Path.ofText s.packageName)
    match r.generate o.isVerbose directory s with
    | (r, .error fault) => r.fail p.name fault
    | (r, .ok written) => r.succeed p.name s written

/-- The code that a command ends with. -/
def code (r : Report) : Nat :=
  if r.hasFailed then 1 else 0

end Report

/-- Generates the packages that arguments ask for. -/
def run (arguments : List String) (f : Files) : Except Stop Report := do
  let o ← Options.ofArguments arguments
  let schemas ← o.inputs.mapM (schemasOf f)
  return schemas.flatten.foldl (Report.add o) { files := f }

end SimpleBinary.CommandLine

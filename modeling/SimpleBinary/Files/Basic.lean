import SimpleBinary.Fault
import SimpleBinary.Files.Path
import SimpleBinary.Text.Utf8

/-!
The files that a command works on.

A file or a directory is found by its *location*: the names that lead to it once every pair of points
has been taken away together with the name before it. Points that lead out of the working directory,
and a slash for the root of the file system, stay in front. What lies out there is taken to be there
and to be empty, and what is written there is kept like everything else.

A path is followed name by name, and every name but the last must be that of a directory. Names are
told apart by their bytes. A file holds a text that can be encoded; where another one is to be written,
the file is made and stays empty.
-/

set_option autoImplicit false

namespace SimpleBinary

/-- The names that lead to a file or a directory. -/
abbrev Location := List Text

namespace Location

/-- The name of the directory above. -/
def twoPoints : Text := ".."

/-- The name of the root of the file system. -/
def slash : Text := "/"

/-- The location of the directory above. -/
def above (here : Location) : Location :=
  match here.getLast? with
  | none => [twoPoints]
  | some last =>
    if last = twoPoints then here ++ [twoPoints]
    else if last = slash then here
    else here.dropLast

/-- The location that a name leads to. -/
def enter (here : Location) (name : Text) : Location :=
  if name = twoPoints then here.above else here ++ [name.asName]

/-- Whether a location is outside of all that is known: it leads upwards only, or is the root. -/
def isOutside (here : Location) : Bool :=
  here.all (· == twoPoints) || here == [slash]

/-- Whether a location lies below the working directory. -/
def isLocal (here : Location) : Bool :=
  !(here.head? == some twoPoints || here.head? == some slash)

/-- The path that leads to a location. -/
def path (here : Location) : Path :=
  if here.head? = some slash then { start := .root, parts := here.tail } else { parts := here }

end Location

/-- What stands at a location. -/
inductive FileEntry
  | directory
  | file (text : String)
  deriving DecidableEq

/-- Files and directories by their locations. -/
structure Files where
  entries : List (Location × FileEntry) := []

/-- Why a path is refused. -/
inductive Refusal
  | notFound
  | exists
  | notDirectory
  | isDirectory
  | tooLong
  | holdsNul
  | unencodable (problem : Unencodable)
  deriving DecidableEq

/-- The fault of a refused path. -/
def Refusal.fault (r : Refusal) (p : Path) : Fault :=
  match r with
  | .notFound => .refused 2 "No such file or directory" p.text
  | .exists => .refused 17 "File exists" p.text
  | .notDirectory => .refused 20 "Not a directory" p.text
  | .isDirectory => .refused 21 "Is a directory" p.text
  | .tooLong => .refused 36 "File name too long" p.text
  | .holdsNul => .nulInPath
  | .unencodable problem => .notEncodable problem

namespace Files

/-- What stands at a location. -/
def find? (f : Files) (here : Location) : Option FileEntry :=
  if here.isOutside then some .directory else f.entries.lookup here

/-- The files with a location set. -/
def put (f : Files) (here : Location) (e : FileEntry) : Files where
  entries := set f.entries
where
  /-- The entries with a location set: in place if it is there, at the end if not. -/
  set : List (Location × FileEntry) → List (Location × FileEntry)
    | [] => [(here, e)]
    | (l, old) :: rest => if l = here then (here, e) :: rest else (l, old) :: set rest

/-- The most bytes that a name may have. -/
def nameLimit : Nat := 255

/-- The most bytes that a path may have. -/
def pathLimit : Nat := 4095

/-- The location that names lead to from another one. -/
def follow (f : Files) (here : Location) : List Text → Except Refusal Location
  | [] => .ok here
  | name :: rest =>
    match f.find? here with
    | some .directory =>
      if nameLimit < name.nameBytes.length then .error .tooLong
      else f.follow (here.enter name) rest
    | some (.file _) => .error .notDirectory
    | none => .error .notFound

/-- The location of a path. -/
def locate (f : Files) (p : Path) : Except Refusal Location :=
  match p.text.unencodableName? with
  | some problem => .error (.unencodable problem)
  | none =>
    if p.parts.any (·.contains (.char '\x00')) then .error .holdsNul
    else if pathLimit < p.text.nameBytes.length then .error .tooLong
    else f.follow (if p.isAbsolute then [Location.slash] else []) p.parts

/-- Whether a path leads to a directory. -/
def isDirectory (f : Files) (p : Path) : Bool :=
  match f.locate p with
  | .ok here => f.find? here == some .directory
  | .error _ => false

/-- The names in the directory that a path leads to, in ascending order. -/
def namesIn (f : Files) (p : Path) : List Text :=
  match f.locate p with
  | .ok here =>
    let names := f.entries.filterMap fun (l, _) =>
      if l.dropLast = here then l.getLast? else none
    names.mergeSort Text.isAtMost
  | .error _ => []

/-- The text of a file. -/
def read (f : Files) (p : Path) : Except Refusal String := do
  match f.find? (← f.locate p) with
  | some (.file text) => .ok text
  | some .directory => .error .isDirectory
  | none => .error .notFound

/-- The files with a file written. -/
def write (f : Files) (p : Path) (text : String) : Except Refusal Files := do
  let here ← f.locate p
  match f.find? here with
  | some .directory => .error .isDirectory
  | _ => .ok (f.put here (.file text))

/-- The files with a text written to a file, and the fault of it, if there is one. -/
def writeText (f : Files) (p : Path) (t : Text) : Files × Option Fault :=
  match f.write p (t.toString?.getD "") with
  | .error refusal => (f, some (refusal.fault p))
  | .ok f => (f, t.unencodable?.map .notEncodable)

/-- The files with a directory made in one that is there. -/
def makeDirectory (f : Files) (p : Path) : Except Refusal Files := do
  let here ← f.locate p
  match f.find? here with
  | some _ => .error .exists
  | none => .ok (f.put here .directory)

/-- The files with a directory made, unless it is there, and the fault of it, if there is one. -/
def ensureDirectory (f : Files) (p : Path) : Files × Option Fault :=
  match f.makeDirectory p with
  | .ok f => (f, none)
  | .error r => (f, if r ≠ .notFound ∧ f.isDirectory p then none else some (r.fault p))

/-- The files with a directory made, and those above it where they are not there, and the fault of it, if
there is one. Directories that have been made stay where the next one cannot be made. -/
def ensureDirectories (f : Files) (p : Path) : Files × Option Fault :=
  match f.makeDirectory p with
  | .error .notFound =>
    if p.parts.isEmpty then
      (f, some (Refusal.notFound.fault p))
    else
      match f.ensureDirectories p.parent with
      | (f, none) => f.ensureDirectory p
      | (f, some fault) => (f, some fault)
  | _ => f.ensureDirectory p
termination_by p.parts.length
decreasing_by
  rename_i h
  have : p.parts ≠ [] := by simpa using h
  simp only [Path.parent, List.length_dropLast]
  have := List.length_pos_iff.mpr this
  omega

/-- The files with texts at some paths, and the directories above them. -/
def ofTexts (texts : List (String × String)) (directories : List String) : Files :=
  let f := directories.foldl (fun f d => (f.ensureDirectories (.ofText d)).1) {}
  let add (f : Files) (entry : String × String) : Files :=
    let p := Path.ofText entry.1
    let f := (f.ensureDirectories p.parent).1
    (f.write p entry.2).toOption.getD f
  texts.foldl add f

/-- The texts below the working directory, by their paths. -/
def texts (f : Files) : List (Text × String) :=
  f.entries.filterMap fun
    | (here, .file text) => if here.isLocal then some (here.path.text, text) else none
    | (_, .directory) => none

end Files

end SimpleBinary

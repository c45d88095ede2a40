import SimpleBinary.CommandLine.Run

/-!
The program: it reads the files that its arguments name, runs the command on them, and writes the
files and the lines that the command leaves.

All decisions are those of `CommandLine.run`, which works on the files that it is given. The program
gives it the files whose names stand among the arguments and does not look into directories, so the
schemas of a directory are named one by one (`ir/*.yaml`).
-/

set_option autoImplicit false

namespace SimpleBinary

/-- The text of a file, if it can be read. -/
def readText? (path : String) : IO (Option String) := do
  try
    return some (← IO.FS.readFile path)
  catch _ =>
    return none

/-- The files that arguments name, with their texts. -/
def namedTexts (arguments : List String) : IO (List (String × String)) := do
  let texts ← arguments.mapM fun path => do
    return (← readText? path).map fun text => (path, text)
  return texts.filterMap id

/-- Writes a file, and makes the directories above it. -/
def writeText (path text : String) : IO Unit := do
  IO.FS.createDirAll (Path.ofText path).parent.text.plain
  IO.FS.writeFile path text

/-- Runs the command on the files that its arguments name, and writes what it leaves. -/
def runProgram (arguments : List String) : IO UInt32 := do
  let before := Files.ofTexts (← namedTexts arguments) []
  match CommandLine.run arguments before with
  | .error stop =>
    IO.eprintln stop.message.plain
    return stop.code.toUInt32
  | .ok report =>
    for (location, entry) in report.files.entries do
      match entry with
      | .file text =>
        if before.find? location ≠ some (.file text) then
          writeText (Location.path location).text.plain text
      | .directory => pure ()
    for line in report.printed do
      IO.println line.plain
    for line in report.logged do
      IO.eprintln line.plain
    return report.code.toUInt32

end SimpleBinary

/-- The program. -/
def main (arguments : List String) : IO UInt32 :=
  SimpleBinary.runProgram arguments

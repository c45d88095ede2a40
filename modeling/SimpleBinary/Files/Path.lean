import SimpleBinary.Text.Basic
import SimpleBinary.Text.Split

/-!
Paths of files and directories.

A path is a row of names, from the working directory or, if it begins with a slash, from the root of
the file system. Two slashes at its front are kept as they are, and three or more count as one. Empty
names and single points mean nothing and are left out; two points mean the directory above and are
kept.
-/

set_option autoImplicit false

namespace SimpleBinary

/-- Where a path begins. -/
inductive PathStart
  | workingDirectory
  | root
  /-- The root, written with two slashes. -/
  | doubleRoot
  deriving DecidableEq, Repr

namespace PathStart

/-- The start of a path with some slashes at its front. -/
def ofSlashes : Nat → PathStart
  | 0 => .workingDirectory
  | 2 => .doubleRoot
  | _ => .root

/-- The slashes at the front of a path. -/
def text : PathStart → String
  | .workingDirectory => ""
  | .root => "/"
  | .doubleRoot => "//"

end PathStart

/-- A path. -/
structure Path where
  start : PathStart := .workingDirectory
  parts : List Text := []
  deriving DecidableEq

namespace Path

/-- The path that a text stands for. -/
def ofText (t : Text) : Path where
  start := .ofSlashes (t.takeWhile (· == .char '/')).length
  parts := (Text.split (.char '/') t).filter fun part => !part.isEmpty && part != [.char '.']

/-- Whether a path begins at the root of the file system. -/
def isAbsolute (p : Path) : Bool :=
  p.start != .workingDirectory

/-- The text of a path. The working directory is a single point. -/
def text (p : Path) : Text :=
  if p.start = .workingDirectory ∧ p.parts.isEmpty then "."
  else p.start.text ++ Text.join "/" p.parts

/-- A path below another one; an absolute path is below nothing. -/
def join (p : Path) (below : Path) : Path :=
  if below.isAbsolute then below else { p with parts := p.parts ++ below.parts }

/-- The path of an entry of a directory. -/
def child (p : Path) (name : Text) : Path :=
  { p with parts := p.parts ++ [name] }

/-- The path without its last name. -/
def parent (p : Path) : Path :=
  { p with parts := p.parts.dropLast }

/-- The last name of a path. -/
def name (p : Path) : Text :=
  p.parts.getLast?.getD []

/-- The last point of a name and what follows it, if there is something on both sides of it. -/
def suffix (p : Path) : Text :=
  match (Text.split (.char '.') p.name).reverse with
  | last :: before :: rest =>
    if last.isEmpty || (before.isEmpty && rest.isEmpty) then [] else .char '.' :: last
  | _ => []

theorem name_child (p : Path) (name : Text) :
    (p.child name).name = name := by
  simp [child, Path.name]

end Path

end SimpleBinary

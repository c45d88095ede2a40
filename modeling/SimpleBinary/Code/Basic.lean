import SimpleBinary.Code.Format
import SimpleBinary.Datum
import SimpleBinary.Number

/-!
The generated source as a tree.

A class is made of methods, and a method of statements. Names of the schema enter the tree in four
ways: as identifiers, as values with a spelling of their own, as text that is put between quotes as
it is, and as parts of the text of a template. No expression of this source needs parentheses: the
operators stand in the order in which they bind.
-/

set_option autoImplicit false

namespace SimpleBinary.Code

/-- An operator between two expressions. -/
inductive Operator
  | add
  | subtract
  | times
  | shiftLeft
  | shiftRight
  | bitAnd
  | bitOr
  | less
  | greater
  | atLeast
  | equals
  | differs
  | same
  | absent
  | both
  | either
  deriving DecidableEq, Repr

/-- The sign of an operator. -/
def Operator.sign : Operator → String
  | .add => "+"
  | .subtract => "-"
  | .times => "*"
  | .shiftLeft => "<<"
  | .shiftRight => ">>"
  | .bitAnd => "&"
  | .bitOr => "|"
  | .less => "<"
  | .greater => ">"
  | .atLeast => ">="
  | .equals => "=="
  | .differs => "!="
  | .same => "is"
  | .absent => "not in"
  | .both => "and"
  | .either => "or"

mutual

/-- An expression. -/
inductive Expr where
  | name (identifier : String)
  | member (value : Expr) (identifier : String)
  | item (value index : Expr)
  | call (function : Expr) (arguments : List Expr)
  /-- The items of a value as arguments of their own. -/
  | spread (value : Expr)
  /-- A count of the schema, which may be missing. -/
  | int (value : Option Int)
  | number (value : Number)
  /-- A value of the schema by its spelling. -/
  | datum (value : Datum)
  | bytes (bytes : List UInt8)
  | format (packed : Format)
  /-- A text as it is, between single quotes. -/
  | label (text : String)
  /-- A text as it is, between double quotes: the only ones that a template may hold. -/
  | words (text : String)
  | template (pieces : List Piece)
  | list (items : List Expr)
  | tuple (items : List Expr)
  | dict (entries : List (Expr × Expr))
  | binary (operator : Operator) (left right : Expr)
  | choose (test yes no : Expr)
  /-- A value for each item of a source, or for each that passes a test. -/
  | each (value : Expr) (targets : List String) (source : Expr) (test : Option Expr)

/-- A part of a template: text as it is, or a value by its text or by its spelling. -/
inductive Piece where
  | text (text : String)
  | value (value : Expr)
  | spelling (value : Expr)

end

/-- A statement. -/
inductive Stmt
  | run (value : Expr)
  | assign (target value : Expr)
  /-- The results of a call, each in its target. -/
  | unpack (targets : List Expr) (function : Expr) (arguments : List Expr)
  | update (target : Expr) (operator : Operator) (value : Expr)
  | raise (value : Expr)
  | give (value : Option Expr)
  | remark (text : String)
  | branch (test : Expr) (yes no : List Stmt)
  | loop (targets : List String) (source : Expr) (body : List Stmt)

/-- A parameter of a method, with or without a default. -/
structure Param where
  name : String
  default : Option Expr := none

/-- A method of a class. One without statements does nothing. -/
structure Method where
  decorators : List Expr := []
  name : String
  params : List Param
  body : List Stmt

/-- A class. The trailer are statements that follow it. -/
structure ClassDef where
  name : String
  base : Option String := none
  doc : Text
  constants : List Stmt := []
  methods : List Method
  trailer : List Stmt := []

/-! ## Short forms -/

/-- Parameters without a default. -/
def Param.ofNames (names : List String) : List Param :=
  names.map ({ name := · })

/-- A method of the class itself. -/
def Method.static (name : String) (parameters : List String) (value : Expr) : Method where
  decorators := [.name "staticmethod"]
  name
  params := Param.ofNames parameters
  body := [.give (some value)]

namespace Expr

/-- A call of a function by its name. -/
def apply (function : String) (arguments : List Expr) : Expr :=
  .call (.name function) arguments

/-- A call of a member. -/
def send (value : Expr) (identifier : String) (arguments : List Expr) : Expr :=
  .call (.member value identifier) arguments

/-- The object that a method works on. -/
def self : Expr :=
  .name "self"

/-- An attribute of that object. -/
def own (identifier : String) : Expr :=
  .member self identifier

/-- An integer. -/
def count (n : Int) : Expr :=
  .int (some n)

/-- The number of items of a value. -/
def length (value : Expr) : Expr :=
  apply "len" [value]

end Expr

end SimpleBinary.Code

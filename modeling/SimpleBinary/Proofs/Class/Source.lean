import SimpleBinary.Code.Basic

/-!
Reading emitted source.

What a class does is told by its source, so it is read off the statements and expressions, whoever made
them. `Expr.parts` goes through all that is evaluated when an expression is, apart from what is skipped;
the function of a call is left out where it is a method, so a member among the parts is one whose value is
read.
-/

set_option autoImplicit false

namespace SimpleBinary.Code

mutual

/-- All expressions in an expression, itself first, without those that are skipped. -/
def Expr.parts (skip : Expr → Bool) (e : Expr) : List Expr :=
  if skip e then [] else e ::
    match e with
    | .member value _ => value.parts skip
    | .item value index => value.parts skip ++ index.parts skip
    | .call (.member value _) arguments => value.parts skip ++ partsAll skip arguments
    | .call function arguments => function.parts skip ++ partsAll skip arguments
    | .spread value => value.parts skip
    | .template pieces => pieceParts skip pieces
    | .list items => partsAll skip items
    | .tuple items => partsAll skip items
    | .dict entries => entryParts skip entries
    | .binary _ left right => left.parts skip ++ right.parts skip
    | .choose test yes no => test.parts skip ++ yes.parts skip ++ no.parts skip
    | .each value _ source none => source.parts skip ++ value.parts skip
    | .each value _ source (some test) => source.parts skip ++ test.parts skip ++ value.parts skip
    | _ => []

/-- All expressions in several ones. -/
def Expr.partsAll (skip : Expr → Bool) : List Expr → List Expr
  | [] => []
  | e :: rest => e.parts skip ++ partsAll skip rest

/-- All expressions in the entries of a dictionary. -/
def Expr.entryParts (skip : Expr → Bool) : List (Expr × Expr) → List Expr
  | [] => []
  | (key, value) :: rest => key.parts skip ++ value.parts skip ++ entryParts skip rest

/-- All expressions in the pieces of a template. -/
def Expr.pieceParts (skip : Expr → Bool) : List Piece → List Expr
  | [] => []
  | .text _ :: rest => pieceParts skip rest
  | .value value :: rest => value.parts skip ++ pieceParts skip rest
  | .spelling value :: rest => value.parts skip ++ pieceParts skip rest

end

/-- What is evaluated before something is assigned to a target. -/
def Expr.targetParts (skip : Expr → Bool) : Expr → List Expr
  | .member value _ => value.parts skip
  | .item value index => value.parts skip ++ index.parts skip
  | _ => []

mutual

/-- All expressions that a statement evaluates, whichever way it takes. -/
def Stmt.parts (skip : Expr → Bool) : Stmt → List Expr
  | .run value => value.parts skip
  | .assign target value => target.targetParts skip ++ value.parts skip
  | .unpack targets function arguments =>
    targets.flatMap (Expr.targetParts skip) ++ (Expr.call function arguments).parts skip
  | .update target _ value => target.parts skip ++ value.parts skip
  | .raise value => value.parts skip
  | .give none => []
  | .give (some value) => value.parts skip
  | .remark _ => []
  | .branch test yes no => test.parts skip ++ Stmt.partsAll skip yes ++ Stmt.partsAll skip no
  | .loop _ source body => source.parts skip ++ Stmt.partsAll skip body

/-- All expressions that several statements evaluate. -/
def Stmt.partsAll (skip : Expr → Bool) : List Stmt → List Expr
  | [] => []
  | s :: rest => s.parts skip ++ Stmt.partsAll skip rest

end

theorem Stmt.partsAll_append (skip : Expr → Bool) (a b : List Stmt) :
    Stmt.partsAll skip (a ++ b) = Stmt.partsAll skip a ++ Stmt.partsAll skip b := by
  induction a with
  | nil => rfl
  | cons s rest ih => rw [List.cons_append, partsAll, partsAll, ih, List.append_assoc]

/-- The attribute of the object itself that an expression is. -/
def Expr.own? : Expr → Option String
  | .member (.name "self") identifier => some identifier
  | _ => none

/-- Nothing is skipped. -/
def Expr.never : Expr → Bool :=
  fun _ => false

end SimpleBinary.Code

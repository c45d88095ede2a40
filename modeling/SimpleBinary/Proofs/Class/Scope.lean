import SimpleBinary.Code.Basic

/-!
Names in emitted source.

A name that source uses must be bound where it is used: by the method itself, by the module, or by the
language. `InScope` says so of an expression, a statement, a method and a class, given which names are
known from outside. What stands between quotes binds and uses nothing, except for the values in a
template. The targets of a comprehension are known in its value and its test, those of an assignment
or a loop in the whole method, and the names of a class body in what follows in that body, but not in its
methods.
-/

set_option autoImplicit false

namespace SimpleBinary

/-- The names in the literal of a value: what has no literal of its own is taken from `math`. -/
def Number.names : Number → List String
  | .int _ => []
  | .real x =>
    match Decimal.Parts.ofFloat x with
    | .finite _ => []
    | _ => ["math"]

theorem Number.eq_math_of_mem_names {n : Number} {name : String} (h : name ∈ n.names) : name = "math" := by
  cases n with
  | int n => cases h
  | real x =>
    rw [Number.names] at h
    split at h
    · cases h
    · exact List.mem_singleton.mp h

/-- The names that the spelling of a value of the schema may hold if it is no text: those of moments, of
the empty set, and of reals without a literal. -/
abbrev Datum.names : List String :=
  ["datetime", "set", "nan", "inf"]

namespace Code

mutual

/-- Whether all names in an expression are known. -/
@[simp] def Expr.InScope (known : String → Prop) : Expr → Prop
  | .name identifier => known identifier
  | .member value _ => value.InScope known
  | .item value index => value.InScope known ∧ index.InScope known
  | .call function arguments => function.InScope known ∧ AllInScope known arguments
  | .spread value => value.InScope known
  | .number value => ∀ name ∈ value.names, known name
  | .datum _ => ∀ name ∈ Datum.names, known name
  | .int _ | .bytes _ | .format _ | .label _ | .words _ => True
  | .template pieces => PiecesInScope known pieces
  | .list items => AllInScope known items
  | .tuple items => AllInScope known items
  | .dict entries => EntriesInScope known entries
  | .binary _ left right => left.InScope known ∧ right.InScope known
  | .choose test yes no => test.InScope known ∧ yes.InScope known ∧ no.InScope known
  | .each value targets source none =>
    source.InScope known ∧ value.InScope fun name => name ∈ targets ∨ known name
  | .each value targets source (some test) =>
    source.InScope known ∧ (test.InScope fun name => name ∈ targets ∨ known name) ∧
      value.InScope fun name => name ∈ targets ∨ known name

/-- Whether all names in several expressions are known. -/
@[simp] def Expr.AllInScope (known : String → Prop) : List Expr → Prop
  | [] => True
  | e :: rest => e.InScope known ∧ AllInScope known rest

/-- Whether all names in the entries of a dictionary are known. -/
@[simp] def Expr.EntriesInScope (known : String → Prop) : List (Expr × Expr) → Prop
  | [] => True
  | (key, value) :: rest => key.InScope known ∧ value.InScope known ∧ EntriesInScope known rest

/-- Whether all names in the values of a template are known. -/
@[simp] def Expr.PiecesInScope (known : String → Prop) : List Piece → Prop
  | [] => True
  | .text _ :: rest => PiecesInScope known rest
  | .value value :: rest => value.InScope known ∧ PiecesInScope known rest
  | .spelling value :: rest => value.InScope known ∧ PiecesInScope known rest

end

/-- The name that an assignment to a target binds. -/
@[simp] def Expr.binds? : Expr → Option String
  | .name identifier => some identifier
  | _ => none

/-- Whether all names in a target are known, if it is no name itself. -/
def Expr.TargetInScope (known : String → Prop) : Expr → Prop
  | .name _ => True
  | e => e.InScope known

mutual

/-- The names that a statement binds. -/
@[simp] def Stmt.binds : Stmt → List String
  | .assign target _ => target.binds?.toList
  | .unpack targets _ _ => targets.filterMap Expr.binds?
  | .update target _ _ => target.binds?.toList
  | .branch _ yes no => Stmt.bindsAll yes ++ Stmt.bindsAll no
  | .loop targets _ body => targets ++ Stmt.bindsAll body
  | _ => []

/-- The names that several statements bind. -/
@[simp] def Stmt.bindsAll : List Stmt → List String
  | [] => []
  | s :: rest => s.binds ++ Stmt.bindsAll rest

end

mutual

/-- Whether all names in a statement are known. -/
@[simp] def Stmt.InScope (known : String → Prop) : Stmt → Prop
  | .run value => value.InScope known
  | .assign target value => target.TargetInScope known ∧ value.InScope known
  | .unpack targets function arguments =>
    (∀ target ∈ targets, target.TargetInScope known) ∧ function.InScope known ∧
      Expr.AllInScope known arguments
  | .update target _ value => target.InScope known ∧ value.InScope known
  | .raise value => value.InScope known
  | .give none => True
  | .give (some value) => value.InScope known
  | .remark _ => True
  | .branch test yes no => test.InScope known ∧ Stmt.AllInScope known yes ∧ Stmt.AllInScope known no
  | .loop _ source body => source.InScope known ∧ Stmt.AllInScope known body

/-- Whether all names in several statements are known. -/
@[simp] def Stmt.AllInScope (known : String → Prop) : List Stmt → Prop
  | [] => True
  | s :: rest => s.InScope known ∧ Stmt.AllInScope known rest

end

/-- Whether all names in the body of a method are known: from outside, as a parameter, or because the
body binds them. -/
def Method.BodyInScope (known : String → Prop) (m : Method) : Prop :=
  Stmt.AllInScope (fun name => name ∈ m.params.map Param.name ∨ name ∈ Stmt.bindsAll m.body ∨ known name)
    m.body

/-- Whether all names in front of the body of a method are known: those of its decorators and of the
defaults of its parameters. -/
def Method.HeadInScope (known : String → Prop) (m : Method) : Prop :=
  (∀ d ∈ m.decorators, d.InScope known) ∧ ∀ p ∈ m.params, ∀ value ∈ p.default, value.InScope known

/-- Whether all names in the heads of methods are known: from outside, or because the class body binds
them before. -/
def Method.HeadsInScope (known : String → Prop) : (before : List String) → List Method → Prop
  | _, [] => True
  | before, m :: rest =>
    m.HeadInScope (fun name => name ∈ before ∨ known name) ∧ HeadsInScope known (m.name :: before) rest

/-- Whether all names in a class and in the statements that follow it are known. -/
structure ClassDef.InScope (known : String → Prop) (c : ClassDef) : Prop where
  base : ∀ name ∈ c.base, known name
  constants : Stmt.AllInScope known c.constants
  heads : Method.HeadsInScope known (Stmt.bindsAll c.constants) c.methods
  bodies : ∀ m ∈ c.methods, m.BodyInScope known
  trailer : Stmt.AllInScope known c.trailer

/-! ## Short forms and lists -/

section

variable {known : String → Prop}

@[simp] theorem inScope_apply (function : String) (arguments : List Expr) :
    (Expr.apply function arguments).InScope known ↔ known function ∧ Expr.AllInScope known arguments :=
  Iff.rfl

@[simp] theorem inScope_send (value : Expr) (identifier : String) (arguments : List Expr) :
    (Expr.send value identifier arguments).InScope known ↔
      value.InScope known ∧ Expr.AllInScope known arguments :=
  Iff.rfl

@[simp] theorem inScope_self : Expr.self.InScope known ↔ known "self" :=
  Iff.rfl

@[simp] theorem inScope_own (identifier : String) : (Expr.own identifier).InScope known ↔ known "self" :=
  Iff.rfl

@[simp] theorem targetInScope_name (identifier : String) :
    (Expr.name identifier).TargetInScope known ↔ True :=
  Iff.rfl

@[simp] theorem targetInScope_own (identifier : String) :
    (Expr.own identifier).TargetInScope known ↔ known "self" :=
  Iff.rfl

@[simp] theorem inScope_count (n : Int) : (Expr.count n).InScope known ↔ True :=
  Iff.rfl

@[simp] theorem inScope_length (value : Expr) :
    value.length.InScope known ↔ known "len" ∧ value.InScope known := by
  simp [Expr.length]

namespace Expr

theorem allInScope_iff {es : List Expr} : AllInScope known es ↔ ∀ e ∈ es, e.InScope known := by
  induction es with
  | nil => simp
  | cons e rest ih => simp [ih]

theorem piecesInScope_append {a b : List Piece} :
    PiecesInScope known (a ++ b) ↔ PiecesInScope known a ∧ PiecesInScope known b := by
  induction a with
  | nil => simp
  | cons piece rest ih => cases piece <;> simp [ih, and_assoc]

end Expr

namespace Stmt

theorem allInScope_iff {stmts : List Stmt} : AllInScope known stmts ↔ ∀ s ∈ stmts, s.InScope known := by
  induction stmts with
  | nil => simp
  | cons s rest ih => simp [ih]

theorem allInScope_append {a b : List Stmt} :
    AllInScope known (a ++ b) ↔ AllInScope known a ∧ AllInScope known b := by
  simp only [allInScope_iff, List.forall_mem_append]

theorem bindsAll_append (a b : List Stmt) : bindsAll (a ++ b) = bindsAll a ++ bindsAll b := by
  induction a with
  | nil => rfl
  | cons s rest ih => rw [List.cons_append, bindsAll, bindsAll, ih, List.append_assoc]

end Stmt

end

end Code

end SimpleBinary

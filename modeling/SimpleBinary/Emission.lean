import SimpleBinary.Bounds
import SimpleBinary.Imports

/-!
Emissions: source together with what is noted while it is made.

Whoever writes a piece of source notes what the piece needs from elsewhere, which classes it defines,
and what it warns about. Notes come in the order in which they are made, and those made before a
failure stay. An emission depends on nothing that others have noted, so a class can be read on its
own, and the imports of a module are what its notes add up to.
-/

set_option autoImplicit false

namespace SimpleBinary

/-- What is noted while source is written. -/
inductive Note
  /-- A module of the standard library is needed. -/
  | module (name : String)
  /-- A helper is needed. -/
  | helper (helper : Helper)
  /-- A class is needed. -/
  | type (name : String)
  /-- A class is defined. -/
  | defined (name : String)
  | warning (warning : Warning)

namespace Note

/-- The imports after a note. -/
def apply (i : Imports) : Note → Imports
  | .module name => i.needModule name
  | .helper h => i.needHelper h
  | .type name => i.needType name
  | .defined name => i.define name
  | .warning _ => i

/-- The warning of a note. -/
def warning? : Note → Option Warning
  | .warning w => some w
  | _ => none

end Note

/-- The imports after several notes. -/
def Imports.addAll (i : Imports) (notes : List Note) : Imports :=
  notes.foldl Note.apply i

/-- A result or a fault, with the notes made on the way to it. -/
structure Emission (α : Type) where
  notes : List Note
  outcome : Except Fault α

namespace Emission

/-- A result and what is made of it. A fault leaves the rest aside. -/
def andThen {α β : Type} (x : Emission α) (f : α → Emission β) : Emission β :=
  match x.outcome with
  | .ok a =>
    let y := f a
    ⟨x.notes ++ y.notes, y.outcome⟩
  | .error fault => ⟨x.notes, .error fault⟩

instance : Monad Emission where
  pure a := ⟨[], .ok a⟩
  bind := andThen

@[simp] theorem notes_pure {α : Type} (a : α) : (pure a : Emission α).notes = [] := rfl

@[simp] theorem outcome_pure {α : Type} (a : α) : (pure a : Emission α).outcome = .ok a := rfl

theorem bind_of_ok {α β : Type} {x : Emission α} {a : α} (f : α → Emission β)
    (h : x.outcome = .ok a) : x >>= f = ⟨x.notes ++ (f a).notes, (f a).outcome⟩ := by
  show andThen x f = _
  rw [andThen, h]

theorem bind_of_error {α β : Type} {x : Emission α} {fault : Fault} (f : α → Emission β)
    (h : x.outcome = .error fault) : x >>= f = ⟨x.notes, .error fault⟩ := by
  show andThen x f = _
  rw [andThen, h]

instance : LawfulMonad Emission := LawfulMonad.mk' Emission
  (by
    intro α x
    obtain ⟨notes, outcome⟩ := x
    cases outcome <;> simp [Functor.map, andThen])
  (by
    intro α β a f
    simp [pure, bind, andThen])
  (by
    intro α β γ x f g
    obtain ⟨notes, outcome⟩ := x
    cases outcome with
    | error fault => rfl
    | ok a =>
      show andThen (andThen _ f) g = andThen _ fun a => andThen (f a) g
      cases h : (f a).outcome <;> simp [andThen, h, List.append_assoc])

/-- Notes something. -/
def note (n : Note) : Emission Unit :=
  ⟨[n], .ok ()⟩

/-- Fails. -/
def fail {α : Type} (fault : Fault) : Emission α :=
  ⟨[], .error fault⟩

/-- A result or a fault without notes. -/
def ofExcept {α : Type} (outcome : Except Fault α) : Emission α :=
  ⟨[], outcome⟩

/-- Goes on if integers can be written, which source is made of at this point. -/
def demand (areWritable : Bool) : Emission Unit :=
  if areWritable then pure () else fail .longInteger

/-- A value that must be there, since a part of it is asked for. -/
def ofOption {α : Type} (part : String) : Option α → Emission α
  | some a => pure a
  | none => fail (.noPart .null part)

/-- Notes that modules of the standard library are needed. -/
def noteModules (names : List String) : Emission Unit :=
  ⟨names.map .module, .ok ()⟩

/-- The bounds of a type in an encoding, with the warning that they deserve. -/
def bounds (type : Primitive) (e : Encoding) : Emission Bounds := do
  let b ← ofExcept (Bounds.resolve type e)
  match b.warning? type with
  | some w => note (.warning w)
  | none => pure ()
  return b

end Emission

end SimpleBinary

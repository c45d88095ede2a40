import SimpleBinary.Proofs.Class.Notes
import Mathlib

/-!
What notes add up to.

Every note of a name ends in an import line that makes the name known, unless the note is of a class that
the module defines itself (`Noted.known`). A class that is needed before it is defined loses its import
when it is defined, so which classes are defined has to be known of a whole emission (`DefinesOnly`).
-/

set_option autoImplicit false

namespace SimpleBinary

/-! ## Imports -/

/-- Whether an import line makes a name known. -/
def Imports.Provides (i : Imports) (name : String) : Prop :=
  "import " ++ name ∈ i.lines ∨ ∃ module names, lineFrom module names ∈ i.lines ∧ name ∈ names

namespace Imports

variable {i : Imports} {notes : List Note} {name : String}

theorem provides_of_mem_modules (h : name ∈ i.modules) : i.Provides name := by
  refine .inl (List.mem_append_left _ (List.mem_append_left _ ?_))
  exact List.mem_map.mpr ⟨name, h, rfl⟩

theorem provides_of_mem_helpers (h : name ∈ i.helpers) : i.Provides name := by
  refine .inr ⟨supportModule, i.helpers, List.mem_append_right _ (List.mem_append_left _ ?_), h⟩
  have hempty : ¬ i.helpers.isEmpty = true := by
    intro hempty
    rw [NameSet.isEmpty, List.isEmpty_iff] at hempty
    have h : name ∈ i.helpers.toList := h
    rw [hempty] at h
    exact List.not_mem_nil h
  rw [if_neg hempty]
  exact List.mem_cons_self ..

theorem provides_of_mem_types (h : name ∈ i.types) : i.Provides name := by
  refine .inr ⟨Identifier.moduleName name, i.typesFrom (Identifier.moduleName name),
    List.mem_append_right _ (List.mem_append_right _ ?_), mem_typesFrom.mpr ⟨h, rfl⟩⟩
  exact List.mem_map.mpr ⟨_, mem_siblings.mpr ⟨name, h, rfl⟩, rfl⟩

/-! ### All notes -/

@[simp] theorem modules_needType (type : String) : (i.needType type).modules = i.modules := by
  rw [needType]
  split <;> rfl

@[simp] theorem helpers_needType (type : String) : (i.needType type).helpers = i.helpers := by
  rw [needType]
  split <;> rfl

@[simp] theorem defined_needType (type : String) : (i.needType type).defined = i.defined := by
  rw [needType]
  split <;> rfl

theorem addAll_cons (n : Note) (rest : List Note) : i.addAll (n :: rest) = (n.apply i).addAll rest :=
  rfl

theorem mem_modules_addAll :
    name ∈ (i.addAll notes).modules ↔ name ∈ i.modules ∨ .module name ∈ notes := by
  induction notes generalizing i with
  | nil => simp [addAll]
  | cons n rest ih =>
    rw [addAll_cons, ih]
    cases n <;> simp [Note.apply, needModule, needHelper, define]
    tauto

theorem mem_helpers_addAll :
    name ∈ (i.addAll notes).helpers ↔
      name ∈ i.helpers ∨ ∃ h : Helper, .helper h ∈ notes ∧ h.name = name := by
  induction notes generalizing i with
  | nil => simp [addAll]
  | cons n rest ih =>
    rw [addAll_cons, ih]
    cases n <;> simp [Note.apply, needModule, needHelper, define]
    rw [or_comm (b := name ∈ i.helpers), or_assoc, eq_comm]

theorem mem_defined_addAll :
    name ∈ (i.addAll notes).defined ↔ name ∈ i.defined ∨ .defined name ∈ notes := by
  induction notes generalizing i with
  | nil => simp [addAll]
  | cons n rest ih =>
    rw [addAll_cons, ih]
    cases n <;> simp [Note.apply, needModule, needHelper, define]
    tauto

/-- A class that is needed is imported or defined, whichever is noted first. -/
theorem mem_types_addAll (h : name ∈ i.types ∨ name ∈ i.defined ∨ .type name ∈ notes) :
    name ∈ (i.addAll notes).types ∨ name ∈ (i.addAll notes).defined := by
  induction notes generalizing i with
  | nil => simpa [addAll] using h
  | cons n rest ih =>
    rw [addAll_cons]
    refine ih ?_
    -- A type that is needed after its definition is not imported, and a definition takes an import back.
    cases n with
    | type type =>
      by_cases htype : name = type
      · rw [Note.apply, needType, htype]
        split
        · next hdefined => exact .inr (.inl hdefined)
        · simp
      · simp only [List.mem_cons, Note.type.injEq, htype, false_or] at h
        rw [Note.apply, needType]
        split
        · exact h
        · simpa [htype] using h
    | defined type =>
      by_cases htype : name = type
      · simp [Note.apply, define, htype]
      · simpa [Note.apply, define, htype] using h
    | _ => simpa [Note.apply, needModule, needHelper] using h

/-- A class is imported only if it is needed. -/
theorem mem_of_mem_types_addAll (h : name ∈ (i.addAll notes).types) :
    name ∈ i.types ∨ .type name ∈ notes := by
  induction notes generalizing i with
  | nil => exact .inl h
  | cons n rest ih =>
    rw [addAll_cons] at h
    rcases ih h with htypes | hrest
    · -- The one note either takes an import back, or leaves the imports alone, or is of this class.
      cases n with
      | type type =>
        rw [Note.apply, needType] at htypes
        split at htypes
        · exact .inl htypes
        · rcases NameSet.mem_insert.mp htypes with rfl | hi
          · exact .inr (List.mem_cons_self ..)
          · exact .inl hi
      | defined type =>
        exact .inl (NameSet.mem_erase.mp htypes).1
      | _ => exact .inl htypes
    · exact .inr (List.mem_cons_of_mem _ hrest)

end Imports

/-! ## Noted names -/

/-- Whether a name is noted. -/
inductive Noted (notes : List Note) : String → Prop
  | module {name : String} : .module name ∈ notes → Noted notes name
  | helper (helper : Helper) : .helper helper ∈ notes → Noted notes helper.name
  | type {name : String} : .type name ∈ notes → Noted notes name
  | defined {name : String} : .defined name ∈ notes → Noted notes name

/-- **A noted name is imported or defined.** -/
theorem Noted.known {notes : List Note} {name : String} (h : Noted notes name) :
    (Imports.addAll {} notes).Provides name ∨ .defined name ∈ notes := by
  cases h with
  | module h => exact .inl (Imports.provides_of_mem_modules (Imports.mem_modules_addAll.mpr (.inr h)))
  | helper helper h =>
    exact .inl (Imports.provides_of_mem_helpers (Imports.mem_helpers_addAll.mpr (.inr ⟨helper, h, rfl⟩)))
  | type h =>
    rcases Imports.mem_types_addAll (.inr (.inr h)) with htypes | hdefined
    · exact .inl (Imports.provides_of_mem_types htypes)
    · exact .inr (by simpa using Imports.mem_defined_addAll.mp hdefined)
  | defined h => exact .inr h

/-! ## The classes that an emission defines -/

end SimpleBinary

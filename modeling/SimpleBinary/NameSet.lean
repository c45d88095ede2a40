/-!
Sets of names.

A set is kept as the list of its names in ascending order, each of them once, so that two sets with
the same names are equal and a set is written in one way, whatever the order in which its names were
added.
-/

set_option autoImplicit false

namespace SimpleBinary

/-- A set of names. -/
structure NameSet where
  toList : List String := []
  ascending : toList.Pairwise (· < ·) := by simp

namespace NameSet

instance : Membership String NameSet where
  mem s name := name ∈ s.toList

instance (name : String) (s : NameSet) : Decidable (name ∈ s) :=
  inferInstanceAs (Decidable (name ∈ s.toList))

/-- The set without names. -/
def empty : NameSet := {}

/-- Whether a set has no names. -/
def isEmpty (s : NameSet) : Bool :=
  s.toList.isEmpty

/-- An ascending list with a name put in its place. -/
def place (name : String) : List String → List String
  | [] => [name]
  | n :: rest =>
    if name < n then name :: n :: rest
    else if name = n then n :: rest
    else n :: place name rest

theorem mem_place {name x : String} {names : List String} :
    x ∈ place name names ↔ x = name ∨ x ∈ names := by
  induction names with
  | nil => simp [place]
  | cons n rest ih =>
    rw [place]
    split
    · simp
    · split
      · next h => simp [h]
      · simp only [List.mem_cons, ih]
        constructor
        · rintro (h | h | h) <;> simp [h]
        · rintro (h | h | h) <;> simp [h]

theorem ascending_place (name : String) {names : List String}
    (h : names.Pairwise (· < ·)) : (place name names).Pairwise (· < ·) := by
  induction names with
  | nil => simp [place]
  | cons n rest ih =>
    obtain ⟨first, others⟩ := List.pairwise_cons.mp h
    rw [place]
    split
    · next before =>
      refine List.pairwise_cons.mpr ⟨fun x hx => ?_, h⟩
      rcases List.mem_cons.mp hx with rfl | hx
      · exact before
      · exact String.lt_trans before (first x hx)
    · split
      · exact h
      · next notBefore other =>
        refine List.pairwise_cons.mpr ⟨fun x hx => ?_, ih others⟩
        rcases mem_place.mp hx with rfl | hx
        · exact Std.lt_of_le_of_ne (String.not_lt.mp notBefore) (Ne.symm other)
        · exact first x hx

/-- The set with a name added. -/
def insert (name : String) (s : NameSet) : NameSet where
  toList := place name s.toList
  ascending := ascending_place name s.ascending

/-- The set without a name. -/
def erase (name : String) (s : NameSet) : NameSet where
  toList := s.toList.filter (· != name)
  ascending := s.ascending.filter _

/-- The names of a set that pass a test. -/
def filter (p : String → Bool) (s : NameSet) : NameSet where
  toList := s.toList.filter p
  ascending := s.ascending.filter _

/-- The set with the names of a list added. -/
def insertAll (names : List String) (s : NameSet) : NameSet :=
  names.foldl (fun s name => s.insert name) s

/-- The set of the names in a list. -/
def ofList (names : List String) : NameSet :=
  empty.insertAll names

@[simp] theorem mem_toList {name : String} {s : NameSet} : name ∈ s.toList ↔ name ∈ s :=
  Iff.rfl

@[simp] theorem not_mem_empty (name : String) : name ∉ empty :=
  List.not_mem_nil

@[simp] theorem mem_insert {name x : String} {s : NameSet} :
    x ∈ s.insert name ↔ x = name ∨ x ∈ s :=
  mem_place

@[simp] theorem mem_erase {name x : String} {s : NameSet} :
    x ∈ s.erase name ↔ x ∈ s ∧ x ≠ name := by
  show x ∈ s.toList.filter (· != name) ↔ x ∈ s.toList ∧ x ≠ name
  simp

@[simp] theorem mem_filter {p : String → Bool} {x : String} {s : NameSet} :
    x ∈ s.filter p ↔ x ∈ s ∧ p x = true := by
  show x ∈ s.toList.filter p ↔ x ∈ s.toList ∧ p x = true
  simp

@[simp] theorem mem_insertAll {names : List String} {x : String} {s : NameSet} :
    x ∈ s.insertAll names ↔ x ∈ names ∨ x ∈ s := by
  induction names generalizing s with
  | nil => simp [insertAll]
  | cons name rest ih =>
    show x ∈ (s.insert name).insertAll rest ↔ _
    rw [ih]
    simp only [mem_insert, List.mem_cons]
    constructor
    · rintro (h | h | h) <;> simp [h]
    · rintro ((h | h) | h) <;> simp [h]

theorem mem_ofList {names : List String} {x : String} : x ∈ ofList names ↔ x ∈ names := by
  simp [ofList]

end NameSet

end SimpleBinary

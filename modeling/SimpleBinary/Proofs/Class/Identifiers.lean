import Mathlib
import SimpleBinary.Identifier

/-!
Identifiers are well formed.

The names of classes, modules, constants and attributes hold letters of ASCII, digits and underscores only,
whatever the name is that they are made of, and none begins with a digit (`Identifier.isFormed_typeName` and its
siblings). Only a name without any code points gives no identifier, and thus one that holds nothing else either
(`Identifier.isAllowed_of_isFormed`).
-/

set_option autoImplicit false

namespace SimpleBinary.Identifier

/-- Whether characters have the form of an identifier: letters of ASCII, digits and underscores, no digit in
front, and at least one. -/
def IsFormed (cs : List Char) : Prop :=
  (∀ c ∈ cs, isAllowed c = true) ∧ ∃ c ∈ cs.head?, c.isDigit = false

section

variable {c : Char}

theorem isDigit_of_isAlpha (h : c.isAlpha = true) : c.isDigit = false := by
  have hletter : 65 ≤ c.toNat ∧ c.toNat ≤ 90 ∨ 97 ≤ c.toNat ∧ c.toNat ≤ 122 := by
    simp only [Char.isAlpha, Char.isUpper, Char.isLower, Bool.or_eq_true, Bool.and_eq_true,
      decide_eq_true_eq] at h
    exact h
  have hdigit : ¬ (48 ≤ c.toNat ∧ c.toNat ≤ 57) := by omega
  simp only [Char.isDigit, Bool.and_eq_false_iff, decide_eq_false_iff_not]
  exact not_and_or.mp hdigit

/-- A letter in the other case is a letter. What is no letter is kept. -/
theorem toUpper_cases (c : Char) : c.toUpper.isAlpha = true ∨ c.toUpper = c := by
  by_cases hlower : c.isLower = true
  · left
    rw [Char.isAlpha_toUpper_eq_isAlpha, Char.isAlpha, hlower, Bool.or_true]
  · exact .inr (Char.toUpper_eq_of_not_isLower hlower)

theorem toLower_cases (c : Char) : c.toLower.isAlpha = true ∨ c.toLower = c := by
  by_cases hupper : c.isUpper = true
  · left
    rw [Char.isAlpha_toLower_eq_isAlpha, Char.isAlpha, hupper, Bool.true_or]
  · exact .inr (Char.toLower_eq_of_not_isUpper hupper)

/-- Controls, blanks, quotes and other signs are not allowed. -/
theorem toNat_of_isAllowed (h : isAllowed c = true) : 48 ≤ c.toNat ∧ c.toNat ≤ 122 ∧ c.toNat ≠ 92 := by
  have hallowed : ((65 ≤ c.toNat ∧ c.toNat ≤ 90 ∨ 97 ≤ c.toNat ∧ c.toNat ≤ 122) ∨
      48 ≤ c.toNat ∧ c.toNat ≤ 57) ∨ c = '_' := by
    simp only [isAllowed, Char.isAlphanum, Char.isAlpha, Char.isUpper, Char.isLower, Char.isDigit,
      Bool.or_eq_true, Bool.and_eq_true, decide_eq_true_eq, beq_iff_eq] at h
    exact h
  rcases hallowed with h | rfl
  · omega
  · decide

theorem isAllowed_of_isDigit (h : c.isDigit = true) : isAllowed c = true := by
  simp [isAllowed, Char.isAlphanum, h]

theorem isAllowed_of_isAlpha (h : c.isAlpha = true) : isAllowed c = true := by
  simp [isAllowed, Char.isAlphanum, h]

end

/-! ## From names to identifiers -/

variable {name : Text} {cs : List Char}

theorem isAllowed_of_mem_sanitize : ∀ c ∈ sanitize name, isAllowed c = true := by
  have hall : ∀ c ∈ name.chars.map fun c => if isAllowed c then c else '_', isAllowed c = true := by
    intro c hc
    obtain ⟨d, -, rfl⟩ := List.mem_map.mp hc
    split
    · assumption
    · decide
  unfold sanitize
  split
  · simp
  · rename_i c rest hchars
    rw [hchars] at hall
    split
    · exact List.forall_mem_cons.mpr ⟨by decide, hall⟩
    · exact hall

/-- Sanitizing leaves at least one character of a name, and no digit in front. -/
theorem exists_head?_sanitize (h : name ≠ []) : ∃ c ∈ (sanitize name).head?, c.isDigit = false := by
  obtain ⟨p, rest, rfl⟩ := List.exists_cons_of_ne_nil h
  rw [sanitize, Text.chars, List.map_cons, List.map_cons]
  generalize (if isAllowed p.toChar = true then p.toChar else '_') = first
  dsimp only
  by_cases hdigit : first.isDigit = true
  · rw [if_pos hdigit]
    exact ⟨'_', rfl, by decide⟩
  · rw [if_neg hdigit]
    exact ⟨first, rfl, Bool.eq_false_of_not_eq_true hdigit⟩

theorem isFormed_sanitize (h : name ≠ []) : IsFormed (sanitize name) :=
  ⟨isAllowed_of_mem_sanitize, exists_head?_sanitize h⟩

/-- A well formed identifier remains one with more behind it. -/
theorem IsFormed.append {ds : List Char} (h : IsFormed cs) (hds : ∀ c ∈ ds, isAllowed c = true) :
    IsFormed (cs ++ ds) := by
  obtain ⟨hall, c, hc, hdigit⟩ := h
  exact ⟨List.forall_mem_append.mpr ⟨hall, hds⟩, c, List.mem_head?_append_of_mem_head? hc, hdigit⟩

/-- A well formed identifier remains one with a capital in front. -/
theorem IsFormed.capitalize (h : IsFormed cs) : IsFormed (capitalize cs) := by
  obtain ⟨hall, c, hc, hdigit⟩ := h
  cases cs with
  | nil => cases hc
  | cons d rest =>
    obtain rfl := Option.some.inj hc
    obtain ⟨hd, hrest⟩ := List.forall_mem_cons.mp hall
    rcases toUpper_cases d with halpha | hkept
    · exact ⟨List.forall_mem_cons.mpr ⟨isAllowed_of_isAlpha halpha, hrest⟩, d.toUpper, rfl,
        isDigit_of_isAlpha halpha⟩
    · rw [Identifier.capitalize, hkept]
      exact ⟨hall, d, rfl, hdigit⟩

/-- Splitting adds underscores, and none in front. -/
theorem mem_of_mem_splitWords {c : Char} (h : c ∈ splitWords cs) : c ∈ cs ∨ c = '_' := by
  induction cs using splitWords.induct with
  | case1 => exact .inl h
  | case2 d => exact .inl h
  | case3 before d after hbegins ih =>
    rw [splitWords, if_pos hbegins] at h
    grind
  | case4 before d after hbegins ih =>
    rw [splitWords, if_neg hbegins] at h
    grind

theorem head?_splitWords (cs : List Char) : (splitWords cs).head? = cs.head? := by
  fun_cases splitWords cs <;> simp_all

theorem IsFormed.splitWords (h : IsFormed cs) : IsFormed (splitWords cs) := by
  obtain ⟨hall, hhead⟩ := h
  refine ⟨?_, by rwa [head?_splitWords]⟩
  intro c hc
  rcases mem_of_mem_splitWords hc with hc | rfl
  · exact hall c hc
  · decide

/-- A well formed identifier remains one where its letters change their case. -/
theorem IsFormed.map {f : Char → Char} (hf : ∀ c, (f c).isAlpha = true ∨ f c = c) (h : IsFormed cs) :
    IsFormed (cs.map f) := by
  obtain ⟨hall, c, hc, hdigit⟩ := h
  constructor
  · intro d hd
    obtain ⟨b, hb, rfl⟩ := List.mem_map.mp hd
    rcases hf b with halpha | hkept
    · exact isAllowed_of_isAlpha halpha
    · rw [hkept]
      exact hall b hb
  · refine ⟨f c, by rw [List.head?_map, hc]; rfl, ?_⟩
    rcases hf c with halpha | hkept
    · exact isDigit_of_isAlpha halpha
    · rwa [hkept]

/-- **The names of classes are well formed.** -/
theorem isFormed_typeName (h : name ≠ []) : IsFormed (typeName name).toList := by
  rw [typeName, String.toList_ofList]
  exact (isFormed_sanitize h).capitalize

/-- **The names of modules are well formed.** -/
theorem isFormed_moduleName (h : name ≠ []) : IsFormed (moduleName name).toList := by
  rw [moduleName, String.toList_ofList]
  exact (isFormed_sanitize h).splitWords.map toLower_cases

/-- **The names of constants are well formed.** -/
theorem isFormed_constantName (h : name ≠ []) : IsFormed (constantName name).toList := by
  rw [constantName, String.toList_ofList]
  exact (isFormed_sanitize h).splitWords.map toUpper_cases

/-- An attribute is called like a module, or like one that is reserved with an underscore behind it. -/
theorem propertyName_cases (name : Text) : propertyName name = moduleName name ∨
    moduleName name ∈ keywords ∧ propertyName name = moduleName name ++ "_" := by
  rw [propertyName]
  split
  · rename_i hkeyword
    exact .inr ⟨List.contains_iff_mem.mp hkeyword, rfl⟩
  · exact .inl rfl

/-- **The names of attributes are well formed.** -/
theorem isFormed_propertyName (h : name ≠ []) : IsFormed (propertyName name).toList := by
  rcases propertyName_cases name with heq | ⟨-, heq⟩
  · rw [heq]
    exact isFormed_moduleName h
  · rw [heq, String.toList_append]
    exact (isFormed_moduleName h).append (List.forall_mem_singleton.mpr rfl)

/-- Also an identifier that is made of no name at all holds nothing else. -/
theorem isAllowed_of_isFormed {identifier : Text → String} (hnil : identifier [] = "")
    (h : ∀ {name}, name ≠ [] → IsFormed (identifier name).toList) (name : Text) :
    ∀ c ∈ (identifier name).toList, isAllowed c = true := by
  by_cases hname : name = []
  · intro c hc
    rw [hname, hnil] at hc
    cases hc
  · exact (h hname).1

theorem isAllowed_of_mem_typeName (name : Text) : ∀ c ∈ (typeName name).toList, isAllowed c = true :=
  isAllowed_of_isFormed rfl isFormed_typeName name

theorem isAllowed_of_mem_moduleName (name : Text) : ∀ c ∈ (moduleName name).toList, isAllowed c = true :=
  isAllowed_of_isFormed rfl isFormed_moduleName name

theorem isAllowed_of_mem_constantName (name : Text) : ∀ c ∈ (constantName name).toList, isAllowed c = true :=
  isAllowed_of_isFormed rfl isFormed_constantName name

theorem isAllowed_of_mem_propertyName (name : Text) : ∀ c ∈ (propertyName name).toList, isAllowed c = true :=
  isAllowed_of_isFormed rfl isFormed_propertyName name

end SimpleBinary.Identifier

import SimpleBinary.Proofs.Class.Members
import SimpleBinary.Proofs.Identifier.Substitution
import SimpleBinary.Proofs.Package.Statements

/-!
The cases of identifiers.

Whatever a name is, what is made of it for a class, an attribute, a constant or a module is an identifier. All
but that of a class are the same characters in another case, with underscores between them: no letter and no
digit of the name is lost, and none changes its place (`Recased`). An identifier that has its form already is
left as it is, and so making one of an identifier once more changes nothing; this is shown from the fixed
points (`sanitize_of_isFormed`, `moduleName_of_not_isUpper`).
-/

set_option autoImplicit false

namespace SimpleBinary.Identifier

/-! ## Letters in another case -/

/-- Whether characters are others in upper or lower case, with an underscore before some of them. -/
inductive Recased : List Char → List Char → Prop
  | nil : Recased [] []
  | keep {c d : Char} {cs ds : List Char} : d.toLower = c.toLower → Recased cs ds → Recased (c :: cs) (d :: ds)
  | insert {c d : Char} {cs ds : List Char} : d.toLower = c.toLower → Recased cs ds →
      Recased (c :: cs) ('_' :: d :: ds)

/-- The letters and digits among some characters, without their case. -/
def letters (cs : List Char) : List Char :=
  (cs.filter Char.isAlphanum).map Char.toLower

section

variable {cs ds : List Char} {f : Char → Char}

theorem isAlphanum_toLower (c : Char) : c.toLower.isAlphanum = c.isAlphanum := by
  rcases toLower_cases c with halpha | hkept
  · have hbefore := halpha
    rw [Char.isAlpha_toLower_eq_isAlpha] at hbefore
    rw [Char.isAlphanum, Char.isAlphanum, halpha, hbefore, Bool.true_or, Bool.true_or]
  · rw [hkept]

theorem isAlphanum_of_toLower {c d : Char} (h : d.toLower = c.toLower) : d.isAlphanum = c.isAlphanum := by
  rw [← isAlphanum_toLower d, h, isAlphanum_toLower]

theorem letters_cons {c d : Char} (h : d.toLower = c.toLower) (hletters : letters ds = letters cs) :
    letters (d :: ds) = letters (c :: cs) := by
  unfold letters at hletters ⊢
  rw [List.filter_cons, List.filter_cons, isAlphanum_of_toLower h]
  split
  · rw [List.map_cons, List.map_cons, h, hletters]
  · exact hletters

/-- **No letter and no digit is lost**, and none changes its place. -/
theorem Recased.letters_eq (h : Recased cs ds) : letters ds = letters cs := by
  induction h with
  | nil => rfl
  | keep hcase _ ih => exact letters_cons hcase ih
  | @insert c d _ ds hcase _ ih =>
    have hmark : letters ('_' :: d :: ds) = letters (d :: ds) := rfl
    rw [hmark, letters_cons hcase ih]

/-- Characters in another case still are the same ones. -/
theorem Recased.map (hf : ∀ c, (f c).toLower = c.toLower) (hmark : f '_' = '_') (h : Recased cs ds) :
    Recased cs (ds.map f) := by
  induction h with
  | nil => exact .nil
  | keep hcase _ ih => exact .keep ((hf _).trans hcase) ih
  | insert hcase _ ih =>
    rw [List.map_cons, List.map_cons, hmark]
    exact .insert ((hf _).trans hcase) ih

theorem recased_splitBehind (breaks : Char → Char → List Char → Bool) (before : Char) (cs : List Char) :
    Recased cs (splitBehind breaks before cs) := by
  induction cs generalizing before with
  | nil => exact .nil
  | cons c after ih =>
    rw [splitBehind]
    split
    · exact .insert rfl (ih c)
    · exact .keep rfl (ih c)

/-- Splitting puts underscores between characters. -/
theorem recased_splitWords (cs : List Char) : Recased cs (splitWords cs) := by
  rw [splitWords_eq]
  cases cs with
  | nil => exact .nil
  | cons c cs => exact .keep rfl (recased_splitBehind beginsWord c cs)

end

/-! ## Identifiers that are left as they are -/

section

variable {cs : List Char} {s : String}

theorem sanitize_of_isFormed (h : IsFormed s.toList) : sanitize s = s.toList := by
  obtain ⟨hall, c, hc, hdigit⟩ := h
  have hchars : ((s : Text).chars.map fun c => if isAllowed c then c else '_') = s.toList := by
    rw [Text.ofString, Text.chars_ofChars]
    exact (List.map_congr_left fun c hc => if_pos (hall c hc)).trans (List.map_id _)
  obtain ⟨rest, hs⟩ := List.head?_eq_some_iff.mp hc
  rw [sanitize, hchars, hs]
  dsimp only
  rw [if_neg (by simp [hdigit])]

theorem splitWords_of_not_isUpper (h : ∀ c ∈ cs, c.isUpper = false) : splitWords cs = cs := by
  induction cs using splitWords.induct with
  | case1 => rfl
  | case2 => rfl
  | case3 before c after hbegins ih =>
    rw [beginsWord, h c (by simp)] at hbegins
    cases hbegins
  | case4 before c after hbegins ih =>
    rw [splitWords, if_neg hbegins, ih fun d hd => h d (List.mem_cons_of_mem _ hd)]

/-- A module is called as it is where that is an identifier in small letters. -/
theorem moduleName_of_not_isUpper (h : IsFormed s.toList) (hupper : ∀ c ∈ s.toList, c.isUpper = false) :
    moduleName s = s := by
  have hlower : s.toList.map Char.toLower = s.toList :=
    (List.map_congr_left fun c hc => Char.toLower_eq_of_not_isUpper (by simp [hupper c hc])).trans (List.map_id _)
  rw [moduleName, words, sanitize_of_isFormed h, splitWords_of_not_isUpper hupper, hlower, String.ofList_toList]

/-- Also an attribute is, unless that is reserved. -/
theorem propertyName_of_not_isUpper (h : IsFormed s.toList) (hupper : ∀ c ∈ s.toList, c.isUpper = false)
    (hkeyword : keywords.contains s = false) : propertyName s = s := by
  have hfree : ¬ keywords.contains s = true := Bool.eq_false_iff.mp hkeyword
  rw [propertyName, moduleName_of_not_isUpper h hupper, if_neg hfree]

theorem capitalize_capitalize (cs : List Char) : capitalize (capitalize cs) = capitalize cs := by
  cases cs with
  | nil => rfl
  | cons c rest => rw [capitalize, capitalize, Char.toUpper_toUpper_eq_toUpper]

/-- A class is called as it is where that is an identifier with no small letter in front. -/
theorem typeName_of_capitalize (h : IsFormed s.toList) (hfirst : capitalize s.toList = s.toList) :
    typeName s = s := by
  rw [typeName, sanitize_of_isFormed h, hfirst, String.ofList_toList]

end

/-! ## Identifiers of names -/

section

variable {name : Text}

theorem isUpper_moduleName (name : Text) : ∀ c ∈ (moduleName name).toList, c.isUpper = false := by
  simp [moduleName]

theorem isUpper_propertyName (name : Text) : ∀ c ∈ (propertyName name).toList, c.isUpper = false := by
  rcases propertyName_cases name with heq | ⟨-, heq⟩
  · rw [heq]
    exact isUpper_moduleName name
  · rw [heq, String.toList_append]
    exact List.forall_mem_append.mpr ⟨isUpper_moduleName name, List.forall_mem_singleton.mpr rfl⟩

/-- An attribute is never reserved: the words with a capital cannot be one, and the others are avoided. -/
theorem propertyName_not_mem_reserved (name : Text) : propertyName name ∉ reserved := by
  intro hmem
  rcases List.mem_append.mp hmem with hmem | hmem
  · rw [← List.contains_iff_mem, propertyName_not_keyword] at hmem
    cases hmem
  · have hcapital : ∀ word ∈ ["False", "None", "True"], word.toList.any Char.isUpper = true := by decide +kernel
    obtain ⟨c, hc, hupper⟩ := List.any_eq_true.mp (hcapital _ hmem)
    rw [isUpper_propertyName name c hc] at hupper
    cases hupper

theorem recased_moduleName (name : Text) : Recased (sanitize name) (moduleName name).toList := by
  rw [moduleName, String.toList_ofList]
  exact (recased_splitWords _).map Char.toLower_toLower_eq_toLower (by decide)

theorem recased_constantName (name : Text) : Recased (sanitize name) (constantName name).toList := by
  rw [constantName, String.toList_ofList]
  exact (recased_splitWords _).map Char.toLower_toUpper_eq_toLower (by decide)

/-- What stands for another code point is no letter and no digit, and neither is the underscore in front. -/
theorem letters_sanitize (name : Text) : letters (sanitize name) = letters name.chars := by
  have hchars (cs : List Char) : letters (cs.map fun c => if isAllowed c then c else '_') = letters cs := by
    induction cs with
    | nil => rfl
    | cons c cs ih =>
      rw [List.map_cons]
      split
      · exact letters_cons rfl ih
      · rename_i hc
        have hletter : ¬ c.isAlphanum = true := fun h => hc (by rw [isAllowed, h, Bool.true_or])
        rw [letters, letters, List.filter_cons_of_neg (by decide), List.filter_cons_of_neg hletter]
        exact ih
  rw [← hchars name.chars, sanitize]
  split
  · rename_i hnil
    rw [hnil]
  · rename_i c rest hcons
    rw [hcons]
    -- A digit in front gets an underscore before it, which is left out again.
    split <;> rfl

theorem letters_typeName (name : Text) : letters (typeName name).toList = letters (sanitize name) := by
  rw [typeName, String.toList_ofList]
  cases sanitize name with
  | nil => rfl
  | cons c rest => exact letters_cons (Char.toLower_toUpper_eq_toLower c) rfl

theorem letters_propertyName (name : Text) : letters (propertyName name).toList = letters (sanitize name) := by
  rw [← (recased_moduleName name).letters_eq]
  rcases propertyName_cases name with heq | ⟨-, heq⟩
  · rw [heq]
  · -- The underscore behind a reserved word is no letter.
    have hmark : letters "_".toList = [] := by decide
    rw [heq, String.toList_append, letters, List.filter_append, List.map_append, ← letters, ← letters, hmark,
      List.append_nil]

/-- **What the identifiers of a name are like.** -/
structure WellCased (name : Text) : Prop where
  /-- All of them are identifiers in form. -/
  formed : ∀ s ∈ [typeName name, propertyName name, constantName name, moduleName name], IsFormed s.toList
  /-- An attribute has no capitals. -/
  small : ∀ c ∈ (propertyName name).toList, c.isUpper = false
  /-- An attribute is not reserved. -/
  free : propertyName name ∉ reserved
  /-- An identifier of an identifier is that identifier. -/
  again : typeName (typeName name) = typeName name ∧ propertyName (propertyName name) = propertyName name ∧
    moduleName (moduleName name) = moduleName name
  /-- The words of a name are what the two substitutions make of it. -/
  split (ds : List Char) :
    (∃ once, Finder.lastCapital.Replaces (sanitize name) once ∧ Finder.hump.Replaces once ds) ↔ ds = words name
  /-- Constants and modules are called like the name in another case, with underscores between the words. -/
  recased : ∀ s ∈ [constantName name, moduleName name], Recased (sanitize name) s.toList
  /-- So are attributes, and behind a reserved word there is one more underscore. -/
  marked : ∃ stem, Recased (sanitize name) stem.toList ∧
    (propertyName name = stem ∨ stem ∈ reserved ∧ propertyName name = stem ++ "_")
  /-- No letter and no digit of the name is lost, and none changes its place. -/
  kept : ∀ s ∈ [typeName name, propertyName name, constantName name, moduleName name],
    letters s.toList = letters name.chars

/-- **Casing is sound**, for every name that is not empty. -/
theorem wellCased_of_ne_nil (h : name ≠ []) : WellCased name where
  formed := by
    simp only [List.forall_mem_cons]
    exact ⟨isFormed_typeName h, isFormed_propertyName h, isFormed_constantName h, isFormed_moduleName h,
      List.forall_mem_nil _⟩
  small := isUpper_propertyName name
  free := propertyName_not_mem_reserved name
  again := by
    refine ⟨?_, ?_, ?_⟩
    · refine typeName_of_capitalize (isFormed_typeName h) ?_
      rw [typeName, String.toList_ofList, capitalize_capitalize]
    · exact propertyName_of_not_isUpper (isFormed_propertyName h) (isUpper_propertyName name)
        (propertyName_not_keyword name)
    · exact moduleName_of_not_isUpper (isFormed_moduleName h) (isUpper_moduleName name)
  split ds := exists_replaces_iff
  recased := by
    simp only [List.forall_mem_cons]
    exact ⟨recased_constantName name, recased_moduleName name, List.forall_mem_nil _⟩
  marked := by
    refine ⟨moduleName name, recased_moduleName name, ?_⟩
    exact (propertyName_cases name).imp_right (And.imp_left (List.mem_append_left _))
  kept := by
    rw [← letters_sanitize]
    simp only [List.forall_mem_cons]
    exact ⟨letters_typeName name, letters_propertyName name, (recased_constantName name).letters_eq,
      (recased_moduleName name).letters_eq, List.forall_mem_nil _⟩

/-- An acronym behind a digit and a letter of another script, and a reserved word. -/
theorem wellCased_acronym :
    WellCased "1éHTTPCode" ∧ typeName "1éHTTPCode" = "_1_HTTPCode" ∧ propertyName "1éHTTPCode" = "_1_http_code" ∧
      constantName "1éHTTPCode" = "_1_HTTP_CODE" ∧ WellCased "Class" ∧ propertyName "Class" = "class_" :=
  ⟨wellCased_of_ne_nil (by decide), by decide, by decide, by decide, wellCased_of_ne_nil (by decide), by decide⟩

end

end SimpleBinary.Identifier

import SimpleBinary.Proofs.Class.References
import SimpleBinary.Proofs.Numeral.Spelling
import SimpleBinary.Proofs.Text.Quoted

/-!
Enumerations of characters.

The values of an enumeration can be given as characters. A single character that is no digit stands for its
code point, so different characters are different values. Blanks are dropped from a text before it is looked
at, though, so a character that is itself a blank leaves nothing, and nothing is read as an integer. An
enumeration with such a value is refused (`Enumeration.ofTokens_characters`).
-/

set_option autoImplicit false

namespace SimpleBinary

open Code Emission

/-! ## Single characters -/

/-- What the text of a single character that is no digit stands for. -/
theorem Primitive.parse_character {p : CodePoint} (hdigit : Text.isDigit p = false) :
    Primitive.char.parse [p] = if Text.isBlank p then (integerValue []).map .int else .ok (.int p.toNat) := by
  by_cases hblank : Text.isBlank p = true
  · -- The only character is dropped before it is looked at.
    have htrim : Text.trim [p] = [] := by simp [Text.trim, hblank]
    rw [parse, htrim, if_pos hblank]
    rfl
  · have htrim : Text.trim [p] = [p] := Text.trim_eq_self (by simpa using hblank) (by simpa using hblank)
    rw [parse, htrim, if_neg hblank]
    simp [isReal, characterValue?, hdigit]

theorem integerValue_nil : ∃ fault, integerValue [] = .error fault :=
  ⟨_, rfl⟩

/-- The number of a code point can be written. -/
theorem CodePoint.isWritable_toNat (p : CodePoint) : Numeral.isWritable p.toNat = true := by
  rw [Numeral.isWritable_iff, Int.natAbs_natCast]
  calc p.toNat < 0x110000 := p.toNat_lt
    _ ≤ 10 ^ 7 := by norm_num
    _ ≤ 10 ^ Numeral.digitLimit := Nat.pow_le_pow_right (by decide) (by decide)

/-- Different code points have different numbers. -/
theorem CodePoint.toNat_injective : Function.Injective CodePoint.toNat := by
  intro p q h
  have hp := p.ofNat?_toNat
  rw [h, q.ofNat?_toNat] at hp
  exact (Option.some.inj hp).symm

/-! ## Enumerations -/

namespace Enumeration

/-- Whether tokens describe an enumeration of characters: its first token opens one over single characters
and sets no null value, and the tokens that are values come with characters that are no digits. -/
structure OfCharacters (tokens : List Token) (first : Token) (values : List (Token × CodePoint)) : Prop where
  head : tokens.head? = some first
  signal : first.signal = .opens .enumeration
  primitive : first.primitive = some .char
  length : first.encodedLength = some 1
  null : first.encoding.nullValue = none
  tokens_eq : tokens.filter (·.signal == .validValue) = values.map Prod.fst
  text : ∀ v ∈ values, v.1.encoding.constValue = some [v.2]
  isDigit : ∀ v ∈ values, Text.isDigit v.2 = false

/-- The value of a token with a character. -/
def ofCharacter (v : Token × CodePoint) : Enumerator where
  token := v.1
  name := Identifier.constantName v.1.name
  value := .int v.2.toNat

variable {tokens : List Token} {first : Token} {values : List (Token × CodePoint)} {e : Enumeration}

theorem enumerator_ofCharacter {v : Token × CodePoint} (htext : v.1.encoding.constValue = some [v.2])
    (hdigit : Text.isDigit v.2 = false) (hblank : Text.isBlank v.2 = false) :
    enumerator .char v.1 = .ok (ofCharacter v) := by
  have hchecked : (Number.int v.2.toNat).checked = .ok (.int v.2.toNat) := if_pos v.2.isWritable_toNat
  rw [enumerator, htext, Option.getD_some, Primitive.parse_character hdigit, if_neg (by simp [hblank])]
  simp only [bind, Except.bind, hchecked]
  rfl

theorem isBlank_of_enumerator {v : Token × CodePoint} {x : Enumerator}
    (htext : v.1.encoding.constValue = some [v.2]) (hdigit : Text.isDigit v.2 = false)
    (h : enumerator .char v.1 = .ok x) : Text.isBlank v.2 = false := by
  have hparse := parse_of_enumerator h
  rw [htext, Option.getD_some, Primitive.parse_character hdigit] at hparse
  by_contra hblank
  obtain ⟨fault, hfault⟩ := integerValue_nil
  rw [if_pos (by simpa using hblank), hfault] at hparse
  cases hparse

/-- **Where no character is a blank, there is an enumeration**, whose values are the code points. -/
theorem OfCharacters.outcome_ofTokens (h : OfCharacters tokens first values) {typeName : Text}
    (htype : first.typeName = .text typeName) (hblank : ∀ v ∈ values, Text.isBlank v.2 = false)
    (hversions : ∀ v ∈ values, Codec.versionsWritable v.1 = true) :
    (ofTokens tokens).outcome = .ok {
      name := Identifier.typeName typeName, type := .char, wire := .uint8, token := first
      null := .int 0, values := values.map ofCharacter } := by
  -- All but the values is decided by the first token, so each step is computed on its own.
  have hopening : Codec.opening .enumeration tokens = .ok first := by
    obtain ⟨rest, rfl⟩ := List.head?_eq_some_iff.mp h.head
    exact if_pos h.signal
  have hname : Codec.definedName first = .ok (Identifier.typeName typeName) := by
    rw [Codec.definedName, htype]
  have hprimitive : first.primitive.getD .uint8 = .char := by rw [h.primitive, Option.getD_some]
  have hwire : Codec.integerType first = .ok .uint8 := by
    rw [Codec.integerType, h.primitive, h.length]
    rfl
  have hnull : nullOf .char first.encoding = .ok (.int 0) := by
    rw [nullOf, h.null]
    rfl
  have hzero : (Number.int 0).checked = .ok (.int 0) := if_pos ((Numeral.isWritable_iff 0).mpr (by positivity))
  have hone : Numeral.isWritable 1 = true := CodePoint.isWritable_toNat (.char '\x01')
  have hvalues : (tokens.filter (·.signal == .validValue)).mapM (enumerator .char) =
      .ok (values.map ofCharacter) := by
    rw [h.tokens_eq]
    exact mapM_map_eq_ok fun v hv => enumerator_ofCharacter (h.text v hv) (h.isDigit v hv) (hblank v hv)
  have hdemand : (Codec.isWritable first.encodedLength &&
      (values.map ofCharacter).all fun v => Codec.versionsWritable v.token) = true := by
    rw [h.length, Codec.isWritable, Option.all_some, hone, Bool.true_and, List.all_map, List.all_eq_true]
    exact hversions
  have hok {α β : Type} (a : α) (f : α → Except Fault β) : (Except.ok a >>= f) = f a := rfl
  have hnoted (n : Note) : (note n).outcome = .ok () := rfl
  have hresult {α : Type} (x : Except Fault α) : (Emission.ofExcept x).outcome = x := rfl
  simp only [ofTokens, outcome_bind, outcome_pure, hresult, hnoted, hopening, hok, hname, hprimitive, hwire, hnull,
    hvalues, hzero, demand, hdemand, if_true]

/-- The versions of the values of an enumeration can be written. -/
theorem versionsWritable_of_ofTokens (h : (ofTokens tokens).outcome = .ok e) :
    ∀ v ∈ e.values, Codec.versionsWritable v.token = true :=
  (isDefinedBy_of_yields (yields_self h)).versions

namespace OfCharacters

theorem exists_typeName (h : OfCharacters tokens first values) (he : (ofTokens tokens).outcome = .ok e) :
    ∃ typeName, first.typeName = .text typeName := by
  obtain ⟨token, htoken, hdefined, -⟩ := defined_of_ofTokens he
  obtain rfl : token = first := Option.some.inj (htoken.symm.trans h.head)
  obtain ⟨typeName, htext, -⟩ := Codec.eq_typeName_of_definedName hdefined
  exact ⟨typeName, htext⟩

/-- Each token with a character has its value. -/
theorem exists_enumerator (h : OfCharacters tokens first values) (he : (ofTokens tokens).outcome = .ok e)
    {v : Token × CodePoint} (hv : v ∈ values) : ∃ x ∈ e.values, enumerator .char v.1 = .ok x := by
  have hdescribes := describes_of_ofTokens he
  have htoken : e.token = first := Option.some.inj (hdescribes.first.symm.trans h.head)
  have htype : e.type = .char := by rw [hdescribes.type, htoken, h.primitive, Option.getD_some]
  have hvalues := hdescribes.values
  rw [htype, h.tokens_eq] at hvalues
  exact exists_mem_of_mapM hvalues (List.mem_map_of_mem hv)

theorem versionsWritable (h : OfCharacters tokens first values) (he : (ofTokens tokens).outcome = .ok e) :
    ∀ v ∈ values, Codec.versionsWritable v.1 = true := by
  intro v hv
  obtain ⟨x, hx, hresult⟩ := h.exists_enumerator he hv
  have hwritable := versionsWritable_of_ofTokens he x hx
  rwa [(of_enumerator hresult).1] at hwritable

theorem isBlank (h : OfCharacters tokens first values) (he : (ofTokens tokens).outcome = .ok e) :
    ∀ v ∈ values, Text.isBlank v.2 = false := by
  intro v hv
  obtain ⟨x, -, hresult⟩ := h.exists_enumerator he hv
  exact isBlank_of_enumerator (h.text v hv) (h.isDigit v hv) hresult

end OfCharacters

/-- **An enumeration of characters is accepted exactly if none of them is a blank**, where its type has a name
and its versions can be written. The constants are set to the code points of the characters, the dictionary
of their names has them under the same numbers, and different characters are different values. -/
theorem ofTokens_characters (h : OfCharacters tokens first values) :
    ((∃ e, (ofTokens tokens).outcome = .ok e) ↔
      (∃ typeName, first.typeName = .text typeName) ∧
        (∀ v ∈ values, Codec.versionsWritable v.1 = true) ∧ ∀ v ∈ values, Text.isBlank v.2 = false) ∧
    ∀ e, (ofTokens tokens).outcome = .ok e →
      e.toClass.trailer =
        (values.map fun v => .assign (.member (.name e.name) (Identifier.constantName v.1.name))
          (.apply e.name [.number (.int v.2.toNat)])) ++
        [.assign (.member (.name e.name) "NULL_VALUE") (.apply e.name [.number (.int 0)]),
          .assign (.member (.name e.name) "_NAMES")
            (.dict (values.map fun v => (.number (.int v.2.toNat), .label (Identifier.constantName v.1.name))))] ∧
      ∀ v ∈ values, ∀ w ∈ values, v.2 ≠ w.2 → Number.int v.2.toNat ≠ .int w.2.toNat := by
  have hconditions : ∀ e, (ofTokens tokens).outcome = .ok e →
      (∃ typeName, first.typeName = .text typeName) ∧
        (∀ v ∈ values, Codec.versionsWritable v.1 = true) ∧ ∀ v ∈ values, Text.isBlank v.2 = false :=
    fun e he => ⟨h.exists_typeName he, h.versionsWritable he, h.isBlank he⟩
  constructor
  · constructor
    · rintro ⟨e, he⟩
      exact hconditions e he
    · rintro ⟨⟨typeName, htype⟩, hversions, hblank⟩
      exact ⟨_, h.outcome_ofTokens htype hblank hversions⟩
  · intro e he
    obtain ⟨⟨typeName, htype⟩, hversions, hblank⟩ := hconditions e he
    -- Under the conditions the enumeration is known, so it is the one that is accepted.
    have houtcome := h.outcome_ofTokens htype hblank hversions
    rw [he] at houtcome
    obtain rfl := Except.ok.inj houtcome
    constructor
    · simp only [toClass, setMember, names, ofCharacter, List.map_map, Function.comp_def]
    · intro v hv w hw hne heq
      have hnumbers : (v.2.toNat : Int) = w.2.toNat := Number.int.inj heq
      exact hne (CodePoint.toNat_injective (Int.ofNat.inj hnumbers))

/-! ### Samples -/

/-- The token that opens an enumeration over single characters. -/
def opensLetters (name : Text) : Token where
  signal := .opens .enumeration
  name := name
  encodedLength := some 1
  encoding := { primitive := some .char }

/-- The token of a value with a name and a character. -/
def ofLetter (letter : Text × CodePoint) : Token where
  signal := .validValue
  name := letter.1
  encoding := { constValue := some [letter.2] }

/-- The tokens of an enumeration over single characters. -/
def letterTokens (name : Text) (letters : List (Text × CodePoint)) : List Token :=
  opensLetters name :: (letters.map ofLetter ++ [{ signal := .closes .enumeration, name }])

theorem ofCharacters_letterTokens (name : Text) (letters : List (Text × CodePoint))
    (hdigit : ∀ letter ∈ letters, Text.isDigit letter.2 = false) :
    OfCharacters (letterTokens name letters) (opensLetters name)
      (letters.map fun letter => (ofLetter letter, letter.2)) where
  head := rfl
  signal := rfl
  primitive := rfl
  length := rfl
  null := rfl
  tokens_eq := by
    have hkept : ∀ t ∈ letters.map ofLetter, (t.signal == .validValue) = true := by
      intro t ht
      obtain ⟨letter, -, rfl⟩ := List.mem_map.mp ht
      rfl
    rw [letterTokens, List.filter_cons_of_neg (by simp [opensLetters]), List.filter_append,
      List.filter_eq_self.mpr hkept, List.map_map]
    simp [Function.comp_def]
  text := by
    intro v hv
    obtain ⟨letter, -, rfl⟩ := List.mem_map.mp hv
    rfl
  isDigit := by
    intro v hv
    obtain ⟨letter, hletter, rfl⟩ := List.mem_map.mp hv
    exact hdigit letter hletter

/-- The sides of an order as letters, one of them beyond ASCII. -/
def sideLetters : List (Text × CodePoint) :=
  [("buy", .char 'B'), ("sell", .char 'É')]

theorem sideLetters_accepted :
    ∃ e, (ofTokens (letterTokens "side" sideLetters)).outcome = .ok e ∧
      .assign (.member (.name e.name) "SELL") (.apply e.name [.number (.int 201)]) ∈ e.toClass.trailer ∧
      .assign (.member (.name e.name) "_NAMES") (.dict [
        (.number (.int 66), .label "BUY"), (.number (.int 201), .label "SELL")]) ∈ e.toClass.trailer := by
  have hletters := ofCharacters_letterTokens "side" sideLetters (by decide +kernel)
  obtain ⟨hiff, htrailer⟩ := ofTokens_characters hletters
  obtain ⟨e, he⟩ := hiff.mpr ⟨⟨"side", rfl⟩, by decide +kernel, by decide +kernel⟩
  obtain ⟨hlines, -⟩ := htrailer e he
  have hbuy : Identifier.constantName "buy" = "BUY" := by decide +kernel
  have hsell : Identifier.constantName "sell" = "SELL" := by decide +kernel
  refine ⟨e, he, ?_, ?_⟩
  · rw [hlines]
    refine List.mem_append_left _ (List.mem_map.mpr ⟨(ofLetter ("sell", .char 'É'), .char 'É'), ?_, ?_⟩)
    · exact List.mem_map_of_mem (List.mem_cons_of_mem _ (List.mem_singleton_self _))
    · rw [ofLetter, hsell]
      rfl
  · rw [hlines]
    refine List.mem_append_right _ (List.mem_cons_of_mem _ (List.mem_singleton.mpr ?_))
    simp only [sideLetters, ofLetter, List.map_cons, List.map_nil, hbuy, hsell]
    rfl

/-- **Not every character is accepted.** The space is no digit, but an enumeration with it as a value is
refused, although its type has a name and its versions can be written. -/
theorem spaceLetter_refused :
    OfCharacters (letterTokens "gap" [("space", .char ' ')]) (opensLetters "gap")
        [(ofLetter ("space", .char ' '), .char ' ')] ∧
      (opensLetters "gap").typeName = .text "gap" ∧ Codec.versionsWritable (ofLetter ("space", .char ' ')) = true ∧
      ∀ e, (ofTokens (letterTokens "gap" [("space", .char ' ')])).outcome ≠ .ok e := by
  have hspace := ofCharacters_letterTokens "gap" [("space", .char ' ')] (by decide)
  refine ⟨hspace, rfl, by decide +kernel, fun e he => ?_⟩
  have hblank := hspace.isBlank he _ (List.mem_singleton_self _)
  exact absurd hblank (by decide)

end Enumeration

end SimpleBinary

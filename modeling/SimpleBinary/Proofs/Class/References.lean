import SimpleBinary.Proofs.Class.Members
import SimpleBinary.Proofs.Text.Parts

/-!
Constants that are named by fields.

A constant field of an enumeration names one of its values, with or without a qualifier in front. The class
of the field is made from the tokens of the field, and that of the enumeration from its own. They meet in the
name of the constant: what the field is set to is the member that the other module sets for the value, and it
is set once.
-/

set_option autoImplicit false

namespace SimpleBinary

open Code

/-! ## Names in the text of a field -/

namespace Codec

/-- Whether a name can be given as the text of a field: it is not empty, has no dot and no blanks at its
ends, and is no number. -/
structure IsReference (name : Text) : Prop where
  ne_nil : name ≠ []
  dot_notMem : .char '.' ∉ name
  head? : ∀ p ∈ name.head?, Text.isBlank p = false
  getLast? : ∀ p ∈ name.getLast?, Text.isBlank p = false
  no_digits : ∀ k digits, name = List.replicate k (.char '-') ++ digits →
    (∀ p ∈ digits, Text.isDigit p = true) → digits = []

/-- A number is made of digits after minus signs. -/
theorem isNumeral_iff {t : Text} :
    isNumeral t = true ↔ ∃ k digits, t = List.replicate k (.char '-') ++ digits ∧
      (∀ p ∈ digits, Text.isDigit p = true) ∧ digits ≠ [] := by
  simp only [isNumeral, Bool.and_eq_true, Bool.not_eq_true', List.isEmpty_eq_false_iff, List.all_eq_true]
  constructor
  · intro h
    have hsigns : t.takeWhile (· == .char '-') =
        List.replicate (t.takeWhile (· == .char '-')).length (.char '-') :=
      List.eq_replicate_iff.mpr ⟨rfl, fun p hp => by simpa using List.mem_takeWhile_imp hp⟩
    refine ⟨(t.takeWhile (· == .char '-')).length, t.dropWhile (· == .char '-'), ?_, h.2, h.1⟩
    rw [← hsigns, List.takeWhile_append_dropWhile]
  · rintro ⟨k, digits, rfl, hdigits, hne⟩
    have hdrop : (List.replicate k (CodePoint.char '-') ++ digits).dropWhile (· == .char '-') = digits := by
      rw [List.dropWhile_append_of_pos (by simp), Text.dropWhile_of_head?]
      intro p hp
      have hdigit := hdigits p (List.mem_of_mem_head? hp)
      rw [beq_eq_false_iff_ne]
      rintro rfl
      exact absurd hdigit (by decide)
    rw [hdrop]
    exact ⟨hne, hdigits⟩

namespace IsReference

variable {name : Text}

theorem isNumeral (h : IsReference name) : isNumeral name = false := by
  rw [Bool.eq_false_iff, Ne, isNumeral_iff]
  rintro ⟨k, digits, hname, hdigits, hne⟩
  exact hne (h.no_digits k digits hname hdigits)

/-- The last part of what a qualifier stands in front of is the name, blanks aside. -/
theorem exists_split_qualified (h : IsReference name) (qualifier : Text) :
    ∃ part parts, (Text.split (.char '.') (qualifier ++ .char '.' :: name).trim).reverse =
      name :: part :: parts := by
  -- Blanks can be dropped in front of the qualifier only, since the name ends without one.
  have hdot : Text.isBlank (.char '.') = false := by decide
  have hlast : ∀ p ∈ (.char '.' :: name).getLast?, Text.isBlank p = false := by
    rw [List.getLast?_cons_of_ne_nil h.ne_nil]
    exact h.getLast?
  obtain ⟨kept, hkept⟩ := Text.exists_trim_append qualifier (by simpa using hdot) hlast (List.cons_ne_nil _ _)
  have hne : (Text.split (.char '.') kept).reverse ≠ [] := by
    obtain ⟨part, parts, hparts⟩ := Text.exists_split_eq_cons (.char '.') kept
    rw [hparts]
    exact List.reverse_ne_nil_iff.mpr (List.cons_ne_nil part parts)
  obtain ⟨part, parts, hparts⟩ := List.exists_cons_of_ne_nil hne
  refine ⟨part, parts, ?_⟩
  rw [hkept, Text.split_append, Text.split_of_notMem h.dot_notMem, List.reverse_append, hparts]
  rfl

/-- **A field that names a value is set to the constant of that name.** -/
theorem enumerationConstant (h : IsReference name) (type : String) {field : Token}
    (hvalue : field.encoding.constValue = some name ∨
      ∃ qualifier, field.encoding.constValue = some (qualifier ++ .char '.' :: name)) :
    enumerationConstant type field = .ok (.member (.name type) (Identifier.constantName name)) := by
  rw [Codec.enumerationConstant]
  rcases hvalue with hvalue | ⟨qualifier, hvalue⟩
  · -- Without a dot there is one part, which is neither empty nor a number.
    have htrim := Text.trim_eq_self h.head? h.getLast?
    simp only [hvalue, Option.getD_some, htrim, Text.split_of_notMem h.dot_notMem, List.reverse_singleton,
      h.isNumeral, List.isEmpty_iff, h.ne_nil, if_false]
    rfl
  · obtain ⟨part, parts, hparts⟩ := h.exists_split_qualified qualifier
    simp only [hvalue, Option.getD_some, hparts]
    rfl

end IsReference

/-- The bodies of a field whose class is that of another module. -/
theorem outcome_typedBodies (construct : Construct) (typeName : Text) (field : Token) :
    (typedBodies construct (.text typeName) field none).outcome =
      if fieldWritable field then
        (valueOfTypeBodies construct (Identifier.typeName typeName) (Identifier.propertyName field.name) field).map
          fun b => { b with accessors := fieldAccessors (Identifier.propertyName field.name) field }
      else .error .longInteger := by
  rw [typedBodies, typeOf]
  simp only [Emission.outcome_bind, Emission.outcome_pure, Emission.demand, Emission.ofExcept]
  have hmap (bodies : Except Fault Bodies) (f : Bodies → Bodies) :
      (bodies >>= fun b => .ok (f b)) = bodies.map f := by
    cases bodies <;> rfl
  by_cases hwritable : fieldWritable field = true
  · rw [hwritable]
    exact hmap _ fun b => { b with accessors := fieldAccessors (Identifier.propertyName field.name) field }
  · rw [if_neg hwritable, if_neg hwritable]
    rfl

end Codec

/-! ## Constants of an enumeration -/

namespace Enumeration

variable {tokens : List Token} {e : Enumeration}

/-- The values of an enumeration are those of the tokens that are values. -/
theorem Describes.tokens_eq (h : Describes tokens e) :
    tokens.filter (·.signal == .validValue) = e.values.map Enumerator.token :=
  mapM_ok (fun _ _ hv => (of_enumerator hv).1.symm) h.values

theorem Describes.names_eq (h : Describes tokens e) :
    ((tokens.filter (·.signal == .validValue)).map fun t => Identifier.constantName t.name) =
      e.values.map Enumerator.name := by
  rw [h.tokens_eq, List.map_map]
  exact List.map_congr_left fun v hv => (h.name_eq v hv).symm

/-- The constant for the value of a token. -/
def constantOf (e : Enumeration) (t : Token) : Expr :=
  .member (.name e.name) (Identifier.constantName t.name)

/-- What the module of an enumeration sets to values of its class: the constants and the null value. -/
theorem assign_mem_trailer_iff (e : Enumeration) (name : String) (value : Number) :
    .assign (.member (.name e.name) name) (.apply e.name [.number value]) ∈ e.toClass.trailer ↔
      (∃ v ∈ e.values, v.name = name ∧ v.value = value) ∨ name = "NULL_VALUE" ∧ value = e.null := by
  simp [toClass, setMember, Expr.apply, names]

/-- **A field that names a value of an enumeration is set to its constant**, if the names of the constants
are apart. The module of the enumeration sets this constant to what the text of the value stands for, and to
nothing else. -/
theorem reference_refers (he : (ofTokens tokens).outcome = .ok e) {first : Token}
    (hfirst : tokens.head? = some first)
    (hnodup : ((tokens.filter (·.signal == .validValue)).map fun t => Identifier.constantName t.name).Nodup)
    (hnull : ∀ t ∈ tokens, t.signal = .validValue → Identifier.constantName t.name ≠ "NULL_VALUE")
    {t : Token} (ht : t ∈ tokens) (hsignal : t.signal = .validValue) (hname : Codec.IsReference t.name)
    {field : Token} (hconstant : field.isConstant = true)
    (hvalue : field.encoding.constValue = some t.name ∨
      ∃ qualifier, field.encoding.constValue = some (qualifier ++ .char '.' :: t.name)) :
    ∃ v, (first.primitive.getD .uint8).parse (t.encoding.constValue.getD "None") = .ok v ∧
      (∀ value, .assign (e.constantOf t) (.apply e.name [.number value]) ∈ e.toClass.trailer ↔ value = v) ∧
      (Codec.typedBodies .enumeration first.typeName field none).outcome =
        if Codec.fieldWritable field then .ok {
          decode := [.assign (.own (Identifier.propertyName field.name)) (e.constantOf t)]
          init := [.assign (.own (Identifier.propertyName field.name)) (e.constantOf t)]
          accessors := Codec.fieldAccessors (Identifier.propertyName field.name) field }
        else .error .longInteger := by
  have hdescribes := describes_of_ofTokens he
  obtain ⟨token, htoken, hdefined, -⟩ := defined_of_ofTokens he
  obtain rfl : token = first := Option.some.inj (htoken.symm.trans hfirst)
  obtain rfl : token = e.token := Option.some.inj (hfirst.symm.trans hdescribes.first)
  obtain ⟨v, hv, hresult⟩ := exists_mem_of_mapM hdescribes.values
    (List.mem_filter.mpr ⟨ht, beq_iff_eq.mpr hsignal⟩)
  have hvname := (of_enumerator hresult).2
  -- The value of the token is the one that its constant is set to, and the field has that constant.
  refine ⟨v.value, ?_, ?_, ?_⟩
  · rw [← hdescribes.type]
    exact parse_of_enumerator hresult
  · intro value
    rw [constantOf, assign_mem_trailer_iff]
    constructor
    · rintro (⟨w, hw, hwname, rfl⟩ | ⟨hname, -⟩)
      · -- Names are apart, so another value of this name is the value itself.
        rw [hdescribes.names_eq] at hnodup
        rw [List.inj_on_of_nodup_map hnodup hw hv (hwname.trans hvname.symm)]
      · exact absurd hname (hnull t ht hsignal)
    · rintro rfl
      exact .inl ⟨v, hv, hvname, rfl⟩
  · obtain ⟨typeName, htext, hclass⟩ := Codec.eq_typeName_of_definedName hdefined
    rw [htext, Codec.outcome_typedBodies, constantOf, hclass, Codec.valueOfTypeBodies, if_pos hconstant,
      Codec.enumerationConstantBodies, hname.enumerationConstant _ hvalue]
    rfl

/-- A field that is always the buying side. -/
def makerSide : Token where
  signal := .opens .field
  name := "makerSide"
  encoding := { presence := some .constant, constValue := some "Side.buy" }

theorem makerSide_refers :
    ∃ e v, (ofTokens sideTokens).outcome = .ok e ∧ Primitive.uint8.parse "1" = .ok v ∧
      .assign (.member (.name e.name) "BUY") (.apply e.name [.number v]) ∈ e.toClass.trailer ∧
      ((Codec.typedBodies .enumeration (.text "side") makerSide none).outcome.map Bodies.init) =
        .ok [.assign (.own "maker_side") (.member (.name e.name) "BUY")] := by
  obtain ⟨e, he, -⟩ := exists_sides
  have hname : Codec.IsReference "buy" := by
    refine ⟨by decide, by decide, by decide, by decide, fun k digits hbuy hdigits => ?_⟩
    by_contra hne
    have hnumeral := Codec.isNumeral_iff.mpr ⟨k, digits, hbuy, hdigits, hne⟩
    exact absurd hnumeral (by decide)
  have hconstants : ∀ t ∈ sideTokens, t.signal = .validValue →
      Identifier.constantName t.name ≠ "NULL_VALUE" := by
    decide +kernel
  have hconstant : makerSide.isConstant = true := rfl
  obtain ⟨v, hparse, hset, hbodies⟩ := reference_refers (t := sideTokens[1]) he rfl (by decide +kernel)
    hconstants (List.getElem_mem _) rfl hname hconstant (.inr ⟨"Side", rfl⟩)
  have hbuy : e.constantOf sideTokens[1] = .member (.name e.name) "BUY" := by
    have hconstant : Identifier.constantName sideTokens[1].name = "BUY" := by decide +kernel
    rw [constantOf, hconstant]
  have hproperty : Identifier.propertyName makerSide.name = "maker_side" := by decide +kernel
  rw [hbuy] at hset hbodies
  rw [hproperty] at hbodies
  refine ⟨e, v, he, hparse, (hset v).mpr rfl, ?_⟩
  have hwritable : Codec.fieldWritable makerSide = true := by decide +kernel
  rw [if_pos hwritable] at hbodies
  exact congrArg (Except.map Bodies.init) hbodies

end Enumeration

end SimpleBinary

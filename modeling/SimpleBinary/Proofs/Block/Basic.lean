import SimpleBinary.Proofs.Walk.Turn

/-!
The fixed block of a plan.

A plan has its fixed block in front: gaps and fields in the order of the wire, then what closes the
block, then groups and variable data. `Block` says how such a front part grows, one field at a time,
with the offset that it reaches and the ends of the versions that are known by then; what holds of a
block is an induction on that. `ofTokens_parts` is the one place where the walk comes in: a plan whose
fields all come before what closes the block is a block, its closing steps, and steps without bytes
of the block.
-/

set_option autoImplicit false

namespace SimpleBinary

/-! ## Bytes of steps -/

namespace Step

/-- The tokens of a field of the fixed block: its own and that of its type. -/
def fieldTokens? : Step → Option (Token × Token)
  | .primitive field encoding => some (field, encoding)
  | .typed _ _ field type _ => some (field, type)
  | _ => none

/-- The tokens of a field that is on the wire, which constants are not. -/
def wire? (s : Step) : Option (Token × Token) :=
  s.fieldTokens?.filter fun tokens => !Walk.isConstant tokens.1 tokens.2

/-- The number of bytes that a step has in the fixed block: the size of a gap, and the encoded length
of a field that is on the wire. -/
def width : Step → Int
  | .gap size _ _ => size
  | s =>
    match s.wire? with
    | some (_, type) => type.encodedLength.getD 0
    | none => 0

/-- Whether a step has no part in the fixed block. -/
def isBeyond : Step → Bool
  | .group .. | .varData .. | .encodeValidation | .decodeValidation => true
  | _ => false

theorem wire?_of_constant {s : Step} {field type : Token}
    (h : s.fieldTokens? = some (field, type)) (hc : Walk.isConstant field type = true) :
    s.wire? = none := by
  simp [wire?, h, hc]

theorem wire?_of_not_constant {s : Step} {field type : Token}
    (h : s.fieldTokens? = some (field, type)) (hc : Walk.isConstant field type = false) :
    s.wire? = some (field, type) := by
  simp [wire?, h, hc]

theorem fieldTokens?_of_isPlain {s : Step} (h : s.isPlain = true) : s.fieldTokens? = none := by
  cases s <;> simp_all [isPlain, fieldTokens?]

@[simp] theorem wire?_gap (size : Int) (since : Option Int) (trailing : Bool) :
    (Step.gap size since trailing).wire? = none := rfl

@[simp] theorem wire?_extensionSkip (known : List (Int × Int)) :
    (Step.extensionSkip known).wire? = none := rfl

@[simp] theorem width_gap (size : Int) (since : Option Int) (trailing : Bool) :
    (Step.gap size since trailing).width = size := rfl

@[simp] theorem width_extensionSkip (known : List (Int × Int)) :
    (Step.extensionSkip known).width = 0 := rfl

theorem width_of_wire? {s : Step} {field type : Token} {length : Int}
    (h : s.wire? = some (field, type)) (hlength : type.encodedLength = some length) :
    s.width = length := by
  cases s <;> simp_all [width]

theorem wire?_of_isBeyond {s : Step} (h : s.isBeyond = true) : s.wire? = none := by
  cases s <;> simp_all [isBeyond, wire?, fieldTokens?]

theorem width_of_isBeyond {s : Step} (h : s.isBeyond = true) : s.width = 0 := by
  cases s <;> simp_all [isBeyond, width, wire?, fieldTokens?]

theorem width_of_constant {s : Step} {field type : Token}
    (h : s.fieldTokens? = some (field, type)) (hc : Walk.isConstant field type = true) :
    s.width = 0 := by
  have := wire?_of_constant h hc
  cases s <;> simp_all [width, fieldTokens?]

end Step

/-- The number of bytes that steps have in the fixed block: the position at which the step after them
is written. -/
def written : List Step → Int
  | [] => 0
  | s :: rest => s.width + written rest

/-- The position behind the last field that is on the wire, which is the start where there is none. -/
def reached (steps : List Step) : Int :=
  written (steps.rdropWhile fun s => s.wire?.isNone)

@[simp] theorem written_nil : written [] = 0 := rfl

@[simp] theorem written_cons (s : Step) (rest : List Step) :
    written (s :: rest) = s.width + written rest := rfl

@[simp] theorem written_append (a b : List Step) : written (a ++ b) = written a + written b := by
  induction a with
  | nil => simp
  | cons s rest ih => rw [List.cons_append, written_cons, written_cons, ih, Int.add_assoc]

theorem written_nonneg {steps : List Step} (h : ∀ s ∈ steps, 0 ≤ s.width) : 0 ≤ written steps := by
  induction steps with
  | nil => exact Int.le_refl 0
  | cons s rest ih =>
    have hs := h s (List.mem_cons_self ..)
    have hrest := ih fun t ht => h t (List.mem_cons_of_mem _ ht)
    rw [written_cons]
    omega

theorem written_eq_zero {steps : List Step} (h : ∀ s ∈ steps, s.width = 0) : written steps = 0 := by
  induction steps with
  | nil => rfl
  | cons s rest ih =>
    rw [written_cons, h s (List.mem_cons_self ..), ih fun t ht => h t (List.mem_cons_of_mem _ ht)]
    rfl

@[simp] theorem reached_nil : reached [] = 0 := rfl

theorem reached_concat_of_none {s : Step} (steps : List Step) (h : s.wire? = none) :
    reached (steps ++ [s]) = reached steps := by
  rw [reached, List.rdropWhile_concat_pos _ _ _ (by simp [h]), reached]

theorem reached_concat_of_some {s : Step} {tokens : Token × Token} (steps : List Step)
    (h : s.wire? = some tokens) : reached (steps ++ [s]) = written (steps ++ [s]) := by
  rw [reached, List.rdropWhile_concat_neg _ _ _ (by simp [h])]

/-- Steps without a field on the wire leave the last one where it is. -/
theorem reached_append_of_none {more : List Step} (steps : List Step)
    (h : ∀ s ∈ more, s.wire? = none) : reached (steps ++ more) = reached steps := by
  induction more using List.reverseRecOn with
  | nil => rw [List.append_nil]
  | append_singleton more s ih =>
    rw [← List.append_assoc, reached_concat_of_none _ (h s (by simp))]
    exact ih fun t ht => h t (List.mem_append_left _ ht)

/-! ## Blocks -/

/-- The steps of an open block, with the offset that it reaches and the ends of the versions in it. A
field that is on the wire stands where the fields before it end or, behind a gap, at the offset that
it declares. -/
inductive Block : List Step → Int → FieldEnds → Prop
  | empty : Block [] 0 [(some 0, 0)]
  | validation {steps : List Step} {offset : Int} {ends : FieldEnds} :
      Block steps offset ends → Block (steps ++ [.encodeValidation]) offset ends
  | constant {steps : List Step} {offset : Int} {ends : FieldEnds} {step : Step}
      {field type : Token} : Block steps offset ends → step.fieldTokens? = some (field, type) →
      Walk.isConstant field type = true → Block (steps ++ [step]) offset ends
  | field {steps : List Step} {offset length : Int} {ends : FieldEnds} {step : Step}
      {field type : Token} : Block steps offset ends → step.wire? = some (field, type) →
      type.encodedLength = some length → 0 ≤ length →
      (∀ declared, Walk.declaredOffset field type = some declared → declared = offset) →
      Block (steps ++ [step]) (offset + length) (ends.record field.version (offset + length))
  | padded {steps : List Step} {offset size length : Int} {ends : FieldEnds} {step : Step}
      {field type : Token} : Block steps offset ends → step.wire? = some (field, type) →
      type.encodedLength = some length → 0 ≤ length → 0 < size →
      Walk.declaredOffset field type = some (offset + size) →
      Block (steps ++ [.gap size field.version false] ++ [step]) (offset + size + length)
        (ends.record field.version (offset + size + length))

namespace Block

variable {steps : List Step} {offset : Int} {ends : FieldEnds}

/-- The offset of a block is the number of its bytes. -/
theorem written_eq (h : Block steps offset ends) : written steps = offset := by
  induction h with
  | empty => rfl
  | validation _ ih => simpa [Step.width, Step.wire?, Step.fieldTokens?] using ih
  | constant _ htokens hc ih => simpa [Step.width_of_constant htokens hc] using ih
  | field _ hwire hlength _ _ ih => simp [Step.width_of_wire? hwire hlength, ih]
  | padded _ hwire hlength _ _ _ ih => simp [Step.width_of_wire? hwire hlength, ih, add_assoc]

/-- The offset of a block is the end of its last field. -/
theorem reached_eq (h : Block steps offset ends) : reached steps = offset := by
  induction h with
  | empty => rfl
  | validation _ ih => rwa [reached_concat_of_none _ rfl]
  | constant _ htokens hc ih => rwa [reached_concat_of_none _ (Step.wire?_of_constant htokens hc)]
  | field hblock hwire hlength hnonneg hdeclared ih =>
    rw [reached_concat_of_some _ hwire]
    exact (Block.field hblock hwire hlength hnonneg hdeclared).written_eq
  | padded hblock hwire hlength hnonneg hsize hdeclared ih =>
    rw [reached_concat_of_some _ hwire]
    exact (Block.padded hblock hwire hlength hnonneg hsize hdeclared).written_eq

/-- No step of a block takes bytes back. -/
theorem width_nonneg (h : Block steps offset ends) : ∀ s ∈ steps, 0 ≤ s.width := by
  induction h with
  | empty => simp
  | validation _ ih => simpa [Step.width, Step.wire?, Step.fieldTokens?, or_imp, forall_and] using ih
  | constant _ htokens hc ih =>
    simpa [Step.width_of_constant htokens hc, or_imp, forall_and] using ih
  | field _ hwire hlength hnonneg _ ih =>
    simpa [Step.width_of_wire? hwire hlength, or_imp, forall_and, hnonneg] using ih
  | padded _ hwire hlength hnonneg hsize _ ih =>
    simpa [Step.width_of_wire? hwire hlength, or_imp, forall_and, hnonneg,
      Int.le_of_lt hsize] using ih

end Block

end SimpleBinary

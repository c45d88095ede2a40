import SimpleBinary.Proofs.Class.Kept
import SimpleBinary.Proofs.Class.LockStep
import SimpleBinary.Proofs.Class.Wire

/-!
How many bytes a composite takes when it is read.

The walk counts a composite as one length, whatever the version; but the composite reads its members one by
one, each from its own version on, and member composites do the same at any depth. What is read of a
composite in a version is counted here over its plan (`Plan.readAt`). Nothing is read beyond the bytes that
are written, and as many are read as are written exactly if all that has bytes is there, at every depth
(`Plan.readAt_eq_iff`).
-/

set_option autoImplicit false

namespace SimpleBinary

/-! ## Bytes that are read -/

/-- Whether a gap or a field is there in a version: it came with the version or an earlier one. -/
def Step.isThere (version : Int) : Step → Bool
  | .gap _ since _ => (since.filter (· != 0)).all (· ≤ version)
  | s => s.fieldTokens?.all fun tokens => tokens.1.version.any (· ≤ version)

mutual

/-- The number of bytes that are read for a step of the fixed block where it is there: the size of a gap,
and what the value of a field takes. A constant is not read unless it is an object. -/
def Step.valueAt (version : Int) : Step → Int
  | .gap size _ _ => size
  | .primitive field encoding =>
    if Walk.isConstant field encoding then 0
    else (encoding.primitive.map fun type => type.size * encoding.arrayLength.getD 0).getD 0
  | .typed _ _ _ _ (some nested) => nested.readAt version
  | .typed .enumeration _ field type none =>
    if field.isConstant then 0 else type.encodedLength.getD 0
  | .typed _ _ _ type none => type.encodedLength.getD 0
  | _ => 0

/-- The number of bytes that are read for the gaps and fields of a plan in a version. -/
def Plan.readAt (version : Int) : Plan → Int
  | ⟨_, _, _, _, _, steps, _⟩ => readSteps version steps

/-- The number of bytes that are read for steps in a version. -/
def readSteps (version : Int) : List Step → Int
  | [] => 0
  | s :: rest => (if s.isThere version then s.valueAt version else 0) + readSteps version rest

end

/-- The number of bytes that are read for a step in a version. -/
def Step.readAt (version : Int) (s : Step) : Int :=
  if s.isThere version then s.valueAt version else 0

/-! ## Consistent composites -/

/-- Whether a step of a composite is padding or a member, with the length of its type. The members are values
of a primitive type, enumerations, sets, and composites with plans of their own; only the first two may be
constants. -/
def Step.IsConsistent : Step → Prop
  | .primitive field encoding => Walk.isConstant field encoding = false →
    field.version.isSome ∧ ∃ type ∈ encoding.primitive, ∃ count ∈ encoding.arrayLength,
      1 ≤ count ∧ encoding.encodedLength = some (type.size * count)
  | .typed construct _ field type nested =>
    (construct = .composite → nested.isSome) ∧
      if Walk.isConstant field type then construct = .enumeration
      else field.version.isSome ∧ 0 ≤ type.encodedLength.getD 0
  | .gap .. => True
  | _ => False

/-- Whether the block of a composite keeps to its declared length, with members of the length of their
types. No two of them share an attribute, and none has the name of the test whether another one is there. -/
structure Plan.IsConsistent (p : Plan) : Prop where
  kept : ∀ length ∈ p.blockLength, p.IsKept length
  members : ∀ s ∈ p.steps, s.IsConsistent
  distinct : (Step.attributes p.steps).Nodup
  free : ∀ a ∈ Step.attributes p.steps, a ++ "_in_acting_version" ∉ Step.attributes p.steps

instance Step.decidableIsConsistent : ∀ s : Step, Decidable s.IsConsistent
  | .primitive .. => inferInstanceAs (Decidable (_ → _ ∧ _))
  | .typed .. => inferInstanceAs (Decidable (_ ∧ _))
  | .gap .. => inferInstanceAs (Decidable True)
  | .extensionSkip _ | .group .. | .varData .. | .encodeValidation | .decodeValidation =>
    inferInstanceAs (Decidable False)

instance Plan.decidableIsConsistent (p : Plan) : Decidable p.IsConsistent :=
  decidable_of_iff ((∀ length ∈ p.blockLength, p.IsKept length) ∧ (∀ s ∈ p.steps, s.IsConsistent) ∧
    (Step.attributes p.steps).Nodup ∧
    ∀ a ∈ Step.attributes p.steps, a ++ "_in_acting_version" ∉ Step.attributes p.steps)
    ⟨fun ⟨kept, members, distinct, free⟩ => ⟨kept, members, distinct, free⟩,
      fun ⟨kept, members, distinct, free⟩ => ⟨kept, members, distinct, free⟩⟩

/-- Whether all that has bytes in a plan is there in a version, at every depth. -/
def Plan.IsThere (version : Int) (p : Plan) : Prop :=
  ∀ q ∈ p.plans, ∀ s ∈ q.steps, s.width ≠ 0 → s.isThere version = true

namespace Plan

theorem readAt_eq (version : Int) (p : Plan) : p.readAt version = readSteps version p.steps := by
  obtain ⟨_, _, _, _, _, _, _⟩ := p
  rw [readAt]

/-- No gap of a plan is empty. -/
theorem Walked.gap_pos {p : Plan} (h : p.Walked) {size : Int} {since : Option Int} {trailing : Bool}
    (hs : .gap size since trailing ∈ p.steps) : 0 < size := by
  obtain ⟨blank, ts, hblank, hwalk⟩ := h
  obtain ⟨u, v, hrun, hcloses, rfl⟩ := Walk.fresh_ok hwalk
  have hplain (s : Step) (h : s.isPlain = true) :
      ∀ size since trailing, s = .gap size since trailing → 0 < size := by
    rintro size since trailing rfl
    exact of_decide_eq_true h
  refine hcloses.forall_steps hplain ?_ _ hs _ _ _ rfl
  refine Walk.tokens_induction (P := fun _ w => ∀ s ∈ w.plan.steps, ∀ size since trailing,
    s = .gap size since trailing → 0 < size) (fun hw hturn => ?_) (by simp [hblank]) hrun
  refine hturn.forall_steps hplain (fun _ hrecords _ => ?_) (fun _ _ _ _ => nofun) hw
  rintro size since trailing rfl
  cases hrecords.fieldTokens?_eq

/-- Every field of a plan was recorded by a walk. -/
theorem Walked.exists_records {p : Plan} (h : p.Walked) {s : Step} {field type : Token} (hs : s ∈ p.steps)
    (htokens : s.fieldTokens? = some (field, type)) : ∃ w : Walker, w.Records field type s := by
  obtain ⟨blank, ts, hblank, hwalk⟩ := h
  obtain ⟨w, -, -, -, -, -, -, hrecords, -⟩ := ofTokens_placed hblank hwalk hs htokens
  exact ⟨w, hrecords⟩

/-- The length of a member composite is the one that it declares. -/
theorem Walked.announced {p : Plan} (h : p.Walked) :
    ∀ s ∈ p.steps, ∀ q ∈ s.inner?, q.blockLength = s.announced? := by
  obtain ⟨blank, ts, hblank, hwalk⟩ := h
  exact fun s hs q hq => (ofTokens_holds hblank hwalk s hs q hq).announced

end Plan

/-! ## What is read and what is written -/

/-- Whether some bytes are read of those that are written, and all of them exactly under a condition. -/
structure ReadsUpTo (bytes width : Int) (all : Prop) : Prop where
  nonneg : 0 ≤ bytes
  le : bytes ≤ width
  eq_iff : bytes = width ↔ all

theorem ReadsUpTo.add {bytes width bytes' width' : Int} {all all' : Prop} (h : ReadsUpTo bytes width all)
    (h' : ReadsUpTo bytes' width' all') : ReadsUpTo (bytes + bytes') (width + width') (all ∧ all') := by
  have hle := h.le
  have hle' := h'.le
  refine ⟨Int.add_nonneg h.nonneg h'.nonneg, Int.add_le_add hle hle', ?_⟩
  rw [← h.eq_iff, ← h'.eq_iff]
  omega

/-- What is there is read up to what its value reads, and nothing is read of what is not there. -/
theorem ReadsUpTo.guard {bytes width : Int} {all : Prop} {there : Bool} (h : ReadsUpTo bytes width all) :
    ReadsUpTo (if there then bytes else 0) width ((width ≠ 0 → there = true) ∧ all) := by
  have hnonneg := h.nonneg
  have hle := h.le
  have heq := h.eq_iff
  cases there with
  | true => exact ⟨hnonneg, hle, by simp [heq]⟩
  | false =>
    refine ⟨Int.le_refl 0, by simp; omega, ?_⟩
    by_cases hwidth : width = 0
    · have hall : all := heq.mp (by omega)
      simp [hwidth, hall]
    · simp [hwidth, Ne.symm hwidth]

namespace Step

variable {version : Int} {s : Step} {p : Plan}

/-- The value of a member without a plan of its own reads as many bytes as it has. -/
theorem readsUpTo_value (version : Int) (hwalked : p.Walked) (hs : s ∈ p.steps) (hconsistent : s.IsConsistent)
    (hinner : s.inner? = none) : ReadsUpTo (s.valueAt version) s.width True := by
  suffices heq : s.valueAt version = s.width ∧ 0 ≤ s.width from
    ⟨heq.1 ▸ heq.2, Int.le_of_eq heq.1, by simp [heq.1]⟩
  cases s with
  -- A constant reads nothing and has no bytes in the block; any other value reads what it has there.
  | gap size since trailing => exact ⟨rfl, Int.le_of_lt (hwalked.gap_pos hs)⟩
  | primitive field encoding =>
    cases hc : Walk.isConstant field encoding with
    | true =>
      have hwidth := width_of_constant (s := .primitive field encoding) rfl hc
      simp [valueAt, hc, hwidth]
    | false =>
      obtain ⟨-, type, htype, count, hcount, hpos, hlength⟩ := hconsistent hc
      have hwidth := width_of_wire? (wire?_of_not_constant (s := .primitive field encoding) rfl hc) hlength
      have hsize : 0 ≤ (type.size : Int) * count := Int.mul_nonneg (by omega) (by omega)
      simp [valueAt, hc, Option.mem_def.mp htype, Option.mem_def.mp hcount, hwidth, hsize]
  | typed construct typeName field type nested =>
    obtain rfl : nested = none := hinner
    obtain ⟨w, hrecords⟩ := hwalked.exists_records hs rfl
    have hsame := isConstant_of_typed hrecords
    obtain ⟨-, hconstant⟩ := hconsistent
    cases hc : Walk.isConstant field type with
    | true =>
      rw [hc, if_pos rfl] at hconstant
      have hwidth := width_of_constant (s := .typed construct typeName field type none) rfl hc
      subst hconstant
      simp [valueAt, ← hsame, hc, hwidth]
    | false =>
      rw [hc, if_neg (by simp)] at hconstant
      have hwidth : (Step.typed construct typeName field type none).width = type.encodedLength.getD 0 := by
        simp [width, wire?_of_not_constant (s := .typed construct typeName field type none) rfl hc]
      refine ⟨?_, hwidth ▸ hconstant.2⟩
      rw [hwidth]
      cases construct <;> simp [valueAt, ← hsame, hc]
  | _ => exact hconsistent.elim

/-- A member composite has as many bytes in the block as its own block has. -/
theorem width_eq_written (hwalked : p.Walked) (hs : s ∈ p.steps) (hconsistent : s.IsConsistent) {q : Plan}
    (hinner : s.inner? = some q) (hq : q.IsConsistent) : written q.steps = s.width := by
  have hlength := hwalked.announced s hs q hinner
  have hrecorded := hwalked.recorded s hs
  cases s with
  | typed construct typeName field type nested =>
    obtain rfl : nested = some q := hinner
    obtain rfl : construct = .composite := hrecorded.1
    obtain ⟨-, hconstant⟩ := hconsistent
    have hc : Walk.isConstant field type = false := by
      refine Bool.eq_false_iff.mpr fun hc => ?_
      rw [if_pos hc] at hconstant
      cases hconstant
    obtain ⟨blank, ts, hblank, hwalk⟩ := hwalked
    obtain ⟨length, hencoded, -⟩ := Plan.ofTokens_passesOver hblank hwalk hs rfl hc
    have hwidth := width_of_wire? (wire?_of_not_constant (s := .typed .composite typeName field type (some q))
      rfl hc) hencoded
    rw [hwidth]
    exact (hq.kept length (hlength.trans hencoded)).total
  | group => exact hconsistent.elim
  | _ => cases hinner

/-- The value of a member composite is read as its own plan is. -/
theorem valueAt_of_inner (hconsistent : s.IsConsistent) {q : Plan} (hinner : s.inner? = some q) :
    s.valueAt version = q.readAt version := by
  cases s with
  | typed construct typeName field type nested =>
    obtain rfl : nested = some q := hinner
    cases construct <;> rfl
  | group => exact hconsistent.elim
  | _ => cases hinner

end Step

namespace Plan

variable {version : Int}

/-- All is there in a plan if it is in each step and in the plans that the steps hold. -/
theorem isThere_iff {p : Plan} : p.IsThere version ↔ ∀ s ∈ p.steps,
    (s.width ≠ 0 → s.isThere version = true) ∧ ∀ q ∈ s.inner?, q.IsThere version := by
  unfold IsThere
  rw [plans_eq, List.forall_mem_cons]
  constructor
  · rintro ⟨hown, hinner⟩ s hs
    exact ⟨hown s hs, fun q hq r hr => hinner r (mem_innerPlans.mpr ⟨s, hs, q, hq, hr⟩)⟩
  · intro h
    refine ⟨fun s hs => (h s hs).1, fun r hr => ?_⟩
    obtain ⟨s, hs, q, hq, hr⟩ := mem_innerPlans.mp hr
    exact (h s hs).2 q hq r hr

/-- Steps are read up to what is written if each of them is. -/
theorem readsUpTo_steps {all : Step → Prop} {steps : List Step}
    (h : ∀ s ∈ steps, ReadsUpTo (s.readAt version) s.width (all s)) :
    ReadsUpTo (readSteps version steps) (written steps) (∀ s ∈ steps, all s) := by
  induction steps with
  | nil => exact ⟨Int.le_refl 0, Int.le_refl 0, by simp [readSteps]⟩
  | cons s rest ih =>
    obtain ⟨hs, hrest⟩ := List.forall_mem_cons.mp h
    rw [readSteps, written_cons, List.forall_mem_cons]
    exact hs.add (ih hrest)

/-- **What is read of a plan** is read up to what is written, and it is the same exactly if all that has
bytes is there at every depth. -/
theorem readsUpTo (version : Int) {p : Plan} (h : ∀ q ∈ p.plans, q.Walked ∧ q.IsConsistent) :
    ReadsUpTo (p.readAt version) (written p.steps) (p.IsThere version) := by
  -- What the steps of the plan hold is read up to what is written by induction.
  induction p using inner_induction with
  | h p ih =>
    obtain ⟨hwalked, hconsistent⟩ := h p (self_mem_plans p)
    rw [readAt_eq, isThere_iff]
    refine readsUpTo_steps fun s hs => ?_
    have hs' := hconsistent.members s hs
    have hvalue : ReadsUpTo (s.valueAt version) s.width (∀ q ∈ s.inner?, q.IsThere version) := by
      cases hinner : s.inner? with
      | none =>
        have hvalue := Step.readsUpTo_value version hwalked hs hs' hinner
        exact ⟨hvalue.nonneg, hvalue.le, hvalue.eq_iff.trans (by simp)⟩
      | some q =>
        have hq : ∀ r ∈ q.plans, r ∈ p.plans := by
          intro r hr
          rw [plans_eq]
          exact List.mem_cons_of_mem _ (mem_innerPlans.mpr ⟨s, hs, q, hinner, hr⟩)
        have hplans : ∀ r ∈ q.plans, r.Walked ∧ r.IsConsistent := fun r hr => h r (hq r hr)
        have hread := ih s hs q hinner hplans
        rw [Step.width_eq_written hwalked hs hs' hinner (hplans q (self_mem_plans q)).2] at hread
        have hsame : s.valueAt version = q.readAt version := Step.valueAt_of_inner hs' hinner
        rw [hsame]
        exact ⟨hread.nonneg, hread.le, hread.eq_iff.trans (by simp)⟩
    exact hvalue.guard

/-- **A composite is read as it is declared** in a version exactly if all that has bytes in it is there in
the version, at every depth. -/
theorem readAt_eq_iff {p : Plan} {length : Int} (hwalked : p.Walked)
    (hconsistent : ∀ q ∈ p.plans, q.IsConsistent) (hlength : p.blockLength = some length) :
    p.readAt version = length ↔ p.IsThere version := by
  have hread := readsUpTo version fun q hq => ⟨hwalked.plans q hq, hconsistent q hq⟩
  rw [((hconsistent p (self_mem_plans p)).kept length hlength).total] at hread
  exact hread.eq_iff

/-- What is there in a version is there in every later one. -/
theorem IsThere.mono {p : Plan} {later : Int} (h : p.IsThere version) (hle : version ≤ later) :
    p.IsThere later := by
  intro q hq s hs hwidth
  have hthere := h q hq s hs hwidth
  cases s with
  | gap size since trailing =>
    simp only [Step.isThere, Option.all_eq_true, decide_eq_true_eq] at hthere ⊢
    exact fun u hu => Int.le_trans (hthere u hu) hle
  | primitive field encoding =>
    simp only [Step.isThere, Step.fieldTokens?, Option.all_some, Option.any_eq_true,
      decide_eq_true_eq] at hthere ⊢
    obtain ⟨u, hu, hthere⟩ := hthere
    exact ⟨u, hu, Int.le_trans hthere hle⟩
  | typed construct typeName field type nested =>
    simp only [Step.isThere, Step.fieldTokens?, Option.all_some, Option.any_eq_true,
      decide_eq_true_eq] at hthere ⊢
    obtain ⟨u, hu, hthere⟩ := hthere
    exact ⟨u, hu, Int.le_trans hthere hle⟩
  | _ => rfl

/-- A composite is read as it is declared from a version on exactly if no part of it is newer. -/
theorem readAt_from_eq_iff {p : Plan} {length : Int} (hwalked : p.Walked)
    (hconsistent : ∀ q ∈ p.plans, q.IsConsistent) (hlength : p.blockLength = some length) :
    (∀ later, version ≤ later → p.readAt later = length) ↔ p.IsThere version := by
  constructor
  · intro h
    exact (readAt_eq_iff hwalked hconsistent hlength).mp (h version (Int.le_refl _))
  · intro h later hle
    exact (readAt_eq_iff hwalked hconsistent hlength).mpr (h.mono hle)

end Plan

end SimpleBinary

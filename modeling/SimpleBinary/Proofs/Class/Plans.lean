import SimpleBinary.Proofs.Class.Yields
import SimpleBinary.Proofs.Walk.Turn

/-!
Plans and their classes.

A plan holds the plans of its groups and member composites, and each of them becomes a class. Two things
are said here once for all of them: that each is again the plan of a walk (`Plan.Walked.plans`), and that
the classes come in the order of the plans, each written from what the steps of its plan add to the
methods (`Plan.classes_emitted`). What holds of the class of a walked plan is then a matter of the steps
of one plan.
-/

set_option autoImplicit false

namespace SimpleBinary

open Code Emission

/-! ## Plans of walks -/

/-- Whether a plan is what a walk over some tokens makes of an empty one. -/
def Plan.Walked (p : Plan) : Prop :=
  ∃ (blank : Plan) (ts : List Token), blank.steps = [] ∧ blank.ofTokens ts = .ok p

/-- Whether a step has the types and the plans that walks record. -/
def Step.Recorded : Step → Prop
  | .primitive _ encoding => encoding.signal = .encoding
  | .typed construct _ _ _ none =>
    construct = .enumeration ∨ construct = .choiceSet ∨ construct = .composite
  | .typed construct _ _ _ (some nested) => construct = .composite ∧ nested.Walked
  | .group _ _ _ element => element.Walked
  | _ => True

/-- Whether the number in front of the elements of a group and of variable data is no floating-point
number. -/
def Step.countsWhole : Step → Bool
  | .group _ _ numInGroup _ => numInGroup.primitive.all fun type => !type.isReal
  | .varData _ length _ => length.primitive.all fun type => !type.isReal
  | _ => true

/-- The plan that a step holds. -/
def Step.inner? : Step → Option Plan
  | .typed _ _ _ _ nested => nested
  | .group _ _ _ element => some element
  | _ => none

/-- The attribute that a step is about. Gaps, the extension skip and the range checks have none. -/
def Step.attribute? : Step → Option String
  | .primitive field _ => some (Identifier.propertyName field.name)
  | .typed _ _ field _ _ => some (Identifier.propertyName field.name)
  | .group token .. => some (Identifier.propertyName token.name)
  | .varData token .. => some (Identifier.propertyName token.name)
  | _ => none

namespace Plan

mutual

/-- The plan and all plans inside it. -/
def plans : Plan → List Plan
  | ⟨typeName, kind, blockLength, isExtensible, token, steps, consumed⟩ =>
    ⟨typeName, kind, blockLength, isExtensible, token, steps, consumed⟩ :: innerPlans steps

/-- The plans that steps hold, and all plans inside them. -/
def innerPlans : List Step → List Plan
  | [] => []
  | .typed _ _ _ _ (some nested) :: rest => plans nested ++ innerPlans rest
  | .group _ _ _ element :: rest => plans element ++ innerPlans rest
  | _ :: rest => innerPlans rest

end

theorem plans_eq (p : Plan) : p.plans = p :: innerPlans p.steps := by
  obtain ⟨_, _, _, _, _, _, _⟩ := p
  rw [plans]

theorem innerPlans_cons (s : Step) (rest : List Step) :
    innerPlans (s :: rest) = (s.inner?.map plans).getD [] ++ innerPlans rest := by
  cases s with
  | typed construct typeName field type nested => cases nested <;> rfl
  | _ => rfl

theorem mem_innerPlans {steps : List Step} {q : Plan} :
    q ∈ innerPlans steps ↔ ∃ s ∈ steps, ∃ inner ∈ s.inner?, q ∈ inner.plans := by
  induction steps with
  | nil => simp [innerPlans]
  | cons s rest ih =>
    rw [innerPlans_cons, List.mem_append, ih]
    cases h : s.inner? <;> simp [h]

theorem self_mem_plans (p : Plan) : p ∈ p.plans := by
  rw [plans_eq]
  exact List.mem_cons_self ..

mutual

/-- What passes from a plan to the plans that its steps hold is true of all plans inside it. -/
theorem plans_induction {P : Plan → Prop} (hinner : ∀ p, P p → ∀ s ∈ p.steps, ∀ q ∈ s.inner?, P q) :
    ∀ {p : Plan}, P p → ∀ q ∈ p.plans, P q
  | ⟨typeName, kind, blockLength, isExtensible, token, steps, consumed⟩, h => by
    have hsteps : ∀ s ∈ steps, ∀ q ∈ s.inner?, P q := hinner _ h
    rw [plans]
    exact List.forall_mem_cons.mpr ⟨h, innerPlans_induction hinner hsteps⟩

theorem innerPlans_induction {P : Plan → Prop}
    (hinner : ∀ p, P p → ∀ s ∈ p.steps, ∀ q ∈ s.inner?, P q) :
    ∀ {steps : List Step}, (∀ s ∈ steps, ∀ q ∈ s.inner?, P q) → ∀ q ∈ innerPlans steps, P q
  | [], _ => by simp [innerPlans]
  | .typed _ _ _ _ (some nested) :: rest, h => by
    obtain ⟨hstep, hrest⟩ := List.forall_mem_cons.mp h
    rw [innerPlans]
    exact List.forall_mem_append.mpr
      ⟨plans_induction hinner (hstep nested rfl), innerPlans_induction hinner hrest⟩
  | .group _ _ _ element :: rest, h => by
    obtain ⟨hstep, hrest⟩ := List.forall_mem_cons.mp h
    rw [innerPlans]
    exact List.forall_mem_append.mpr
      ⟨plans_induction hinner (hstep element rfl), innerPlans_induction hinner hrest⟩
  | .typed _ _ _ _ none :: rest, h | .gap .. :: rest, h | .primitive .. :: rest, h
  | .extensionSkip _ :: rest, h | .varData .. :: rest, h | .encodeValidation :: rest, h
  | .decodeValidation :: rest, h => by
    rw [innerPlans]
    · exact innerPlans_induction hinner (List.forall_mem_cons.mp h).2
    all_goals simp

end

/-- The plans that the steps of a plan hold are among the plans that the plan is among. -/
theorem inner_mem_plans {p q : Plan} (hq : q ∈ p.plans) : ∀ s ∈ q.steps, ∀ r ∈ s.inner?, r ∈ p.plans := by
  -- All plans inside a plan of `p` are plans of `p`, since those of a held plan are again.
  have hsub : q.plans ⊆ p.plans := by
    refine plans_induction (P := fun q => q.plans ⊆ p.plans) ?_ (List.Subset.refl _) q hq
    intro q hq s hs r hr x hx
    refine hq ?_
    rw [plans_eq]
    exact List.mem_cons_of_mem _ (mem_innerPlans.mpr ⟨s, hs, r, hr, hx⟩)
  intro s hs r hr
  refine hsub ?_
  rw [plans_eq]
  exact List.mem_cons_of_mem _ (mem_innerPlans.mpr ⟨s, hs, r, hr, self_mem_plans r⟩)

/-- A plan that a step holds is smaller than the plan of the step. -/
theorem sizeOf_inner_lt {p q : Plan} {s : Step} (hs : s ∈ p.steps) (hq : q ∈ s.inner?) :
    sizeOf q < sizeOf p := by
  obtain ⟨typeName, kind, blockLength, isExtensible, token, steps, consumed⟩ := p
  have hmem : sizeOf s < sizeOf steps := List.sizeOf_lt_of_mem hs
  have hinner : sizeOf q < sizeOf s := by
    cases s with
    | typed construct typeName field type nested =>
      obtain rfl : nested = some q := hq
      simp only [Step.typed.sizeOf_spec, Option.some.sizeOf_spec]
      omega
    | group token blockLength numInGroup element =>
      obtain rfl : element = q := Option.some.inj hq
      simp only [Step.group.sizeOf_spec]
      omega
    | _ => cases hq
  simp only [Plan.mk.sizeOf_spec]
  omega

/-- What passes to a plan from the plans that its steps hold is true of every plan. -/
@[elab_as_elim]
theorem inner_induction {P : Plan → Prop} (h : ∀ p : Plan, (∀ s ∈ p.steps, ∀ q ∈ s.inner?, P q) → P p)
    (p : Plan) : P p := by
  induction hn : sizeOf p using Nat.strongRecOn generalizing p with
  | ind n ih => exact h p fun s hs q hq => ih _ (hn ▸ sizeOf_inner_lt hs hq) q rfl

/-- The plan of a range is the plan of a walk. -/
theorem walked_ofRange {typeName : String} {kind : EntityKind} {blockLength : Option Int}
    {isExtensible : Bool} {ts : List Token} {p : Plan}
    (h : ofRange typeName kind blockLength isExtensible ts = .ok p) : p.Walked := by
  cases ts with
  | nil => cases h
  | cons token rest => exact ⟨_, _, rfl, h⟩

/-- The plan of a message is the plan of a walk. -/
theorem walked_ofMessage {typeName : String} {ts : List Token} {p : Plan}
    (h : ofMessage typeName ts = .ok p) : p.Walked := by
  cases ts with
  | nil => cases h
  | cons token rest =>
    rw [ofMessage] at h
    exact walked_ofRange h

/-- The plan of a composite is the plan of a walk. -/
theorem walked_ofComposite {typeName : String} {ts : List Token} {p : Plan}
    (h : ofComposite typeName ts = .ok p) : p.Walked := by
  cases ts with
  | nil => cases h
  | cons token rest => exact ⟨_, _, rfl, h⟩

end Plan

/-- For the walk and for the emitted class the same fields of a primitive type are constants. -/
theorem Step.Recorded.isConstant_eq {field encoding : Token}
    (h : (Step.primitive field encoding).Recorded) :
    (encoding.isConstant || field.isConstant) = Walk.isConstant field encoding := by
  have hs : encoding.signal = .encoding := h
  rw [Walk.isConstant, hs, Bool.or_comm]
  rfl

/-- A plain step has no type and no plan. -/
theorem Step.recorded_of_isPlain (s : Step) (h : s.isPlain = true) : s.Recorded := by
  cases s <;> simp_all [Step.isPlain, Step.Recorded]

namespace Walker

variable {w u : Walker} {token : Token} {rest : List Token}

theorem Records.recorded {field type : Token} {step : Step} (h : w.Records field type step) :
    step.Recorded := by
  cases h with
  | primitive hs => exact hs
  | enumeration => exact .inl rfl
  | choiceSet => exact .inr (.inl rfl)
  | composite => exact .inr (.inr rfl)
  | nested _ _ hplan => exact ⟨rfl, _, _, rfl, hplan⟩

/-- Every turn records steps with the types and plans of walks. -/
theorem Turn.recorded (h : w.Turn token rest u) (hw : ∀ s ∈ w.plan.steps, s.Recorded) :
    ∀ s ∈ u.plan.steps, s.Recorded :=
  h.forall_steps Step.recorded_of_isPlain (fun _ hrecords _ => hrecords.recorded)
    (fun helement => ⟨_, _, rfl, helement⟩) hw

end Walker

namespace Plan

theorem Walked.recorded {p : Plan} (h : p.Walked) : ∀ s ∈ p.steps, s.Recorded := by
  obtain ⟨blank, ts, hblank, hwalk⟩ := h
  obtain ⟨u, v, hrun, hcloses, rfl⟩ := Walk.fresh_ok hwalk
  refine hcloses.forall_steps Step.recorded_of_isPlain ?_
  refine Walk.tokens_induction (P := fun _ w => ∀ s ∈ w.plan.steps, s.Recorded)
    (fun hw hturn => hturn.recorded hw) ?_ hrun
  simp [hblank]

/-- The plan that a recorded step holds is that of a walk. -/
theorem walked_of_inner? {s : Step} {q : Plan} (h : s.Recorded) (hq : q ∈ s.inner?) : q.Walked := by
  cases s with
  | typed construct typeName field type nested =>
    obtain rfl : nested = some q := hq
    exact h.2
  | group token blockLength numInGroup element =>
    obtain rfl : element = q := Option.some.inj hq
    exact h
  | _ => cases hq

/-- **All plans inside the plan of a walk are plans of walks.** -/
theorem Walked.plans {p : Plan} (h : p.Walked) : ∀ q ∈ p.plans, q.Walked :=
  plans_induction (fun _ hq s hs _ hinner => walked_of_inner? (hq.recorded s hs) hinner) h

/-! ## Classes of plans -/

/-- The names of the methods that tell the numbers of an entity. -/
def numberNames : List String :=
  ["sbe_block_length", "sbe_template_id", "sbe_schema_id", "sbe_schema_version", "sbe_semantic_type"]

/-- **The methods that tell the numbers of an entity return integers and values of the schema**, under names
of their own. -/
theorem forall_numberMethods {P : Method → Prop} {e : Edition} {p : Plan} {numbers : List Method}
    (hint : ∀ name ∈ numberNames, ∀ n, P (.static name [] (.int n)))
    (hshown : ∀ name ∈ numberNames, ∀ d, P (.static name [] (Codec.shown d)))
    (h : p.numberMethods e = some numbers) : ∀ m ∈ numbers, P m := by
  rw [numberMethods.eq_def] at h
  dsimp only at h
  split at h
  · obtain ⟨token, -, h⟩ := Option.bind_eq_some_iff.mp h
    obtain rfl := Option.some.inj h
    simp only [List.forall_mem_cons, List.not_mem_nil, false_imp_iff, implies_true, and_true]
    exact ⟨hint _ (by decide) _, hint _ (by decide) _, hint _ (by decide) _, hint _ (by decide) _,
      hshown _ (by decide) _⟩
  · obtain rfl := Option.some.inj h
    exact List.forall_mem_cons.mpr
      ⟨hint _ (by decide) _, List.forall_mem_singleton.mpr (hint _ (by decide) _)⟩
  · obtain rfl := Option.some.inj h
    simp

/-- Whether a class is written from the bodies of the steps of a plan, with all that is noted for it
among the given notes. -/
structure Emitted (e : Edition) (notes : List Note) (p : Plan) (c : ClassDef) (bodies : List Bodies) :
    Prop where
  defined : .defined p.typeName ∈ notes
  steps : List.Forall₂ (fun s b => (s.bodies p.typeName p.isExtensible).Yields notes b) p.steps bodies
  classOf : classOf e p (Bodies.join bodies) = some c

mutual

/-- **Each plan becomes one class**, in the order of the plans. -/
theorem emitted_classes {e : Edition} {notes : List Note} : ∀ {p : Plan} {cs : List ClassDef},
    (p.classes e).Yields notes cs →
    List.Forall₂ (fun q c => ∃ bodies, q.Emitted e notes c bodies) p.plans cs
  | ⟨typeName, kind, blockLength, isExtensible, token, steps, consumed⟩, cs, h => by
    rw [classes] at h
    obtain ⟨_, hnote, h⟩ := yields_bind.mp h
    obtain ⟨bodies, hbodies, h⟩ := yields_bind.mp h
    obtain ⟨_, -, h⟩ := yields_bind.mp h
    obtain ⟨own, hown, h⟩ := yields_bind.mp h
    obtain ⟨inner, hinner, h⟩ := yields_bind.mp h
    obtain rfl := yields_pure.mp h
    rw [plans]
    exact .cons ⟨bodies, yields_note.mp hnote, yields_mapM.mp hbodies, yields_ofOption.mp hown⟩
      (emitted_innerClasses hinner)

theorem emitted_innerClasses {e : Edition} {notes : List Note} :
    ∀ {steps : List Step} {cs : List ClassDef}, (innerClasses e steps).Yields notes cs →
    List.Forall₂ (fun q c => ∃ bodies, q.Emitted e notes c bodies) (innerPlans steps) cs
  | [], cs, h => by
    rw [innerClasses] at h
    rw [innerPlans, ← yields_pure.mp h]
    exact .nil
  | .typed _ _ _ _ (some nested) :: rest, cs, h => by
    rw [innerClasses] at h
    obtain ⟨own, hown, h⟩ := yields_bind.mp h
    obtain ⟨others, hothers, h⟩ := yields_bind.mp h
    rw [innerPlans, ← yields_pure.mp h]
    exact List.rel_append (emitted_classes hown) (emitted_innerClasses hothers)
  | .group _ _ _ element :: rest, cs, h => by
    rw [innerClasses] at h
    obtain ⟨own, hown, h⟩ := yields_bind.mp h
    obtain ⟨others, hothers, h⟩ := yields_bind.mp h
    rw [innerPlans, ← yields_pure.mp h]
    exact List.rel_append (emitted_classes hown) (emitted_innerClasses hothers)
  | .typed _ _ _ _ none :: rest, cs, h | .gap .. :: rest, cs, h | .primitive .. :: rest, cs, h
  | .extensionSkip _ :: rest, cs, h | .varData .. :: rest, cs, h | .encodeValidation :: rest, cs, h
  | .decodeValidation :: rest, cs, h => by
    rw [innerClasses] at h
    · rw [innerPlans]
      · exact emitted_innerClasses h
      all_goals simp
    all_goals simp

end

end Plan

/-! ## A sample -/

/-- The tokens of a report: three codes, a constant kind, a side of an enumeration, a group of legs with a
name and a price, and a note. -/
def reportTokens : List Token := [
  { signal := .opens .message, name := "Report", encodedLength := some 7, tokenCount := some 33 },
  { signal := .opens .field, name := "codes", tokenCount := some 3 },
  { signal := .encoding, name := "uint16", encodedLength := some 6, arrayLength := some 3
    encoding := { primitive := some .uint16 } },
  { signal := .closes .field, name := "codes", tokenCount := some 3 },
  { signal := .opens .field, name := "kind", tokenCount := some 3 },
  { signal := .encoding, name := "uint8", encodedLength := some 1
    encoding := { primitive := some .uint8, presence := some .constant, constValue := some "7" } },
  { signal := .closes .field, name := "kind", tokenCount := some 3 },
  { signal := .opens .field, name := "side", tokenCount := some 4 },
  { signal := .opens .enumeration, name := "side", encodedLength := some 1, tokenCount := some 2
    encoding := { primitive := some .uint8 } },
  { signal := .closes .enumeration, name := "side", tokenCount := some 2 },
  { signal := .closes .field, name := "side", tokenCount := some 4 },
  { signal := .opens .group, name := "legs", encodedLength := some 12, tokenCount := some 12 },
  { signal := .opens .composite, name := "dimensions", encodedLength := some 3, tokenCount := some 4 },
  { signal := .encoding, name := "blockLength", encodedLength := some 2
    encoding := { primitive := some .uint16 } },
  { signal := .encoding, name := "numInGroup", encodedLength := some 1
    encoding := { primitive := some .uint8 } },
  { signal := .closes .composite, name := "dimensions", tokenCount := some 4 },
  { signal := .opens .field, name := "name", tokenCount := some 3 },
  { signal := .encoding, name := "char", encodedLength := some 4, arrayLength := some 4
    encoding := { primitive := some .char } },
  { signal := .closes .field, name := "name", tokenCount := some 3 },
  { signal := .opens .field, name := "price", tokenCount := some 3 },
  { signal := .encoding, name := "double", encodedLength := some 8
    encoding := { primitive := some .double } },
  { signal := .closes .field, name := "price", tokenCount := some 3 },
  { signal := .closes .group, name := "legs", tokenCount := some 12 },
  { signal := .opens .varData, name := "note", tokenCount := some 6 },
  { signal := .opens .composite, name := "text", encodedLength := some (-1), tokenCount := some 4 },
  { signal := .encoding, name := "length", encodedLength := some 1
    encoding := { primitive := some .uint8 } },
  { signal := .encoding, name := "varData", encodedLength := some (-1)
    encoding := { primitive := some .uint16 } },
  { signal := .closes .composite, name := "text", tokenCount := some 4 },
  { signal := .closes .varData, name := "note", tokenCount := some 6 },
  { signal := .closes .message, name := "Report", tokenCount := some 33 }]

/-- The edition of a schema whose headers have numbers of two bytes. -/
def reportEdition : Edition where
  header := ⟨[], some .uint16, some .uint16, some .uint16, some .uint16⟩

theorem exists_reportPlan : ∃ p cs, Plan.ofMessage "Report" reportTokens = .ok p ∧
    (p.classes reportEdition).outcome = .ok cs ∧ cs.length = 2 ∧
    ∀ q ∈ p.plans, ∀ s ∈ q.steps, s.countsWhole = true := by
  have h : ∃ p, Plan.ofMessage "Report" reportTokens = .ok p ∧
      ((p.classes reportEdition).outcome.map List.length).toOption = some 2 ∧
      ∀ q ∈ p.plans, ∀ s ∈ q.steps, s.countsWhole = true := by
    -- The walk computes the plan, and what is asked of the plan is then decided.
    refine ⟨?plan, ?walk, ?classes, ?counts⟩
    case walk =>
      cbv
      rfl
    case classes => decide +kernel
    case counts => decide +kernel
  obtain ⟨p, hp, hclasses, hcounts⟩ := h
  cases hcs : (p.classes reportEdition).outcome with
  | error fault =>
    rw [hcs] at hclasses
    cases hclasses
  | ok cs =>
    rw [hcs] at hclasses
    exact ⟨p, cs, hp, hcs, Option.some.inj hclasses, hcounts⟩

end SimpleBinary

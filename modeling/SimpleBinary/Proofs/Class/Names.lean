import SimpleBinary.Proofs.Class.Identifiers
import SimpleBinary.Proofs.Class.Literals
import SimpleBinary.Proofs.Class.Plans

/-!
The names of classes.

An identifier is a line, whatever the name is that it is made of. The class of a group or of a member
composite is called like the class around it with a name of its own added (`Plan.Walked.exists_part`), so
the names of all classes of a plan are lines if that of the plan is (`Plan.Walked.isLine_typeName`).
-/

set_option autoImplicit false

namespace SimpleBinary

/-! ## Identifiers -/

namespace Identifier

/-- What may stand in an identifier may stand on a line. -/
theorem isLine_of_isAllowed {s : String} (h : ∀ c ∈ s.toList, isAllowed c = true) : IsLine s :=
  fun hmem => absurd (h _ hmem) (by decide)

@[simp] theorem isLine_typeName (name : Text) : IsLine (typeName name) :=
  isLine_of_isAllowed (isAllowed_of_mem_typeName name)

@[simp] theorem isLine_moduleName (name : Text) : IsLine (moduleName name) :=
  isLine_of_isAllowed (isAllowed_of_mem_moduleName name)

@[simp] theorem isLine_constantName (name : Text) : IsLine (constantName name) :=
  isLine_of_isAllowed (isAllowed_of_mem_constantName name)

@[simp] theorem isLine_propertyName (name : Text) : IsLine (propertyName name) :=
  isLine_of_isAllowed (isAllowed_of_mem_propertyName name)

end Identifier

/-! ## Parts of plans -/

namespace Walker

variable {w u : Walker} {token : Token} {rest : List Token}

/-- Whether the plans that steps hold are those of parts of the walked entity. -/
def HoldsParts (w : Walker) (steps : List Step) : Prop :=
  ∀ s ∈ steps, ∀ q ∈ s.inner?, ∃ kind isExtensible part body,
    (w.part kind isExtensible part).ofTokens body = .ok q

theorem holdsParts_singleton {s : Step} (h : s.inner? = none) : w.HoldsParts [s] := by
  intro s' hs' q hq
  rw [List.mem_singleton.mp hs', h] at hq
  cases hq

theorem HoldsParts.append {steps more : List Step} (h : w.HoldsParts steps) (h' : w.HoldsParts more) :
    w.HoldsParts (steps ++ more) :=
  List.forall_mem_append.mpr ⟨h, h'⟩

/-- What closes a block holds no plans. -/
theorem Closes.holdsParts (h : w.Closes u) : ∃ more, u.plan = (w.extend more).plan ∧ w.HoldsParts more := by
  cases h with
  | already => exact ⟨[], by rw [extend_nil], by simp [HoldsParts]⟩
  | now =>
    refine ⟨_, rfl, HoldsParts.append ?_ ?_⟩
    all_goals
      split
      · exact holdsParts_singleton rfl
      · simp [HoldsParts]

theorem Records.holdsParts {field type : Token} {step : Step} (h : w.Records field type step) :
    w.HoldsParts [step] := by
  cases h with
  | nested _ _ hplan =>
    intro s hs q hq
    obtain rfl := List.mem_singleton.mp hs
    obtain rfl := Option.some.inj hq
    exact ⟨_, _, _, _, hplan⟩
  | _ => exact holdsParts_singleton rfl

theorem Places.holdsParts {field type : Token} {step : Step} (h : w.Places field type step u)
    (hstep : w.HoldsParts [step]) : ∃ more, u.plan = (w.extend more).plan ∧ w.HoldsParts more := by
  cases h with
  | constant => exact ⟨_, rfl, hstep⟩
  | onWire _ hpads =>
    cases hpads with
    | gap =>
      have hgap (size : Int) : w.HoldsParts [.gap size field.version false] := holdsParts_singleton rfl
      rw [advance_plan, extend_extend]
      exact ⟨_, rfl, (hgap _).append hstep⟩
    | _ => exact ⟨_, rfl, hstep⟩

/-- **The plans that a turn records** are those of parts of the walked entity. -/
theorem Turn.holdsParts (h : w.Turn token rest u) :
    ∃ more, u.plan = (w.extend more).plan ∧ w.HoldsParts more := by
  -- A step behind what has closed the block.
  have hlonger {v : Walker} {step : Step} (hcloses : w.Closes v) (hstep : w.HoldsParts [step]) :
      ∃ more, (v.extend [step]).plan = (w.extend more).plan ∧ w.HoldsParts more := by
    obtain ⟨more, hmore, hparts⟩ := hcloses.holdsParts
    refine ⟨more ++ [step], ?_, hparts.append hstep⟩
    rw [← extend_extend, extend, hmore]
    rfl
  cases h with
  | messageOpens => exact ⟨_, rfl, holdsParts_singleton rfl⟩
  | messageCloses _ hcloses => exact hlonger hcloses (holdsParts_singleton rfl)
  | groupCloses _ hcloses => exact hcloses.holdsParts
  | field _ hrecords hplaces => exact hplaces.holdsParts hrecords.holdsParts
  | @group v _ _ _ _ _ _ hcloses _ _ helement =>
    refine hlonger hcloses ?_
    intro s hs q hq
    obtain rfl := List.mem_singleton.mp hs
    obtain rfl := Option.some.inj hq
    -- Closing the block does not change what the parts are called.
    obtain ⟨more, hmore, -⟩ := hcloses.holdsParts
    have hpart (kind : EntityKind) (isExtensible : Bool) (t : Token) :
        v.part kind isExtensible t = w.part kind isExtensible t := by
      rw [part, hmore]
      rfl
    exact ⟨_, _, _, _, hpart .group true token ▸ helement⟩
  | varData _ hcloses => exact hlonger hcloses (holdsParts_singleton rfl)
  | passes => exact ⟨[], by rw [extend_nil], by simp [HoldsParts]⟩

end Walker

namespace Plan

/-- A walk does not change what the entity is called. -/
theorem typeName_ofTokens {blank p : Plan} {ts : List Token} (h : blank.ofTokens ts = .ok p) :
    p.typeName = blank.typeName ∧ p.kind = blank.kind ∧ p.token = blank.token := by
  obtain ⟨u, v, hrun, hcloses, rfl⟩ := Walk.fresh_ok h
  obtain ⟨more, hmore⟩ := Walk.tokens_extends hrun
  obtain ⟨steps, hsteps, -⟩ := hcloses.holdsParts
  rw [hsteps, Walker.extend, hmore]
  exact ⟨rfl, rfl, rfl⟩

/-- The plan of a composite is called as it is asked for. -/
theorem typeName_ofComposite {typeName : String} {ts : List Token} {p : Plan}
    (h : ofComposite typeName ts = .ok p) : p.typeName = typeName := by
  cases ts with
  | nil => cases h
  | cons token rest => exact (typeName_ofTokens h).1

/-- The plan of a message is called as it is asked for. -/
theorem typeName_ofMessage {typeName : String} {ts : List Token} {p : Plan}
    (h : ofMessage typeName ts = .ok p) : p.typeName = typeName := by
  cases ts with
  | nil => cases h
  | cons token rest =>
    rw [ofMessage] at h
    exact (typeName_ofTokens h).1

/-- The plan that a step of a walked plan holds is called like that plan, with a name added. -/
theorem Walked.exists_part {p : Plan} (h : p.Walked) : ∀ s ∈ p.steps, ∀ q ∈ s.inner?,
    ∃ part : Token, q.typeName = p.typeName ++ Identifier.typeName part.name := by
  obtain ⟨blank, ts, hblank, hwalk⟩ := h
  have htypeName := (typeName_ofTokens hwalk).1
  obtain ⟨u, v, hrun, hcloses, rfl⟩ := Walk.fresh_ok hwalk
  -- Every turn keeps the name of the entity, and records parts that are called like it.
  have hkept : ∀ {w w' : Walker}, (∃ more, w'.plan = (w.extend more).plan ∧ w.HoldsParts more) →
      (∀ s ∈ w.plan.steps, ∀ q ∈ s.inner?,
        ∃ part : Token, q.typeName = w.plan.typeName ++ Identifier.typeName part.name) →
      ∀ s ∈ w'.plan.steps, ∀ q ∈ s.inner?,
        ∃ part : Token, q.typeName = w'.plan.typeName ++ Identifier.typeName part.name := by
    rintro w w' ⟨more, hmore, hparts⟩ hw
    rw [hmore]
    intro s hs q hq
    rcases List.mem_append.mp hs with hs | hs
    · exact hw s hs q hq
    · obtain ⟨kind, isExtensible, part, body, hq⟩ := hparts s hs q hq
      exact ⟨part, (typeName_ofTokens hq).1⟩
  refine hkept hcloses.holdsParts ?_
  refine Walk.tokens_induction
    (P := fun _ w => ∀ s ∈ w.plan.steps, ∀ q ∈ s.inner?,
      ∃ part : Token, q.typeName = w.plan.typeName ++ Identifier.typeName part.name)
    (fun hw hturn => hkept hturn.holdsParts hw) ?_ hrun
  simp [hblank]

/-- **What the names of all classes of a plan have in common**: that of the plan has it, and a name that has it
keeps it where a name is added. -/
theorem Walked.typeName_induction {p : Plan} {P : String → Prop}
    (hpart : ∀ (stem : String) (name : Text), P stem → P (stem ++ Identifier.typeName name)) (h : p.Walked)
    (hp : P p.typeName) : ∀ q ∈ p.plans, P q.typeName := by
  have hboth : ∀ q ∈ p.plans, q.Walked ∧ P q.typeName := by
    refine plans_induction ?_ ⟨h, hp⟩
    rintro q ⟨hwalked, hstem⟩ s hs r hr
    obtain ⟨part, hname⟩ := hwalked.exists_part s hs r hr
    refine ⟨walked_of_inner? (hwalked.recorded s hs) hr, ?_⟩
    rw [hname]
    exact hpart q.typeName part.name hstem
  exact fun q hq => (hboth q hq).2

/-- **The names of all classes of a plan are lines** if that of the plan is. -/
theorem Walked.isLine_typeName {p : Plan} (h : p.Walked) (hp : IsLine p.typeName) :
    ∀ q ∈ p.plans, IsLine q.typeName :=
  h.typeName_induction (fun _ name hstem => isLine_append.mpr ⟨hstem, Identifier.isLine_typeName name⟩) hp

end Plan

end SimpleBinary

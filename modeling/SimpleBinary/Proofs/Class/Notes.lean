import SimpleBinary.Proofs.Class.Plans

/-!
What is noted while a class is written.

An emission notes what it needs and what it defines. Where every note on its way has a property, and so has
every note of what follows, all notes have it (`Emission.NotesOnly`). Nearly all notes are plain: modules,
helpers and warnings. A class is needed only for a field whose class is in another module, and only the
classes of the plans are defined (`Plan.notesOnly_classes`). Both what a module imports from its siblings
and what it exports can be read off from that.
-/

set_option autoImplicit false

namespace SimpleBinary

open Emission

/-- The modules of the standard library that source may need. -/
def standardModules : List String :=
  ["math", "struct"]

/-- Whether a note has nothing to do with the classes of the package. -/
def Note.isPlain : Note → Bool
  | .module name => standardModules.contains name
  | .helper _ | .warning _ => true
  | .type _ | .defined _ => false

/-- Whether all notes of an emission have a property. -/
structure Emission.NotesOnly {α : Type} (P : Note → Prop) (x : Emission α) : Prop where
  mem : ∀ n ∈ x.notes, P n

/-- A literal needs no module but one. -/
theorem eq_math_of_mem_literalModules {literal name : String} (h : name ∈ literalModules literal) :
    name = "math" := by
  unfold literalModules at h
  split at h
  · exact List.mem_singleton.mp h
  · cases h

theorem Bounds.eq_math_of_mem_modules {b : Bounds} {name : String} (h : name ∈ b.modules) :
    name = "math" := by
  obtain ⟨n, -, hn⟩ := List.mem_flatMap.mp h
  exact eq_math_of_mem_literalModules hn

namespace Emission

section

variable {α β : Type} {P : Note → Prop}

/-- What follows a result may note what is known of that result. -/
theorem notesOnly_bind_of_ok {x : Emission α} {f : α → Emission β} (hx : x.NotesOnly P)
    (hf : ∀ a, x.outcome = .ok a → (f a).NotesOnly P) : (x >>= f).NotesOnly P := by
  refine ⟨fun n hn => ?_⟩
  cases h : x.outcome with
  | ok a =>
    rw [bind_of_ok f h] at hn
    exact (List.mem_append.mp hn).elim (hx.mem n) ((hf a h).mem n)
  | error fault =>
    rw [bind_of_error f h] at hn
    exact hx.mem n hn

theorem notesOnly_bind {x : Emission α} {f : α → Emission β} (hx : x.NotesOnly P)
    (hf : ∀ a, (f a).NotesOnly P) : (x >>= f).NotesOnly P :=
  notesOnly_bind_of_ok hx fun a _ => hf a

@[simp] theorem notesOnly_pure (a : α) : (pure a : Emission α).NotesOnly P :=
  ⟨by simp⟩

@[simp] theorem notesOnly_fail (fault : Fault) : (fail fault : Emission α).NotesOnly P :=
  ⟨by simp [fail]⟩

@[simp] theorem notesOnly_ofExcept (outcome : Except Fault α) : (ofExcept outcome).NotesOnly P :=
  ⟨by simp [ofExcept]⟩

theorem notesOnly_note {n : Note} (h : P n) : (note n).NotesOnly P := by
  refine ⟨fun m hm => ?_⟩
  rwa [List.mem_singleton.mp hm]

@[simp] theorem notesOnly_demand (areWritable : Bool) : (demand areWritable).NotesOnly P := by
  cases areWritable <;> simp [demand]

@[simp] theorem notesOnly_ofOption (part : String) (o : Option α) : (ofOption part o).NotesOnly P := by
  cases o <;> simp [ofOption]

/-- An emission that is made under a condition. -/
theorem notesOnly_when {c : Prop} [Decidable c] {x : Emission Unit} {f : Unit → Emission α}
    (hx : x.NotesOnly P) (hf : (f ()).NotesOnly P) : (if c then x >>= f else f ()).NotesOnly P := by
  split
  · exact notesOnly_bind hx fun _ => hf
  · exact hf

/-- One of two emissions, whichever a condition says. -/
theorem notesOnly_ite_bind {c : Prop} [Decidable c] {x y : Emission α} {f : α → Emission β}
    (hx : x.NotesOnly P) (hy : y.NotesOnly P) (hf : ∀ a, (f a).NotesOnly P) :
    (if c then x >>= f else y >>= f).NotesOnly P := by
  split
  · exact notesOnly_bind hx hf
  · exact notesOnly_bind hy hf

theorem notesOnly_mapM {f : α → Emission β} {as : List α} (hf : ∀ a ∈ as, (f a).NotesOnly P) :
    (as.mapM f).NotesOnly P := by
  induction as with
  | nil =>
    rw [List.mapM_nil]
    exact notesOnly_pure []
  | cons a rest ih =>
    obtain ⟨ha, hrest⟩ := List.forall_mem_cons.mp hf
    rw [List.mapM_cons]
    exact notesOnly_bind ha fun _ => notesOnly_bind (ih hrest) fun _ => notesOnly_pure _

/-! ### Plain notes -/

variable (hplain : ∀ n : Note, n.isPlain = true → P n)

include hplain

theorem notesOnly_module {name : String} (h : name ∈ standardModules) :
    (note (.module name)).NotesOnly P :=
  notesOnly_note (hplain _ (List.contains_iff_mem.mpr h))

theorem notesOnly_helper (helper : Helper) : (note (.helper helper)).NotesOnly P :=
  notesOnly_note (hplain _ rfl)

theorem notesOnly_warning (w : Warning) : (note (.warning w)).NotesOnly P :=
  notesOnly_note (hplain _ rfl)

/-- What the literals of numbers need is a standard module. -/
theorem notesOnly_noteModules {modules : List String} (h : ∀ name ∈ modules, name = "math") :
    (noteModules modules).NotesOnly P := by
  refine ⟨fun n hn => ?_⟩
  obtain ⟨name, hname, rfl⟩ := List.mem_map.mp hn
  rw [h name hname]
  exact hplain _ rfl

theorem notesOnly_bounds (type : Primitive) (e : Encoding) : (bounds type e).NotesOnly P := by
  rw [bounds]
  refine notesOnly_bind (notesOnly_ofExcept _) fun b => ?_
  dsimp only
  split
  · exact notesOnly_bind (notesOnly_warning hplain _) fun _ => notesOnly_pure b
  · exact notesOnly_pure b

end

end Emission

/-! ## Steps -/

namespace Codec

variable {P : Note → Prop} {owner property : String}

@[simp] theorem notesOnly_countOf (encoding : Token) (fault : Fault) :
    (countOf encoding fault).NotesOnly P := by
  rw [countOf]
  split
  · exact notesOnly_pure _
  · exact notesOnly_fail _

theorem notesOnly_textAccessors (type : Primitive) (encoding : Token) :
    (textAccessors type property encoding).NotesOnly P := by
  rw [textAccessors]
  split
  · refine notesOnly_bind (notesOnly_countOf ..) fun count => ?_
    split
    · exact notesOnly_bind (notesOnly_demand _) fun _ => notesOnly_pure _
    · exact notesOnly_pure _
  · exact notesOnly_pure _

/-- A field needs its class unless its plan is at hand. -/
theorem notesOnly_typedBodies {construct : Construct} {typeName : Datum} {field : Token}
    {nested : Option String}
    (htype : nested = none → ∀ name, typeName = .text name → P (.type (Identifier.typeName name))) :
    (typedBodies construct typeName field nested).NotesOnly P := by
  rw [typedBodies]
  refine notesOnly_bind ?_ fun type => ?_
  · unfold typeOf
    split
    · exact notesOnly_pure _
    · exact notesOnly_bind (notesOnly_note (htype rfl _ rfl)) fun _ => notesOnly_pure _
    · exact notesOnly_fail _
  · exact notesOnly_bind (notesOnly_demand _) fun _ => notesOnly_bind (notesOnly_ofExcept _) fun _ =>
      notesOnly_pure _

variable (hplain : ∀ n : Note, n.isPlain = true → P n)

include hplain

theorem notesOnly_gapBodies (isExtensible : Bool) (size : Int) (since : Option Int) (trailing : Bool) :
    (gapBodies isExtensible size since trailing).NotesOnly P := by
  rw [gapBodies]
  refine notesOnly_bind (notesOnly_helper hplain _) fun _ => notesOnly_bind (notesOnly_demand _) fun _ => ?_
  dsimp only
  split
  · exact notesOnly_pure _
  · exact notesOnly_bind (notesOnly_helper hplain _) fun _ =>
      notesOnly_bind (notesOnly_demand _) fun _ => notesOnly_pure _

theorem notesOnly_skipBodies (known : List (Int × Int)) : (skipBodies known).NotesOnly P := by
  rw [skipBodies.eq_def]
  refine notesOnly_bind (notesOnly_helper hplain _) fun _ => notesOnly_bind (notesOnly_demand _) fun _ => ?_
  split
  · exact notesOnly_fail _
  · exact notesOnly_pure _
  · exact notesOnly_bind (notesOnly_demand _) fun _ => notesOnly_pure _

theorem notesOnly_validatorStmts (characterEncoding : Datum) :
    (validatorStmts owner property characterEncoding).NotesOnly P := by
  rw [validatorStmts]
  refine notesOnly_bind (notesOnly_ofExcept _) fun found => ?_
  split
  · exact notesOnly_bind (notesOnly_helper hplain _) fun _ => notesOnly_pure _
  · exact notesOnly_pure _

theorem notesOnly_valueBodies (type : Primitive) (encoding : Token) :
    (valueBodies owner property type encoding).NotesOnly P := by
  rw [valueBodies]
  refine notesOnly_bind (notesOnly_module hplain (by decide)) fun _ => ?_
  iterate 2 refine notesOnly_bind (notesOnly_helper hplain _) fun _ => ?_
  refine notesOnly_bind (notesOnly_countOf ..) fun count => ?_
  refine notesOnly_bind (notesOnly_demand _) fun _ => ?_
  refine notesOnly_when (notesOnly_module hplain (by decide)) ?_
  exact notesOnly_ite_bind (notesOnly_validatorStmts hplain _) (notesOnly_pure _)
    fun _ => notesOnly_pure _

theorem notesOnly_constantBodies (type : Primitive) (field encoding : Token) :
    (constantBodies property type field encoding).NotesOnly P := by
  rw [constantBodies]
  exact notesOnly_bind (notesOnly_ofExcept _) fun _ =>
    notesOnly_bind (notesOnly_noteModules hplain fun _ => eq_math_of_mem_literalModules) fun _ =>
      notesOnly_pure _

theorem notesOnly_primitiveBodies (field encoding : Token) :
    (primitiveBodies owner field encoding).NotesOnly P := by
  rw [primitiveBodies]
  refine notesOnly_bind (notesOnly_demand _) fun _ => ?_
  refine notesOnly_bind (notesOnly_ofOption ..) fun type => ?_
  refine notesOnly_bind (notesOnly_bounds hplain ..) fun b => ?_
  refine notesOnly_bind (notesOnly_noteModules hplain fun _ => b.eq_math_of_mem_modules) fun _ => ?_
  refine notesOnly_bind (notesOnly_textAccessors ..) fun texts => ?_
  exact notesOnly_ite_bind (notesOnly_constantBodies hplain ..) (notesOnly_valueBodies hplain ..)
    fun _ => notesOnly_pure _

theorem notesOnly_groupBodies (token blockLength numInGroup : Token) (element : String) :
    (groupBodies owner token blockLength numInGroup element).NotesOnly P := by
  rw [groupBodies]
  iterate 2 refine notesOnly_bind (notesOnly_ofOption ..) fun _ => ?_
  refine notesOnly_bind (notesOnly_module hplain (by decide)) fun _ => ?_
  refine notesOnly_bind (notesOnly_helper hplain _) fun _ => ?_
  refine notesOnly_bind (notesOnly_demand _) fun _ => ?_
  refine notesOnly_bind (notesOnly_bounds hplain ..) fun b => ?_
  exact notesOnly_bind (notesOnly_helper hplain _) fun _ => notesOnly_pure _

theorem notesOnly_varDataBodies (token length data : Token) :
    (varDataBodies owner token length data).NotesOnly P := by
  rw [varDataBodies]
  refine notesOnly_bind (notesOnly_ofOption ..) fun _ => ?_
  refine notesOnly_bind (notesOnly_module hplain (by decide)) fun _ => ?_
  refine notesOnly_bind (notesOnly_helper hplain _) fun _ => ?_
  refine notesOnly_bind (notesOnly_demand _) fun _ => ?_
  refine notesOnly_bind (notesOnly_ofOption ..) fun _ => ?_
  refine notesOnly_bind (notesOnly_bounds hplain ..) fun b => ?_
  refine notesOnly_bind (notesOnly_helper hplain _) fun _ => ?_
  exact notesOnly_ite_bind (notesOnly_validatorStmts hplain _) (notesOnly_pure _)
    fun _ => notesOnly_pure _

end Codec

/-- The name of the class in another module that a step refers to: that of an enumeration, a set or a
composite, unless the composite has a plan of its own. -/
def Step.reference? : Step → Option String
  | .typed _ (.text name) _ _ none => some (Identifier.typeName name)
  | _ => none

/-- The bodies of a step note what is plain, and the class that the step refers to. -/
theorem Step.notesOnly_bodies {P : Note → Prop} (hplain : ∀ n : Note, n.isPlain = true → P n)
    {s : Step} (htype : ∀ name ∈ s.reference?, P (.type name)) (owner : String)
    (isExtensible : Bool) : (s.bodies owner isExtensible).NotesOnly P := by
  cases s with
  | gap => exact Codec.notesOnly_gapBodies hplain ..
  | primitive => exact Codec.notesOnly_primitiveBodies hplain ..
  | typed construct typeName field type nested =>
    refine Codec.notesOnly_typedBodies ?_
    intro hnested name htypeName
    obtain rfl := Option.map_eq_none_iff.mp hnested
    subst htypeName
    exact htype _ rfl
  | extensionSkip => exact Codec.notesOnly_skipBodies hplain ..
  | group => exact Codec.notesOnly_groupBodies hplain ..
  | varData => exact Codec.notesOnly_varDataBodies hplain ..
  | encodeValidation => exact notesOnly_pure _
  | decodeValidation => exact notesOnly_pure _

/-! ## Classes -/

namespace Plan

/-- The names of the classes in other modules that the steps of a plan refer to. -/
def references (p : Plan) : List String :=
  p.steps.filterMap Step.reference?

theorem notesOnly_demandClass {P : Note → Prop} (e : Edition) (p : Plan) :
    (demandClass e p).NotesOnly P := by
  have hdiscard {α : Type} (part : String) (o : Option α) :
      (discard (ofOption part o)).NotesOnly P := by
    rw [discard, LawfulFunctor.map_const, Function.comp, map_eq_pure_bind]
    exact notesOnly_bind (notesOnly_ofOption ..) fun _ => notesOnly_pure _
  rw [demandClass]
  split
  · exact notesOnly_bind (notesOnly_ofOption ..) fun _ => notesOnly_bind (notesOnly_demand _)
      fun _ => notesOnly_bind (hdiscard ..) fun _ => notesOnly_demand _
  · exact notesOnly_bind (hdiscard ..) fun _ => notesOnly_demand _
  · exact notesOnly_demand _

section

variable {e : Edition} {P : Note → Prop}

mutual

/-- **What the classes of a plan note** is plain, or it defines one of them, or it needs a class that a
step of one of the plans refers to. -/
theorem notesOnly_classes (hplain : ∀ n : Note, n.isPlain = true → P n) : ∀ {p : Plan},
    (∀ q ∈ p.plans, P (.defined q.typeName) ∧ ∀ name ∈ q.references, P (.type name)) →
    (p.classes e).NotesOnly P
  | ⟨typeName, kind, blockLength, isExtensible, token, steps, consumed⟩, h => by
    rw [plans] at h
    obtain ⟨⟨hself, htypes⟩, hinner⟩ := List.forall_mem_cons.mp h
    rw [classes]
    refine notesOnly_bind (notesOnly_note hself) fun _ => ?_
    refine notesOnly_bind (notesOnly_mapM fun s hs => ?_) fun bodies => ?_
    · refine Step.notesOnly_bodies hplain (fun name hname => ?_) _ _
      exact htypes name (List.mem_filterMap.mpr ⟨s, hs, hname⟩)
    refine notesOnly_bind (notesOnly_demandClass ..) fun _ => ?_
    refine notesOnly_bind (notesOnly_ofOption ..) fun own => ?_
    exact notesOnly_bind (notesOnly_innerClasses hplain hinner) fun _ => notesOnly_pure _

theorem notesOnly_innerClasses (hplain : ∀ n : Note, n.isPlain = true → P n) : ∀ {steps : List Step},
    (∀ q ∈ innerPlans steps, P (.defined q.typeName) ∧ ∀ name ∈ q.references, P (.type name)) →
    (innerClasses e steps).NotesOnly P
  | [], _ => by
    rw [innerClasses]
    exact notesOnly_pure _
  | .typed _ _ _ _ (some nested) :: rest, h => by
    rw [innerPlans] at h
    obtain ⟨hnested, hrest⟩ := List.forall_mem_append.mp h
    rw [innerClasses]
    exact notesOnly_bind (notesOnly_classes hplain hnested) fun _ =>
      notesOnly_bind (notesOnly_innerClasses hplain hrest) fun _ => notesOnly_pure _
  | .group _ _ _ element :: rest, h => by
    rw [innerPlans] at h
    obtain ⟨helement, hrest⟩ := List.forall_mem_append.mp h
    rw [innerClasses]
    exact notesOnly_bind (notesOnly_classes hplain helement) fun _ =>
      notesOnly_bind (notesOnly_innerClasses hplain hrest) fun _ => notesOnly_pure _
  | .typed _ _ _ _ none :: rest, h | .gap .. :: rest, h | .primitive .. :: rest, h
  | .extensionSkip _ :: rest, h | .varData .. :: rest, h | .encodeValidation :: rest, h
  | .decodeValidation :: rest, h => by
    rw [innerPlans] at h
    · rw [innerClasses]
      · exact notesOnly_innerClasses hplain h
      all_goals simp
    all_goals simp

end

end

end Plan

section

variable {P : Note → Prop} (hplain : ∀ n : Note, n.isPlain = true → P n)

include hplain

/-- The tokens of an enumeration define its class and need no other. -/
theorem Enumeration.notesOnly_ofTokens {tokens : List Token} {e : Enumeration}
    (h : (ofTokens tokens).outcome = .ok e) (hdefined : P (.defined e.name)) :
    (ofTokens tokens).NotesOnly P := by
  -- The name that is noted as defined is read before the rest, so it is the name of the result.
  have hread := isDefinedBy_of_yields (yields_self h)
  rw [ofTokens]
  refine notesOnly_bind_of_ok (notesOnly_ofExcept _) fun token htoken => ?_
  obtain rfl : e.token = token := Option.some.inj (hread.first.symm.trans (Codec.head?_of_opening htoken))
  refine notesOnly_bind_of_ok (notesOnly_ofExcept _) fun name hname => ?_
  obtain rfl : e.name = name := Except.ok.inj (hread.name.symm.trans hname)
  iterate 2 refine notesOnly_bind (notesOnly_ofExcept _) fun _ => ?_
  refine notesOnly_bind (notesOnly_note hdefined) fun _ => ?_
  refine notesOnly_bind (notesOnly_module hplain (by decide)) fun _ => ?_
  iterate 2 refine notesOnly_bind (notesOnly_helper hplain _) fun _ => ?_
  iterate 3 refine notesOnly_bind (by simp) fun _ => ?_
  exact notesOnly_pure _

/-- The tokens of a choice set define its class and need no other. -/
theorem ChoiceSet.notesOnly_ofTokens {tokens : List Token} {s : ChoiceSet}
    (h : (ofTokens tokens).outcome = .ok s) (hdefined : P (.defined s.name)) :
    (ofTokens tokens).NotesOnly P := by
  have hread := isDefinedBy_of_yields (yields_self h)
  rw [ofTokens]
  refine notesOnly_bind_of_ok (notesOnly_ofExcept _) fun token htoken => ?_
  obtain rfl : s.token = token := Option.some.inj (hread.first.symm.trans (Codec.head?_of_opening htoken))
  refine notesOnly_bind_of_ok (notesOnly_ofExcept _) fun name hname => ?_
  obtain rfl : s.name = name := Except.ok.inj (hread.name.symm.trans hname)
  iterate 3 refine notesOnly_bind (notesOnly_ofExcept _) fun _ => ?_
  refine notesOnly_bind (notesOnly_note hdefined) fun _ => ?_
  refine notesOnly_bind (notesOnly_module hplain (by decide)) fun _ => ?_
  refine notesOnly_bind (notesOnly_helper hplain _) fun _ => ?_
  refine notesOnly_bind (by simp) fun _ => ?_
  exact notesOnly_pure _

end

end SimpleBinary

import SimpleBinary.Proofs.Class.Plans

/-!
The methods of an emitted class.

A method hides those of the same name before it, so what a class does under a name is the body of the
last method of that name. Accessors come last, but their names end in ways in which those of the five
methods that go through the attributes do not (`IsAccessor.name_ne`), so the bodies of the five are those
that the steps of the plan add up to.
-/

set_option autoImplicit false

namespace SimpleBinary

open Code Emission

/-- The body of the last method of a name. -/
def Code.ClassDef.bodyOf (c : ClassDef) (name : String) : List Stmt :=
  ((c.methods.reverse.find? fun m => m.name == name).map Method.body).getD []

/-- The names of the methods that go through the attributes. -/
def Bodies.methodNames : List String :=
  ["__init__", "encode", "decode", "range_check", "init"]

namespace Bodies

@[simp] theorem zero_join (bs : List Bodies) : (join bs).zero = bs.flatMap zero := by
  induction bs with
  | nil => rfl
  | cons b rest ih =>
    rw [List.flatMap_cons, ← ih]
    rfl

@[simp] theorem encode_join (bs : List Bodies) : (join bs).encode = bs.flatMap encode := by
  induction bs with
  | nil => rfl
  | cons b rest ih =>
    rw [List.flatMap_cons, ← ih]
    rfl

@[simp] theorem decode_join (bs : List Bodies) : (join bs).decode = bs.flatMap decode := by
  induction bs with
  | nil => rfl
  | cons b rest ih =>
    rw [List.flatMap_cons, ← ih]
    rfl

@[simp] theorem rangeCheck_join (bs : List Bodies) : (join bs).rangeCheck = bs.flatMap rangeCheck := by
  induction bs with
  | nil => rfl
  | cons b rest ih =>
    rw [List.flatMap_cons, ← ih]
    rfl

@[simp] theorem init_join (bs : List Bodies) : (join bs).init = bs.flatMap init := by
  induction bs with
  | nil => rfl
  | cons b rest ih =>
    rw [List.flatMap_cons, ← ih]
    rfl

@[simp] theorem accessors_join (bs : List Bodies) : (join bs).accessors = bs.flatMap accessors := by
  induction bs with
  | nil => rfl
  | cons b rest ih =>
    rw [List.flatMap_cons, ← ih]
    rfl

end Bodies

/-! ## Accessors -/

/-- The ends of the names of accessors. -/
def Codec.accessorEnds : List String :=
  ["_since_version", "_in_acting_version", "_deprecated", "_id", "_meta_attribute",
    "_character_encoding", "_min_value", "_max_value", "_null_value", "_header_length"]

/-- Whether a method is named like an accessor of an attribute. -/
def Code.Method.IsAccessorOf (property : String) (m : Method) : Prop :=
  ∃ suffix ∈ Codec.accessorEnds, m.name = property ++ suffix

theorem Code.Method.IsAccessorOf.name_ne {property : String} {m : Method} (h : m.IsAccessorOf property)
    {name : String} (hname : name ∈ Bodies.methodNames) : m.name ≠ name := by
  obtain ⟨suffix, hsuffix, hm⟩ := h
  intro heq
  have hends : suffix.toList <:+ name.toList := by
    rw [← heq, hm, String.toList_append]
    exact List.suffix_append ..
  have hnone : ∀ suffix ∈ Codec.accessorEnds, ∀ name ∈ Bodies.methodNames,
      ¬ suffix.toList <:+ name.toList := by
    decide +kernel
  exact hnone suffix hsuffix name hname hends

namespace Codec

/-- No end of an accessor ends in another one. -/
theorem eq_of_accessorEnd_suffix : ∀ s ∈ accessorEnds, ∀ t ∈ accessorEnds, s.toList <:+ t.toList → s = t := by
  decide +kernel

/-- Accessors of one name are accessors of one attribute. -/
theorem append_accessorEnd_inj {p q s t : String} (hs : s ∈ accessorEnds) (ht : t ∈ accessorEnds)
    (h : p ++ s = q ++ t) : p = q ∧ s = t := by
  have hlist : p.toList ++ s.toList = q.toList ++ t.toList := by
    rw [← String.toList_append, h, String.toList_append]
  -- Two ends of one text: the shorter one is an end of the longer one.
  have hend : s = t := by
    rcases List.suffix_or_suffix_of_suffix (List.suffix_append p.toList s.toList)
        (hlist ▸ List.suffix_append q.toList t.toList) with hst | hts
    · exact eq_of_accessorEnd_suffix s hs t ht hst
    · exact (eq_of_accessorEnd_suffix t ht s hs hts).symm
  subst hend
  exact ⟨String.toList_inj.mp (List.append_cancel_right hlist), rfl⟩

theorem isAccessorOf_append (property : String) {suffix : String} (h : suffix ∈ accessorEnds)
    {m : Method} (hm : m.name = property ++ suffix) : m.IsAccessorOf property :=
  ⟨suffix, h, hm⟩

theorem isAccessorOf_idAccessor (property : String) (t : Token) :
    (idAccessor property t).IsAccessorOf property :=
  isAccessorOf_append property (by decide) rfl

theorem isAccessorOf_metaAccessor (property : String) (e : Encoding) :
    (metaAccessor property e).IsAccessorOf property :=
  isAccessorOf_append property (by decide) rfl

theorem isAccessorOf_characterEncodingAccessor (property : String) (e : Encoding) :
    (characterEncodingAccessor property e).IsAccessorOf property :=
  isAccessorOf_append property (by decide) rfl

theorem isAccessorOf_versionAccessors (property : String) (t : Token) :
    ∀ m ∈ versionAccessors property t, m.IsAccessorOf property := by
  rw [versionAccessors]
  simp only [List.forall_mem_cons, List.not_mem_nil, false_imp_iff, implies_true, and_true]
  exact ⟨isAccessorOf_append property (by decide) rfl, isAccessorOf_append property (by decide) rfl,
    isAccessorOf_append property (by decide) rfl⟩

theorem isAccessorOf_boundAccessors (property : String) (b : Bounds) :
    ∀ m ∈ boundAccessors property b, m.IsAccessorOf property := by
  rw [boundAccessors]
  simp only [List.forall_mem_cons, List.not_mem_nil, false_imp_iff, implies_true, and_true]
  exact ⟨isAccessorOf_append property (by decide) rfl, isAccessorOf_append property (by decide) rfl,
    isAccessorOf_append property (by decide) rfl⟩

theorem isAccessorOf_fieldAccessors (property : String) (field : Token) :
    ∀ m ∈ fieldAccessors property field, m.IsAccessorOf property := by
  rw [fieldAccessors]
  split
  · refine List.forall_mem_cons.mpr ⟨isAccessorOf_idAccessor .., List.forall_mem_append.mpr ⟨?_, ?_⟩⟩
    · exact isAccessorOf_versionAccessors _ _
    · rintro m hm
      rw [List.mem_singleton.mp hm]
      exact isAccessorOf_metaAccessor ..
  · exact isAccessorOf_versionAccessors _ _

end Codec

/-- All accessors of a step are named for the attribute that the step is about. -/
theorem Step.isAccessorOf_bodies {s : Step} {owner : String} {isExtensible : Bool} {notes : List Note}
    {b : Bodies} (h : (s.bodies owner isExtensible).Yields notes b) :
    ∀ m ∈ b.accessors, ∃ property ∈ s.attribute?, m.IsAccessorOf property := by
  -- All accessors of one step are named for the same attribute, so it is given once.
  have hof {property : String} (hproperty : s.attribute? = some property)
      (hall : ∀ m ∈ b.accessors, m.IsAccessorOf property) :
      ∀ m ∈ b.accessors, ∃ property ∈ s.attribute?, m.IsAccessorOf property :=
    fun m hm => ⟨property, hproperty, hall m hm⟩
  cases s with
  | gap size since trailing =>
    obtain ⟨-, rfl | ⟨-, rfl⟩⟩ := Codec.yields_gapBodies h <;> simp
  | primitive field encoding =>
    obtain ⟨type, bounds, texts, inner, -, -, -, htexts, rfl, -⟩ := Codec.yields_primitiveBodies h
    refine hof rfl (List.forall_mem_append.mpr ⟨List.forall_mem_append.mpr ⟨?_, ?_⟩, ?_⟩)
    · exact Codec.isAccessorOf_fieldAccessors _ _
    · exact Codec.isAccessorOf_boundAccessors _ _
    · rcases htexts with rfl | rfl
      · simp
      · simpa using Codec.isAccessorOf_characterEncodingAccessor ..
  | typed construct typeName field type nested =>
    obtain ⟨_, _, -, -, rfl⟩ := Codec.yields_typedBodies h
    exact hof rfl (Codec.isAccessorOf_fieldAccessors _ _)
  | extensionSkip known =>
    obtain ⟨-, ⟨_, rfl⟩ | ⟨_, _, rfl⟩⟩ := Codec.yields_skipBodies h <;> simp
  | group token blockLength numInGroup element =>
    obtain ⟨_, _, _, -, -, -, hb⟩ := Codec.yields_groupBodies h
    refine hof rfl ?_
    rw [hb.accessors]
    exact List.forall_mem_cons.mpr
      ⟨Codec.isAccessorOf_idAccessor .., Codec.isAccessorOf_versionAccessors _ _⟩
  | varData token length data =>
    obtain ⟨_, _, _, -, -, -, hb⟩ := Codec.yields_varDataBodies h
    refine hof rfl ?_
    rw [hb.accessors]
    refine List.forall_mem_cons.mpr
      ⟨Codec.isAccessorOf_idAccessor .., List.forall_mem_append.mpr ⟨?_, ?_⟩⟩
    · exact Codec.isAccessorOf_versionAccessors _ _
    · simp only [List.forall_mem_cons, List.not_mem_nil, false_imp_iff, implies_true, and_true]
      exact ⟨Codec.isAccessorOf_metaAccessor .., Codec.isAccessorOf_characterEncodingAccessor ..,
        Codec.isAccessorOf_append _ (by decide) rfl⟩
  | encodeValidation =>
    rw [← yields_pure.mp h]
    simp [Codec.encodeValidationBodies]
  | decodeValidation =>
    rw [← yields_pure.mp h]
    simp [Codec.decodeValidationBodies]

namespace Plan

variable {e : Edition} {notes : List Note} {p : Plan} {c : ClassDef} {bodies : List Bodies}

/-- The accessors of the steps come last among the methods of a class. -/
theorem Emitted.methods_eq (h : p.Emitted e notes c bodies) :
    ∃ front, c.methods = front ++ bodies.flatMap Bodies.accessors := by
  have hclass := h.classOf
  rw [Plan.classOf] at hclass
  obtain ⟨doc, -, hclass⟩ := Option.bind_eq_some_iff.mp hclass
  obtain ⟨numbers, -, hclass⟩ := Option.bind_eq_some_iff.mp hclass
  obtain rfl := Option.some.inj hclass
  exact ⟨_, by rw [Bodies.accessors_join]⟩

theorem Emitted.isAccessorOf (h : p.Emitted e notes c bodies) :
    ∀ m ∈ bodies.flatMap Bodies.accessors, ∃ property, m.IsAccessorOf property := by
  intro m hm
  obtain ⟨b, hb, hm⟩ := List.mem_flatMap.mp hm
  obtain ⟨s, -, hs⟩ := exists_of_forall₂_right h.steps hb
  obtain ⟨property, -, hproperty⟩ := Step.isAccessorOf_bodies hs m hm
  exact ⟨property, hproperty⟩

theorem numberMethods_name_ne {numbers : List Method} (h : p.numberMethods e = some numbers) {name : String}
    (hname : name ∈ Bodies.methodNames) : ∀ m ∈ numbers, m.name ≠ name := by
  have hother : ∀ number ∈ numberNames, number ≠ name := by
    revert name
    decide
  exact forall_numberMethods (fun number hnumber _ => hother number hnumber)
    (fun number hnumber _ => hother number hnumber) h

/-- **The five methods of a class are what the steps add up to**, and the first one calls the last. -/
structure Written (c : ClassDef) (bodies : List Bodies) : Prop where
  zero : c.bodyOf "__init__" = bodies.flatMap Bodies.zero ++ [.run (.call (.own "init") [])]
  encode : c.bodyOf "encode" = bodies.flatMap Bodies.encode
  decode : c.bodyOf "decode" = bodies.flatMap Bodies.decode
  rangeCheck : c.bodyOf "range_check" = bodies.flatMap Bodies.rangeCheck
  init : c.bodyOf "init" = bodies.flatMap Bodies.init

theorem Emitted.written (h : p.Emitted e notes c bodies) : Written c bodies := by
  have hclass := h.classOf
  rw [Plan.classOf] at hclass
  obtain ⟨doc, -, hclass⟩ := Option.bind_eq_some_iff.mp hclass
  obtain ⟨numbers, hnumbers, hclass⟩ := Option.bind_eq_some_iff.mp hclass
  obtain rfl := Option.some.inj hclass
  -- From the back, neither an accessor nor a method that tells a number has one of the five names.
  have haccessors (name : String) (hname : name ∈ Bodies.methodNames) :
      ((bodies.flatMap Bodies.accessors).reverse.find? fun m => m.name == name) = none := by
    rw [List.find?_eq_none]
    intro m hm
    obtain ⟨property, hproperty⟩ := h.isAccessorOf m (List.mem_reverse.mp hm)
    simpa using hproperty.name_ne hname
  have hnone (name : String) (hname : name ∈ Bodies.methodNames) :
      (numbers.reverse.find? fun m => m.name == name) = none := by
    rw [List.find?_eq_none]
    intro m hm
    simpa using numberMethods_name_ne hnumbers hname m (List.mem_reverse.mp hm)
  constructor
  all_goals
    simp only [ClassDef.bodyOf, List.reverse_append, List.find?_append, Bodies.accessors_join]
    rw [haccessors _ (by decide), hnone _ (by decide)]
    simp [Method.static, objectMethods]

/-- **What holds of each step and what it is rendered to holds of the classes of a walk**: those of the plan
and of all plans inside it, each of which is again the plan of a walk. -/
theorem Walked.classes_of_steps {P : Plan → List Token → Step → Bodies → Prop}
    (hstep : ∀ {blank ts q notes s b}, blank.steps = [] → blank.ofTokens ts = .ok q → s ∈ q.steps →
      (s.bodies q.typeName q.isExtensible).Yields notes b → P blank ts s b)
    {cs : List ClassDef} (hwalked : p.Walked) (h : (p.classes e).outcome = .ok cs) :
    List.Forall₂ (fun q c => ∃ blank ts bodies, blank.steps = [] ∧ blank.ofTokens ts = .ok q ∧
      Written c bodies ∧ List.Forall₂ (P blank ts) q.steps bodies) p.plans cs := by
  have hemitted := emitted_classes (yields_self h)
  refine List.forall₂_iff_get.mpr ⟨hemitted.length_eq, fun i hi hc => ?_⟩
  obtain ⟨bodies, hbodies⟩ := hemitted.get hi hc
  obtain ⟨blank, ts, hblank, hwalk⟩ := hwalked.plans _ (List.get_mem p.plans ⟨i, hi⟩)
  refine ⟨blank, ts, bodies, hblank, hwalk, hbodies.written, ?_⟩
  refine List.forall₂_iff_get.mpr ⟨hbodies.steps.length_eq, fun k hk hb => ?_⟩
  exact hstep hblank hwalk (List.get_mem _ ⟨k, hk⟩) (hbodies.steps.get hk hb)

end Plan

end SimpleBinary

import SimpleBinary.Proofs.Package.Siblings

/-!
The names of the classes of a package.

A class is named by its path: the name of its entity, and behind it the names of the groups and member
composites on the way, with nothing between them. All names of a plan begin with that of the entity, so the
names of two plans can only meet where one of these begins with the other (`Plan.not_mem_of_begins`). A
package refuses two modules of one name, and nothing else. If the parts of each plan and the entities of a
schema leave the names of one another free (`Schema.NamesApart`), all classes have different names
(`Schema.class_names_nodup`); if not, one class can hide another (`Schema.tradeSchema_hides`).
-/

set_option autoImplicit false

namespace SimpleBinary

open Code Emission
open Package (Module)

/-! ## Names of a plan -/

/-- Whether a name begins with another one. -/
def BeginsWith (name stem : String) : Prop :=
  stem.toList <+: name.toList

instance (name stem : String) : Decidable (BeginsWith name stem) :=
  inferInstanceAs (Decidable (stem.toList <+: name.toList))

theorem BeginsWith.eq_of_both {a b : String} (h : BeginsWith a b) (h' : BeginsWith b a) : a = b :=
  String.toList_inj.mp (h'.eq_of_length_le h.length_le)

/-- Names that begin with different names differ, if neither begins with the other, unless it is the only
name that begins so. -/
theorem disjoint_of_begins {a b : String} {as bs : List String} (ha : ∀ name ∈ as, BeginsWith name a)
    (hb : ∀ name ∈ bs, BeginsWith name b) (hne : a ≠ b) (hab : as = [a] ∨ ¬ BeginsWith b a)
    (hba : bs = [b] ∨ ¬ BeginsWith a b) : as.Disjoint bs := by
  -- One of the two begins a name of its own that begins with the other one.
  have hone {a b : String} {as : List String} (hne : a ≠ b) (hab : as = [a] ∨ ¬ BeginsWith b a)
      (hbegins : BeginsWith b a) {name : String} (hname : name ∈ as) (hb : BeginsWith name b) : False := by
    rw [hab.resolve_right (not_not_intro hbegins), List.mem_singleton] at hname
    subst hname
    exact hne (hb.eq_of_both hbegins)
  intro name hname hname'
  rcases List.prefix_or_prefix_of_prefix (ha name hname) (hb name hname') with h | h
  · exact hone hne hab h hname (hb name hname')
  · exact hone hne.symm hba h hname' (ha name hname)

namespace Plan

/-- The plans that the steps of a plan hold. -/
def parts (p : Plan) : List Plan :=
  p.steps.filterMap Step.inner?

/-- The names of the classes of a plan and of all plans inside it. -/
def classNames (p : Plan) : List String :=
  p.plans.map typeName

/-- Whether a plan leaves a name free: it has another name, and if it has parts, which are named like it with
something behind, the name does not begin with that of the plan. -/
def LeavesFree (p : Plan) (name : String) : Prop :=
  name ≠ p.typeName ∧ (p.parts = [] ∨ ¬ BeginsWith name p.typeName)

/-- Whether the names of the parts of a plan stay apart: none is that of the plan, and any two parts leave
the names of one another free. -/
structure PartsApart (p : Plan) : Prop where
  longer : ∀ q ∈ p.parts, q.typeName ≠ p.typeName
  apart : p.parts.Pairwise fun q r => q.LeavesFree r.typeName ∧ r.LeavesFree q.typeName

instance (p : Plan) (name : String) : Decidable (p.LeavesFree name) :=
  inferInstanceAs (Decidable (_ ∧ _))

instance (p : Plan) : Decidable p.PartsApart :=
  decidable_of_iff ((∀ q ∈ p.parts, q.typeName ≠ p.typeName) ∧
    p.parts.Pairwise fun q r => q.LeavesFree r.typeName ∧ r.LeavesFree q.typeName)
    ⟨fun ⟨longer, apart⟩ => ⟨longer, apart⟩, fun ⟨longer, apart⟩ => ⟨longer, apart⟩⟩

section

variable {p q : Plan}

theorem mem_parts : q ∈ p.parts ↔ ∃ s ∈ p.steps, q ∈ s.inner? :=
  List.mem_filterMap

theorem innerPlans_eq (steps : List Step) :
    innerPlans steps = (steps.filterMap Step.inner?).flatMap plans := by
  induction steps with
  | nil => rfl
  | cons s rest ih => cases h : s.inner? <;> simp [innerPlans_cons, h, ih]

/-- The names of a plan are its own and those of its parts. -/
theorem classNames_eq (p : Plan) : p.classNames = p.typeName :: p.parts.flatMap classNames := by
  rw [classNames, plans_eq, innerPlans_eq, List.map_cons, List.map_flatMap]
  rfl

theorem classNames_of_parts_nil (h : p.parts = []) : p.classNames = [p.typeName] := by
  rw [classNames_eq, h]
  rfl

/-- All names of a plan begin with that of the plan. -/
theorem Walked.beginsWith (h : p.Walked) : ∀ name ∈ p.classNames, BeginsWith name p.typeName := by
  refine List.forall_mem_map.mpr (h.typeName_induction (P := (BeginsWith · p.typeName))
    (fun stem part hstem => hstem.trans ?_) List.prefix_rfl)
  rw [String.toList_append]
  exact List.prefix_append ..

/-- A part is named like its plan, with something behind it. -/
theorem Walked.length_part (h : p.Walked) (hq : q ∈ p.parts) (hlonger : q.typeName ≠ p.typeName) :
    p.typeName.toList.length < q.typeName.toList.length := by
  obtain ⟨s, hs, hinner⟩ := mem_parts.mp hq
  obtain ⟨part, hpart⟩ := h.exists_part s hs q hinner
  rw [hpart, String.toList_append, List.length_append]
  have hpos : 0 < (Identifier.typeName part.name).toList.length := by
    refine List.length_pos_iff.mpr fun hnil => hlonger ?_
    rw [hpart, String.toList_eq_nil_iff.mp hnil, String.append_empty]
  omega

end

/-- What a plan has apart from a name that it leaves free. -/
theorem LeavesFree.classNames {p : Plan} {name : String} (h : p.LeavesFree name) :
    p.classNames = [p.typeName] ∨ ¬ BeginsWith name p.typeName :=
  h.2.imp_left classNames_of_parts_nil

/-- **All classes of a plan have different names** if the parts of the plan, and those of the plans inside it,
stay apart. -/
theorem classNames_nodup {p : Plan} (h : p.Walked) (hapart : ∀ q ∈ p.plans, q.PartsApart) :
    p.classNames.Nodup := by
  -- The names of each part differ by induction, and those of two parts as the parts stay apart.
  induction p using inner_induction with
  | h p ih =>
    have hwalked {q : Plan} (hq : q ∈ p.parts) : q.Walked := by
      obtain ⟨s, hs, hinner⟩ := mem_parts.mp hq
      exact walked_of_inner? (h.recorded s hs) hinner
    obtain ⟨hlonger, hparts⟩ := hapart p (self_mem_plans p)
    rw [classNames_eq, List.nodup_cons, List.nodup_flatMap]
    refine ⟨?longer, ?each, ?apart⟩
    case longer =>
      intro hname
      obtain ⟨q, hq, hname⟩ := List.mem_flatMap.mp hname
      have hlt := h.length_part hq (hlonger q hq)
      have hle := ((hwalked hq).beginsWith _ hname).length_le
      omega
    case each =>
      intro q hq
      obtain ⟨s, hs, hinner⟩ := mem_parts.mp hq
      refine ih s hs q hinner (hwalked hq) fun r hr => hapart r ?_
      rw [plans_eq, innerPlans_eq]
      exact List.mem_cons_of_mem _ (List.mem_flatMap.mpr ⟨q, hq, hr⟩)
    case apart =>
      refine hparts.imp_of_mem fun {q r} hq hr => ?_
      rintro ⟨hqr, hrq⟩
      exact disjoint_of_begins (hwalked hq).beginsWith (hwalked hr).beginsWith hrq.1 hqr.classNames
        hrq.classNames

end Plan

/-- The classes of a plan are named as the plans are. -/
theorem Plan.names_classes {e : Edition} {p : Plan} {cs : List ClassDef}
    (h : (p.classes e).outcome = .ok cs) : cs.map ClassDef.name = p.classNames := by
  have hemitted := emitted_classes (yields_self h)
  clear h
  rw [classNames]
  generalize p.plans = plans at hemitted
  induction hemitted with
  | nil => rfl
  | cons hbodies _ ih =>
    obtain ⟨bodies, hbodies⟩ := hbodies
    rw [List.map_cons, List.map_cons, ih, name_classOf hbodies.classOf]

/-! ## Classes of modules -/

namespace Schema

/-- Whether the names of all classes of a schema stay apart: in each plan those of its parts, and those of
its entities among one another. -/
structure NamesApart (s : Schema) : Prop where
  parts : ∀ p ∈ s.plans, ∀ q ∈ p.plans, q.PartsApart
  entities : ∀ p ∈ s.plans, ∀ name ∈ s.entityNames, name ≠ p.typeName → p.LeavesFree name

instance (s : Schema) : Decidable s.NamesApart :=
  decidable_of_iff ((∀ p ∈ s.plans, ∀ q ∈ p.plans, q.PartsApart) ∧
    ∀ p ∈ s.plans, ∀ name ∈ s.entityNames, name ≠ p.typeName → p.LeavesFree name)
    ⟨fun ⟨parts, entities⟩ => ⟨parts, entities⟩, fun ⟨parts, entities⟩ => ⟨parts, entities⟩⟩

/-- Whether a module is named for a class of a schema, exports no classes but its own, and these are the one
that it is named for or those of a plan. -/
structure Named (s : Schema) (typeName : String) (m : Module) : Prop where
  known : typeName ∈ s.entityNames
  name_eq : m.name = Identifier.moduleName typeName
  classes : m.classes.map ClassDef.name = [typeName] ∨
    ∃ p ∈ s.plans, p.Walked ∧ p.typeName = typeName ∧ m.classes.map ClassDef.name = p.classNames
  defined : ∀ name ∈ m.imports.defined, name ∈ m.classes.map ClassDef.name

variable {s : Schema} {typeName : String} {m : Module}

/-- The module of an entity has the classes of the entity. -/
theorem HasEntity.named {entity : Entity} (h : s.HasEntity entity) (hmodules : entity.modules = .ok [m]) :
    s.Named entity.typeName m := by
  obtain ⟨classes, hclasses, hm⟩ := Entity.modules_ok hmodules
  obtain rfl := List.singleton_inj.mp hm
  -- What the module exports is what is noted for it.
  have hdefined (hnotes : ∀ n ∈ entity.classes.notes, n.Linked (fun _ => True) (classes.map ClassDef.name)) :
      ∀ name ∈ (Imports.addAll {} entity.classes.notes).defined, name ∈ classes.map ClassDef.name := by
    intro name hname
    rcases Imports.mem_defined_addAll.mp hname with hname | hname
    · exact absurd hname (NameSet.not_mem_empty name)
    · exact (hnotes _ hname).2
  cases h with
  | planned hknown hline hplan =>
    obtain ⟨p, rfl, hemission⟩ := planClasses_ok hclasses
    obtain ⟨hmem, hwalked, rfl⟩ := hplan p rfl
    dsimp only at hclasses hdefined
    rw [hemission] at hclasses hdefined
    refine ⟨hknown, rfl, .inr ⟨p, hmem, hwalked, rfl, Plan.names_classes hclasses⟩, ?_⟩
    dsimp only
    rw [hemission]
    exact hdefined (p.notes_linked hwalked hline (fun _ _ _ _ => trivial) hclasses)
  | @single typeName _ _ f hknown hline hx =>
    obtain ⟨a, ha, rfl, hnotes⟩ := singleClass_ok hclasses
    obtain ⟨hname, -, -, honly⟩ := hx a ha
    have hnames : [f a].map ClassDef.name = [typeName] := by rw [List.map_singleton, hname]
    refine ⟨hknown, rfl, .inl hnames, hdefined fun n hn => ?_⟩
    rw [hnames]
    rcases honly.mem n (hnotes ▸ hn) with hplain | rfl
    · exact n.linked_of_isPlain hplain
    · exact ⟨hline, List.mem_singleton_self _⟩

/-! ## Classes of a package -/

/-- Where names stay apart, those of the classes of a module differ, they begin with that of the entity, and
names of other entities do not unless there is one class only. -/
theorem Named.names (h : s.Named typeName m) (hapart : s.NamesApart) :
    (m.classes.map ClassDef.name).Nodup ∧ (∀ name ∈ m.classes.map ClassDef.name, BeginsWith name typeName) ∧
      ∀ other ∈ s.entityNames, other ≠ typeName →
        m.classes.map ClassDef.name = [typeName] ∨ ¬ BeginsWith other typeName := by
  rcases h.classes with hone | ⟨p, hp, hwalked, rfl, hclasses⟩
  · rw [hone]
    exact ⟨List.nodup_singleton _, List.forall_mem_singleton.mpr List.prefix_rfl, fun _ _ _ => .inl rfl⟩
  · rw [hclasses]
    exact ⟨Plan.classNames_nodup hwalked (hapart.parts p hp), hwalked.beginsWith,
      fun other hother hne => (hapart.entities p hp other hother hne).classNames⟩

/-- **No class is hidden by another one.** Where the names of a schema stay apart, all classes of its package
have different names, in whatever modules they are, and each name that is exported is that of one class. -/
theorem class_names_nodup {p : Package} (h : s.Generates p) (hapart : s.NamesApart) :
    ∃ ms : List Module, p.exports = ms.map Module.entry ∧
      p.written = (supportModule, (supportSource : Text)) :: ms.map Module.file ++
        [("__init__", (initSource s.toEdition p.exports : Text))] ∧
      ((ms.flatMap Module.classes).map ClassDef.name).Nodup ∧
      ∀ m ∈ ms, ∀ name ∈ m.imports.defined, name ∈ m.classes.map ClassDef.name := by
  obtain ⟨ms, hms, hnodup, -, hexports, hwritten⟩ := generates_spec h
  have hnamed : ∀ m ∈ ms, ∃ typeName, s.Named typeName m := by
    intro m hm
    obtain ⟨entity, hentity, hmodules⟩ := (exists_entities hms).1 m hm
    exact ⟨entity.typeName, hentity.named hmodules⟩
  refine ⟨ms, hexports, hwritten, ?_, fun m hm => (hnamed m hm).choose_spec.defined⟩
  rw [List.map_flatMap, List.nodup_flatMap]
  constructor
  · intro m hm
    obtain ⟨typeName, hm⟩ := hnamed m hm
    exact (hm.names hapart).1
  · refine (List.pairwise_map.mp hnodup).imp_of_mem fun {m n} hm hn hne => ?_
    obtain ⟨a, hm⟩ := hnamed m hm
    obtain ⟨b, hn⟩ := hnamed n hn
    -- Entities of one name would have modules of one name.
    have hab : a ≠ b := by
      rintro rfl
      exact hne (hm.name_eq.trans hn.name_eq.symm)
    obtain ⟨-, hbegins, hfree⟩ := hm.names hapart
    obtain ⟨-, hbegins', hfree'⟩ := hn.names hapart
    exact disjoint_of_begins hbegins hbegins' hab (hfree b hn.known hab.symm) (hfree' a hm.known hab)

/-- The tokens of a group without fields, with groups inside it. -/
def tradeGroup (name : Text) (inner : List Token) : List Token :=
  { signal := .opens .group, name, tokenCount := some (6 + inner.length) } ::
  { signal := .opens .composite, name := "dimensions", encodedLength := some 4, tokenCount := some 4 } ::
  { signal := .encoding, name := "blockLength", encodedLength := some 2
    encoding := { primitive := some .uint16 } } ::
  { signal := .encoding, name := "numInGroup", encodedLength := some 2
    encoding := { primitive := some .uint16 } } ::
  { signal := .closes .composite, name := "dimensions", tokenCount := some 4 } :: inner ++ [
  { signal := .closes .group, name, tokenCount := some (6 + inner.length) }]

/-- A schema whose only message has the group of legs, each with its fees, and another group. -/
def tradeSchema (other : Text) : Schema :=
  { deskSchema with
    types := []
    messages := [
      { signal := .opens .message, name := "trade", tokenCount := some 20 } ::
        tradeGroup "legs" (tradeGroup "fees" []) ++ tradeGroup other [] ++ [
      { signal := .closes .message, name := "trade", tokenCount := some 20 }]] }

/-- The classes of trades with notes have different names. -/
theorem tradeSchema_class_names : ∃ p, (tradeSchema "notes").Generates p ∧ (tradeSchema "notes").NamesApart ∧
    ∃ ms : List Module, p.exports = ms.map Module.entry ∧
      p.written = (supportModule, (supportSource : Text)) :: ms.map Module.file ++
        [("__init__", (initSource (tradeSchema "notes").toEdition p.exports : Text))] ∧
      ((ms.flatMap Module.classes).map ClassDef.name).Nodup ∧
      ∀ m ∈ ms, ∀ name ∈ m.imports.defined, name ∈ m.classes.map ClassDef.name := by
  have hcomputed : ((tradeSchema "notes").modules.map (·.map Module.name)).toOption =
      some ["message_header", "trade"] := by
    decide +kernel
  obtain ⟨ms, p, hms, -, hp⟩ := exists_generates_of_names hcomputed (by decide) (by decide +kernel)
  have hapart : (tradeSchema "notes").NamesApart := by decide +kernel
  exact ⟨p, hp, hapart, class_names_nodup hp hapart⟩

/-- **One class can hide another.** The fees of the legs of a trade and a group called the fees of its legs
have classes of one name in one module, and the package is generated. -/
theorem tradeSchema_hides : ∃ ms p, (tradeSchema "legsFees").modules = .ok ms ∧
    (tradeSchema "legsFees").Generates p ∧
    ms.map (fun m => (m.name, m.classes.map ClassDef.name)) = [("message_header", ["MessageHeader"]),
      ("trade", ["Trade", "TradeLegs", "TradeLegsFees", "TradeLegsFees"])] := by
  have h : ((tradeSchema "legsFees").modules.map fun ms =>
      ms.map fun m => (m.name, m.classes.map ClassDef.name)).toOption = some [
        ("message_header", ["MessageHeader"]),
        ("trade", ["Trade", "TradeLegs", "TradeLegsFees", "TradeLegsFees"])] := by
    decide +kernel
  obtain ⟨ms, hms, hnames⟩ := exists_of_computed h
  have hmodules : ms.map Module.name = ["message_header", "trade"] := by
    have := congrArg (List.map Prod.fst) hnames
    rwa [List.map_map] at this
  obtain ⟨p, hp⟩ := exists_generates hms (hmodules ▸ by decide) (by decide +kernel)
  exact ⟨ms, p, hms, hp, hnames⟩

end Schema

end SimpleBinary

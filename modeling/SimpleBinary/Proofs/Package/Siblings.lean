import SimpleBinary.Proofs.Class.Completeness
import SimpleBinary.Proofs.Package.Lines

/-!
Imports from sibling modules.

A module imports the classes of its siblings by name, and the name of the sibling is worked out from that of
the class, apart from where the class is defined. What a module imports and defines is known from its notes
(`Package.Module.Linked`), for each kind of entity. If every class that a field refers to is that of a type of
the schema, the sibling is there, exports the class and defines it, in every module and in the one that
stands for the package (`Schema.sibling_imports_resolve`).

This is said of the lines of the printed text, so the names of messages and groups, which the sentence about
a class shows as they are, must be lines themselves: a line feed in such a name makes lines of its own.
-/

set_option autoImplicit false

namespace SimpleBinary

open Code Emission
open Package (Module)

/-! ## What modules import and define -/

/-- Whether the notes of a module are known: it needs standard modules and known classes, and defines some
classes. -/
def Note.Linked (known : String → Prop) (names : List String) : Note → Prop
  | .module name => name ∈ standardModules
  | .type name => IsLine name ∧ known name
  | .defined name => IsLine name ∧ name ∈ names
  | .helper _ | .warning _ => True

theorem Note.linked_of_isPlain {known : String → Prop} {names : List String} :
    ∀ n : Note, n.isPlain = true → n.Linked known names
  | .module _, h => List.contains_iff_mem.mp h
  | .helper _, _ | .warning _, _ => trivial

/-- Whether a module is printed on lines, imports known classes only, and defines the classes that it exports,
among them the one that it is named for. -/
structure Package.Module.Linked (known : String → Prop) (typeName : String) (m : Module) : Prop where
  name_eq : m.name = Identifier.moduleName typeName
  printed : ∀ c ∈ m.classes, c.Printed
  modules : ∀ name ∈ m.imports.modules, name ∈ standardModules
  helpers : ∀ name ∈ m.imports.helpers, ∃ helper : Helper, helper.name = name
  types : ∀ name ∈ m.imports.types, IsLine name ∧ known name
  defined : ∀ name ∈ m.imports.defined, IsLine name ∧ name ∈ m.classes.map ClassDef.name
  self_defined : typeName ∈ m.imports.defined

/-- The module of an entity is linked if its notes are. -/
theorem Package.Module.linked_of_notes {known : String → Prop} (entity : Entity) {classes : List ClassDef}
    (hnotes : ∀ n ∈ entity.classes.notes, n.Linked known (classes.map ClassDef.name))
    (hself : .defined entity.typeName ∈ entity.classes.notes) (hprinted : ∀ c ∈ classes, c.Printed) :
    Linked known entity.typeName {
      name := Identifier.moduleName entity.typeName
      imports := Imports.addAll {} entity.classes.notes
      classes } where
  name_eq := rfl
  printed := hprinted
  modules name hname := by
    rcases Imports.mem_modules_addAll.mp hname with hname | hname
    · exact absurd hname (NameSet.not_mem_empty name)
    · exact hnotes _ hname
  helpers name hname := by
    rcases Imports.mem_helpers_addAll.mp hname with hname | ⟨helper, -, hhelper⟩
    · exact absurd hname (NameSet.not_mem_empty name)
    · exact ⟨helper, hhelper⟩
  types name hname := by
    rcases Imports.mem_of_mem_types_addAll hname with hname | hname
    · exact absurd hname (NameSet.not_mem_empty name)
    · exact hnotes _ hname
  defined name hname := by
    rcases Imports.mem_defined_addAll.mp hname with hname | hname
    · exact absurd hname (NameSet.not_mem_empty name)
    · exact hnotes _ hname
  self_defined := Imports.mem_defined_addAll.mpr (.inr hself)

namespace Package.Module

variable {known : String → Prop} {typeName : String} {m : Module}

/-- The import lines of a linked module are lines. -/
theorem Linked.isLine_of_mem_lines (h : m.Linked known typeName) : ∀ l ∈ m.imports.lines, IsLine l := by
  -- Both kinds of imports from the package have this form.
  have hfrom {module : String} {names : NameSet} (hmodule : IsLine module)
      (hnames : ∀ name ∈ names, IsLine name) : IsLine (Imports.lineFrom module names) := by
    have htexts : IsLine (", ".intercalate names.toList) :=
      isLine_commas fun name hname => hnames name (NameSet.mem_toList.mp hname)
    simp +decide [Imports.lineFrom, hmodule, htexts]
  refine Imports.forall_mem_lines ?standard (by decide) (Imports.forall_mem_packageLines ?support ?siblings)
  case standard =>
    intro name hname
    refine isLine_append.mpr ⟨by decide, ?_⟩
    exact (by decide : ∀ name ∈ standardModules, IsLine name) name (h.modules name hname)
  case support =>
    refine hfrom (by decide) fun name hname => ?_
    obtain ⟨helper, rfl⟩ := h.helpers name hname
    exact Codec.onLine_helper helper
  case siblings =>
    intro module hmodule
    obtain ⟨name, -, rfl⟩ := Imports.mem_siblings.mp hmodule
    refine hfrom (Identifier.isLine_moduleName _) fun other hother => ?_
    exact (h.types other (Imports.mem_typesFrom.mp hother).1).1

end Package.Module

/-! ## Modules of entities -/

namespace Plan

/-- What a plan refers to are the names of classes. -/
theorem eq_typeName_of_mem_references {p : Plan} {name : String} (h : name ∈ p.references) :
    ∃ text, name = Identifier.typeName text := by
  obtain ⟨s, -, hs⟩ := List.mem_filterMap.mp h
  unfold Step.reference? at hs
  split at hs
  · exact ⟨_, (Option.some.inj hs).symm⟩
  · cases hs

variable {known : String → Prop} {e : Edition} {p : Plan} {cs : List ClassDef}

/-- The notes of the classes of a plan are known if what the plan refers to is. -/
theorem notes_linked (hwalked : p.Walked) (hname : IsLine p.typeName)
    (hknown : ∀ q ∈ p.plans, ∀ name ∈ q.references, known name) (h : (p.classes e).outcome = .ok cs) :
    ∀ n ∈ (p.classes e).notes, n.Linked known (cs.map ClassDef.name) := by
  refine (notesOnly_classes Note.linked_of_isPlain fun q hq => ⟨⟨?_, ?_⟩, fun name href => ⟨?_, ?_⟩⟩).mem
  · exact hwalked.isLine_typeName hname q hq
  · obtain ⟨c, hc, bodies, hbodies⟩ := exists_of_forall₂_left (emitted_classes (yields_self h)) hq
    exact List.mem_map.mpr ⟨c, hc, name_classOf hbodies.classOf⟩
  · obtain ⟨text, rfl⟩ := eq_typeName_of_mem_references href
    exact Identifier.isLine_typeName text
  · exact hknown q hq name href

/-- The class of a plan is defined. -/
theorem defined_mem_notes (h : (p.classes e).outcome = .ok cs) :
    .defined p.typeName ∈ (p.classes e).notes := by
  obtain ⟨c, -, bodies, hbodies⟩ :=
    exists_of_forall₂_left (emitted_classes (yields_self h)) (self_mem_plans p)
  exact hbodies.defined

end Plan

theorem planClasses_ok {e : Edition} {plan : Except Fault Plan} {cs : List ClassDef}
    (h : (planClasses e plan).outcome = .ok cs) : ∃ p, plan = .ok p ∧ planClasses e plan = p.classes e := by
  cases plan with
  | error fault => cases h
  | ok p => exact ⟨p, rfl, rfl⟩

theorem Entity.modules_ok {entity : Entity} {ms : List Module} (h : entity.modules = .ok ms) :
    ∃ classes, entity.classes.outcome = .ok classes ∧ ms = [{
      name := Identifier.moduleName entity.typeName
      imports := Imports.addAll {} entity.classes.notes
      classes }] := by
  obtain ⟨classes, hclasses, h⟩ := except_bind_ok h
  exact ⟨classes, hclasses, (Except.ok.inj h).symm⟩

/-- The module of an entity with a plan is linked if what the plan refers to is known, and the names that its
classes show are lines. -/
theorem Entity.linked_of_plan {known : String → Prop} {e : Edition} {typeName : String}
    {plan : Except Fault Plan} {ms : List Module} (hname : IsLine typeName)
    (hplan : ∀ p, plan = .ok p → p.Walked ∧ p.typeName = typeName ∧ ∀ q ∈ p.plans,
      (∀ name ∈ q.references, known name) ∧
      (q.kind ≠ .composite → ∀ t ∈ q.token, CodePoint.char '\n' ∉ t.name))
    (h : Entity.modules ⟨typeName, planClasses e plan⟩ = .ok ms) :
    ∃ m, ms = [m] ∧ m.Linked known typeName := by
  obtain ⟨classes, hclasses, rfl⟩ := modules_ok h
  refine ⟨_, rfl, ?_⟩
  obtain ⟨p, rfl, hemission⟩ := planClasses_ok hclasses
  obtain ⟨hwalked, rfl, hplans⟩ := hplan p rfl
  dsimp only at hclasses
  rw [hemission] at hclasses
  refine Package.Module.linked_of_notes ⟨p.typeName, planClasses e (.ok p)⟩ ?_ ?_ ?_
  · rw [hemission]
    exact p.notes_linked hwalked hname (fun q hq => (hplans q hq).1) hclasses
  · rw [hemission]
    exact p.defined_mem_notes hclasses
  · exact p.printed_classes hwalked hname (fun q hq => (hplans q hq).2) hclasses

/-- An emission of one class. -/
theorem singleClass_ok {α : Type} {x : Emission α} {f : α → ClassDef} {classes : List ClassDef}
    (h : (do return [f (← x)] : Emission (List ClassDef)).outcome = .ok classes) :
    ∃ a, x.outcome = .ok a ∧ classes = [f a] ∧
      (do return [f (← x)] : Emission (List ClassDef)).notes = x.notes := by
  cases ha : x.outcome with
  | error fault =>
    rw [bind_of_error _ ha] at h
    cases h
  | ok a =>
    rw [bind_of_ok _ ha] at h
    refine ⟨a, rfl, (Except.ok.inj h).symm, ?_⟩
    rw [bind_of_ok _ ha]
    exact List.append_nil _

/-- The module of an entity with one class is linked if it notes that class and needs no other. -/
theorem Entity.linked_of_singleClass {known : String → Prop} {typeName : String} {α : Type} {x : Emission α}
    {f : α → ClassDef} {ms : List Module} (hline : IsLine typeName)
    (hx : ∀ a, x.outcome = .ok a → (f a).name = typeName ∧ (f a).Printed ∧ .defined typeName ∈ x.notes ∧
      x.NotesOnly fun n => n.isPlain = true ∨ n = .defined typeName)
    (h : Entity.modules ⟨typeName, do return [f (← x)]⟩ = .ok ms) :
    ∃ m, ms = [m] ∧ m.Linked known typeName := by
  obtain ⟨classes, hclasses, rfl⟩ := modules_ok h
  refine ⟨_, rfl, ?_⟩
  obtain ⟨a, ha, rfl, hnotes⟩ := singleClass_ok hclasses
  obtain ⟨hname, hprinted, hdefined, honly⟩ := hx a ha
  refine Package.Module.linked_of_notes ⟨typeName, do return [f (← x)]⟩ ?_ ?_ ?_
  · rw [hnotes]
    intro n hn
    rcases honly.mem n hn with hplain | rfl
    · exact n.linked_of_isPlain hplain
    · exact ⟨hline, List.mem_map.mpr ⟨f a, List.mem_singleton_self _, hname⟩⟩
  · rw [hnotes]
    exact hdefined
  · exact List.forall_mem_singleton.mpr hprinted

/-! ## Modules of a schema -/

namespace Schema

/-- The plan of a composite, unless it is the header. -/
def compositePlan? (ts : List Token) : Option Plan := do
  let first ← ts.head?
  let typeName ← (Codec.definedName first).toOption
  guard (first.signal = .opens .composite ∧ typeName ≠ headerType)
  (Plan.ofComposite typeName ts).toOption

/-- The plan of a message. -/
def messagePlan? (ts : List Token) : Option Plan := do
  let first ← ts.head?
  (Plan.ofMessage (Identifier.typeName first.name) ts).toOption

/-- The plans of the header, the composites and the messages of a schema. -/
def plans (s : Schema) : List Plan :=
  (Plan.ofComposite headerType s.header.tokens).toOption.toList ++
    s.types.filterMap compositePlan? ++ s.messages.filterMap messagePlan?

/-- The names of the classes of the types of a schema. -/
def definedNames (s : Schema) : List String :=
  s.types.filterMap fun ts => ts.head?.bind fun first => (Codec.definedName first).toOption

/-- The names of the classes that the modules of a schema are named for. -/
def entityNames (s : Schema) : List String :=
  headerType :: (s.definedNames ++
    s.messages.filterMap fun ts => ts.head?.map fun first => Identifier.typeName first.name)

/-- Whether all classes that the fields of a schema refer to are those of types of the schema. -/
def IsClosed (s : Schema) : Prop :=
  ∀ p ∈ s.plans, ∀ q ∈ p.plans, ∀ name ∈ q.references, name ∈ s.definedNames

/-- Whether the names of messages and groups, which the classes show, are lines. -/
def ShowsLines (s : Schema) : Prop :=
  ∀ p ∈ s.plans, ∀ q ∈ p.plans, q.kind ≠ .composite → ∀ t ∈ q.token, CodePoint.char '\n' ∉ t.name

instance (s : Schema) : Decidable s.IsClosed :=
  inferInstanceAs (Decidable (∀ p ∈ s.plans, ∀ q ∈ p.plans, ∀ name ∈ q.references, name ∈ s.definedNames))

instance (s : Schema) : Decidable s.ShowsLines :=
  inferInstanceAs (Decidable (∀ p ∈ s.plans, ∀ q ∈ p.plans, q.kind ≠ .composite →
    ∀ t ∈ q.token, CodePoint.char '\n' ∉ t.name))

section

variable {s : Schema} {p : Plan}

/-- The plans of a schema are that of its header, those of its composites and those of its messages. -/
theorem mem_plans : p ∈ s.plans ↔ Plan.ofComposite headerType s.header.tokens = .ok p ∨
    (∃ ts ∈ s.types, ∃ first ∈ ts.head?, ∃ typeName, Codec.definedName first = .ok typeName ∧
      (first.signal = .opens .composite ∧ typeName ≠ headerType) ∧ Plan.ofComposite typeName ts = .ok p) ∨
    ∃ ts ∈ s.messages, ∃ first ∈ ts.head?, Plan.ofMessage (Identifier.typeName first.name) ts = .ok p := by
  simp [plans, compositePlan?, messagePlan?, Option.bind_eq_some_iff, toOption_eq_some]

theorem mem_definedNames {name : String} : name ∈ s.definedNames ↔
    ∃ ts ∈ s.types, ∃ first ∈ ts.head?, Codec.definedName first = .ok name := by
  simp [definedNames, List.mem_filterMap, Option.bind_eq_some_iff, toOption_eq_some]

end

variable {s : Schema} {ms : List Module}

/-- The entities of a schema: those with a plan, which is one of the plans of the schema, and those with one
class, which is all that is noted apart from helpers, warnings and standard modules. -/
inductive HasEntity (s : Schema) : Entity → Prop
  | planned {typeName : String} {plan : Except Fault Plan} : typeName ∈ s.entityNames → IsLine typeName →
      (∀ p, plan = .ok p → p ∈ s.plans ∧ p.Walked ∧ p.typeName = typeName) →
      HasEntity s ⟨typeName, planClasses s.toEdition plan⟩
  | single {typeName : String} {α : Type} {x : Emission α} {f : α → ClassDef} : typeName ∈ s.entityNames →
      IsLine typeName → (∀ a, x.outcome = .ok a → (f a).name = typeName ∧ (f a).Printed ∧
        .defined typeName ∈ x.notes ∧ x.NotesOnly fun n => n.isPlain = true ∨ n = .defined typeName) →
      HasEntity s ⟨typeName, do return [f (← x)]⟩

theorem hasEntity_header : s.HasEntity (Entity.ofHeader s.toEdition) := by
  refine .planned (List.mem_cons_self ..) (by decide) fun p hp => ?_
  have hplan : Plan.ofComposite headerType s.header.tokens = .ok p := by
    cases hcomposite : Plan.ofComposite headerType s.header.tokens with
    | error fault =>
      rw [hcomposite] at hp
      cases hp
    | ok q =>
      rw [hcomposite] at hp
      rw [Except.ok.inj hp]
  exact ⟨mem_plans.mpr (.inl hplan), Plan.walked_ofComposite hplan, Plan.typeName_ofComposite hplan⟩

/-- The modules of a type are those of an entity with the name of the type. Only the header has none. -/
theorem exists_entity_of_type {ts : List Token} (hts : ts ∈ s.types)
    (h : typeModules s.toEdition ts = .ok ms) : ∃ first ∈ ts.head?, ∃ typeName,
      Codec.definedName first = .ok typeName ∧
      ((∃ entity, s.HasEntity entity ∧ entity.typeName = typeName ∧ entity.modules = .ok ms) ∨
        ms = [] ∧ typeName = headerType) := by
  obtain ⟨found, hfound, h⟩ := except_bind_ok h
  cases ts with
  | nil => cases hfound
  | cons first rest =>
    obtain ⟨typeName, hname, hfound⟩ := except_bind_ok hfound
    refine ⟨first, rfl, typeName, hname, ?_⟩
    have hline := Codec.isLine_of_definedName hname
    have hknown : typeName ∈ s.entityNames := by
      refine List.mem_cons_of_mem _ (List.mem_append_left _ ?_)
      exact mem_definedNames.mpr ⟨_, hts, first, rfl, hname⟩
    -- What the tokens open says what kind of class there is.
    split at hfound
    · obtain rfl := Except.ok.inj hfound
      refine .inl ⟨_, .single (f := Enumeration.toClass) hknown hline fun e he => ?_, rfl, h⟩
      obtain ⟨first', hfirst', hdefined, hnote⟩ := Enumeration.defined_of_ofTokens he
      obtain rfl := Option.some.inj hfirst'
      obtain rfl := Except.ok.inj (hname.symm.trans hdefined)
      have honly := Enumeration.notesOnly_ofTokens
        (P := fun n => n.isPlain = true ∨ n = .defined e.name) (fun _ => .inl) he (.inr rfl)
      exact ⟨rfl, Enumeration.printed_toClass he, hnote, honly⟩
    · obtain rfl := Except.ok.inj hfound
      refine .inl ⟨_, .single (f := ChoiceSet.toClass) hknown hline fun e he => ?_, rfl, h⟩
      obtain ⟨first', hfirst', hdefined, hnote⟩ := ChoiceSet.defined_of_ofTokens he
      obtain rfl := Option.some.inj hfirst'
      obtain rfl := Except.ok.inj (hname.symm.trans hdefined)
      have honly := ChoiceSet.notesOnly_ofTokens
        (P := fun n => n.isPlain = true ∨ n = .defined e.name) (fun _ => .inl) he (.inr rfl)
      exact ⟨rfl, ChoiceSet.printed_toClass he, hnote, honly⟩
    · rename_i hsignal
      split at hfound
      · rename_i hheader
        obtain rfl := Except.ok.inj hfound
        exact .inr ⟨(Except.ok.inj h).symm, hheader⟩
      · rename_i hother
        obtain rfl := Except.ok.inj hfound
        refine .inl ⟨_, .planned hknown hline fun p hp => ?_, rfl, h⟩
        refine ⟨mem_plans.mpr (.inr (.inl ⟨_, hts, first, rfl, typeName, hname, ⟨hsignal, hother⟩, hp⟩)), ?_⟩
        exact ⟨Plan.walked_ofComposite hp, Plan.typeName_ofComposite hp⟩
    · cases hfound

theorem exists_entity_of_message {ts : List Token} (hts : ts ∈ s.messages)
    (h : messageModules s.toEdition ts = .ok ms) :
    ∃ first ∈ ts.head?, ∃ entity, s.HasEntity entity ∧ entity.typeName = Identifier.typeName first.name ∧
      entity.modules = .ok ms := by
  obtain ⟨found, hfound, h⟩ := except_bind_ok h
  cases ts with
  | nil => cases hfound
  | cons first rest =>
    obtain rfl := Except.ok.inj hfound
    have hknown : Identifier.typeName first.name ∈ s.entityNames :=
      List.mem_cons_of_mem _ (List.mem_append_right _ (List.mem_filterMap.mpr ⟨_, hts, rfl⟩))
    refine ⟨first, rfl, _, .planned hknown (Identifier.isLine_typeName first.name) fun p hp => ?_, rfl, h⟩
    refine ⟨mem_plans.mpr (.inr (.inr ⟨_, hts, first, rfl, hp⟩)), ?_⟩
    exact ⟨Plan.walked_ofMessage hp, Plan.typeName_ofMessage hp⟩

theorem mem_entityNames {name : String} : name ∈ s.entityNames ↔ name = headerType ∨ name ∈ s.definedNames ∨
    ∃ ts ∈ s.messages, ∃ first ∈ ts.head?, Identifier.typeName first.name = name := by
  simp [entityNames]

/-- **Every module is that of an entity, and every class that a module is named for has its module.** -/
theorem exists_entities (h : s.modules = .ok ms) :
    (∀ m ∈ ms, ∃ entity, s.HasEntity entity ∧ entity.modules = .ok [m]) ∧
      ∀ name ∈ s.entityNames, ∃ m ∈ ms, ∃ entity, s.HasEntity entity ∧ entity.typeName = name ∧
        entity.modules = .ok [m] := by
  obtain ⟨header, types, messages, hheader, htypes, hmessages, rfl⟩ := modules_ok.mp h
  -- An entity has one module.
  have hone {entity : Entity} {own : List Module} (hown : entity.modules = .ok own) : ∃ m, own = [m] := by
    obtain ⟨_, -, rfl⟩ := Entity.modules_ok hown
    exact ⟨_, rfl⟩
  obtain ⟨m, rfl⟩ := hone hheader
  constructor
  · refine List.forall_mem_append.mpr ⟨List.forall_mem_singleton.mpr ⟨_, hasEntity_header, hheader⟩,
      List.forall_mem_append.mpr ⟨fun n hn => ?_, fun n hn => ?_⟩⟩
    · obtain ⟨ts, hts, own, hown, hn⟩ := exists_of_mem_collect htypes hn
      obtain ⟨first, -, typeName, -, ⟨entity, hentity, -, hmodules⟩ | ⟨rfl, -⟩⟩ :=
        exists_entity_of_type hts hown
      · obtain ⟨found, rfl⟩ := hone hmodules
        obtain rfl := List.mem_singleton.mp hn
        exact ⟨entity, hentity, hmodules⟩
      · cases hn
    · obtain ⟨ts, hts, own, hown, hn⟩ := exists_of_mem_collect hmessages hn
      obtain ⟨-, -, entity, hentity, -, hmodules⟩ := exists_entity_of_message hts hown
      obtain ⟨found, rfl⟩ := hone hmodules
      obtain rfl := List.mem_singleton.mp hn
      exact ⟨entity, hentity, hmodules⟩
  · -- The composite of the header has its class in the module of the header.
    have hfirst : ∃ own ∈ [m] ++ (types ++ messages), ∃ entity, s.HasEntity entity ∧
        entity.typeName = headerType ∧ entity.modules = .ok [own] :=
      ⟨m, List.mem_append_left _ (List.mem_singleton_self _), _, hasEntity_header, rfl, hheader⟩
    intro name hname
    rcases mem_entityNames.mp hname with rfl | hdefined | ⟨ts, hts, first, hhead, rfl⟩
    · exact hfirst
    · obtain ⟨ts, hts, first, hhead, hname⟩ := mem_definedNames.mp hdefined
      obtain ⟨own, hown, hsub⟩ := mem_of_mem_collect htypes hts
      obtain ⟨other, hother, typeName, htypeName, hmodules⟩ := exists_entity_of_type hts hown
      obtain rfl := Option.some.inj (hhead.symm.trans hother)
      obtain rfl := Except.ok.inj (hname.symm.trans htypeName)
      rcases hmodules with ⟨entity, hentity, hnamed, hmodules⟩ | ⟨-, rfl⟩
      · obtain ⟨found, rfl⟩ := hone hmodules
        have hin := hsub (List.mem_singleton_self found)
        exact ⟨found, List.mem_append_right _ (List.mem_append_left _ hin), entity, hentity, hnamed, hmodules⟩
      · exact hfirst
    · obtain ⟨own, hown, hsub⟩ := mem_of_mem_collect hmessages hts
      obtain ⟨other, hother, entity, hentity, hnamed, hmodules⟩ := exists_entity_of_message hts hown
      obtain rfl := Option.some.inj (hhead.symm.trans hother)
      obtain ⟨found, rfl⟩ := hone hmodules
      have hin := hsub (List.mem_singleton_self found)
      exact ⟨found, List.mem_append_right _ (List.mem_append_right _ hin), entity, hentity, hnamed, hmodules⟩

/-- The module of an entity is linked, to whatever classes the fields of the schema refer to. -/
theorem HasEntity.linked {known : String → Prop}
    (hknown : ∀ p ∈ s.plans, ∀ q ∈ p.plans, ∀ name ∈ q.references, known name) (hlines : s.ShowsLines)
    {entity : Entity} (h : s.HasEntity entity) {m : Module} (hmodules : entity.modules = .ok [m]) :
    m.Linked known entity.typeName := by
  suffices hone : ∃ n, [m] = [n] ∧ n.Linked known entity.typeName by
    obtain ⟨n, hmn, hn⟩ := hone
    rw [List.singleton_inj.mp hmn]
    exact hn
  cases h with
  | planned _ hline hplan =>
    refine Entity.linked_of_plan hline (fun p hp => ?_) hmodules
    obtain ⟨hmem, hwalked, hname⟩ := hplan p hp
    exact ⟨hwalked, hname, fun q hq => ⟨hknown p hmem q hq, hlines p hmem q hq⟩⟩
  | single _ hline hx => exact Entity.linked_of_singleClass hline hx hmodules

/-- **Every module is linked, and every class that a type defines has its module.** -/
theorem linked_modules (hclosed : s.IsClosed) (hlines : s.ShowsLines) (h : s.modules = .ok ms) :
    (∀ m ∈ ms, ∃ typeName, m.Linked (· ∈ s.definedNames) typeName) ∧
      ∀ name ∈ s.definedNames, ∃ m ∈ ms, m.Linked (· ∈ s.definedNames) name := by
  obtain ⟨hall, hdefined⟩ := exists_entities h
  constructor
  · intro m hm
    obtain ⟨entity, hentity, hmodules⟩ := hall m hm
    exact ⟨entity.typeName, hentity.linked hclosed hlines hmodules⟩
  · intro name hname
    obtain ⟨m, hm, entity, hentity, rfl, hmodules⟩ := hdefined name (mem_entityNames.mpr (.inr (.inl hname)))
    exact ⟨m, hm, hentity.linked hclosed hlines hmodules⟩

end Schema

/-! ## Import lines -/

/-- The line that imports names from a module of the package. -/
def importLine (module : String) (names : List String) : String :=
  s!"from .{module} import " ++ commas names

theorem lineFrom_eq (module : String) (names : NameSet) :
    Imports.lineFrom module names = importLine module names.toList :=
  rfl

theorem importLine_eq (module : String) (names : List String) :
    importLine module names = "from ." ++ (module ++ " import " ++ commas names) := by
  rw [← String.append_assoc, ← String.append_assoc]
  rfl

theorem importsSibling_importLine (module : String) (names : List String) :
    (Text.ofString (importLine module names)).ImportsSibling := by
  rw [importLine_eq, Text.ofString_append]
  exact List.prefix_append ..

theorem isLine_importLine {module : String} {names : List String} (hmodule : IsLine module)
    (hnames : ∀ name ∈ names, IsLine name) : IsLine (importLine module names) := by
  simp +decide [importLine, hmodule, isLine_commas hnames]

/-- The lines of the module that stands for the package. -/
def initLines (e : Edition) (exports : List (String × List String)) : List String :=
  let modules := exports.mergeSort fun a b => a.1 ≤ b.1
  ["\"\"\"SBE codecs for schema " ++ toString e.id ++ " version " ++ toString e.version ++ ".\"\"\"",
    "", importLine supportModule exportedHelpers] ++
  (modules.map fun m => importLine m.1 m.2) ++
  ["", "__all__ = ["] ++
  ((exportedHelpers ++ modules.flatMap Prod.snd).map fun name : String =>
    "    " ++ Text.quoted name ++ ",") ++
  ["]"]

theorem initSource_eq (e : Edition) (exports : List (String × List String)) :
    initSource e exports = "\n".intercalate (initLines e exports) ++ "\n" :=
  rfl

/-- Whether a line of the module that stands for the package imports the helpers, or the classes of a
module. -/
def IsExportLine (exports : List (String × List String)) (l : String) : Prop :=
  l = importLine supportModule exportedHelpers ∨ ∃ entry ∈ exports, l = importLine entry.1 entry.2

/-- The lines of the module that stands for the package are lines, and of these only those that import begin
with a small letter. -/
theorem isLine_of_mem_initLines {e : Edition} {exports : List (String × List String)}
    (h : ∀ entry ∈ exports, IsLine entry.1 ∧ ∀ name ∈ entry.2, IsLine name) : ∀ l ∈ initLines e exports,
    IsLine l ∧ (IsExportLine exports l ∨ ∀ c ∈ l.toList.head?, c.isLower = false) := by
  have hhelpers : ∀ name ∈ exportedHelpers, IsLine name := by decide
  have hmark {l : String} {mark : Char} (hhead : l.toList.head? = some mark) (hmark : mark.isLower = false) :
      ∀ c ∈ l.toList.head?, c.isLower = false := by
    rw [hhead]
    exact fun c hc => Option.some.inj hc ▸ hmark
  -- The import of the helpers, in the first part, and the second part are all that begins with a small
  -- letter.
  refine List.forall_mem_append.mpr ⟨List.forall_mem_append.mpr ⟨List.forall_mem_append.mpr
    ⟨List.forall_mem_append.mpr ⟨?title, ?modules⟩, ?opening⟩, ?names⟩, ?closing⟩
  case title =>
    refine List.forall_mem_cons.mpr ⟨⟨by simp +decide, .inr (hmark (show _ = some '"' by simp) (by decide))⟩,
      List.forall_mem_cons.mpr ⟨⟨by decide, .inr (by simp)⟩, List.forall_mem_singleton.mpr ⟨?_, .inl (.inl rfl)⟩⟩⟩
    exact isLine_importLine (by decide) hhelpers
  case modules =>
    intro l hl
    obtain ⟨entry, hentry, rfl⟩ := List.mem_map.mp hl
    have hin := List.mem_mergeSort.mp hentry
    obtain ⟨hname, hnames⟩ := h entry hin
    exact ⟨isLine_importLine hname hnames, .inl (.inr ⟨entry, hin, rfl⟩)⟩
  case opening =>
    exact List.forall_mem_cons.mpr
      ⟨⟨by decide, .inr (by simp)⟩, List.forall_mem_singleton.mpr ⟨by decide, .inr (hmark rfl (by decide))⟩⟩
  case names =>
    intro l hl
    obtain ⟨name, -, rfl⟩ := List.mem_map.mp hl
    exact ⟨by simp +decide, .inr (hmark (show _ = some ' ' by simp) (by decide))⟩
  case closing => exact List.forall_mem_singleton.mpr ⟨by decide, .inr (hmark rfl (by decide))⟩

section

variable {e : Edition} {exports : List (String × List String)}
  (h : ∀ entry ∈ exports, IsLine entry.1 ∧ ∀ name ∈ entry.2, IsLine name) {line : Text}

include h

/-- The module that stands for the package is printed on its lines. -/
theorem mem_lines_initSource (hline : line ≠ []) : line ∈ (Text.ofString (initSource e exports)).lines ↔
    ∃ l ∈ initLines e exports, line = Text.ofString l := by
  have hbreaks : ∀ t ∈ (initLines e exports).map Text.ofString, CodePoint.char '\n' ∉ t := by
    intro t ht
    obtain ⟨l, hl, rfl⟩ := List.mem_map.mp ht
    exact Text.not_mem_ofString.mpr (isLine_of_mem_initLines h l hl).1
  have hsource : Text.ofString (initSource e exports) =
      Text.join "\n" ((initLines e exports).map Text.ofString) ++ List.replicate 1 (.char '\n') := by
    rw [initSource_eq, Text.ofString_append, Text.ofString_intercalate]
    rfl
  rw [hsource, Text.mem_lines_append_breaks hline, Text.mem_lines_join_lines hline hbreaks, List.mem_map]
  simp only [eq_comm]

/-- **A line of the module that stands for the package which begins with a small letter** imports from the
support module, or from a module of the package all its classes. -/
theorem isExportLine_of_isLower (hmem : line ∈ (Text.ofString (initSource e exports)).lines) {first : Char}
    (hlower : first.isLower = true) (hhead : line.head? = some (.char first)) :
    ∃ l, line = Text.ofString l ∧ IsExportLine exports l := by
  have hline : line ≠ [] := by
    rintro rfl
    cases hhead
  obtain ⟨l, hl, rfl⟩ := (mem_lines_initSource h hline).mp hmem
  refine ⟨l, rfl, (isLine_of_mem_initLines h l hl).2.resolve_right fun hnone => ?_⟩
  rw [Text.head?_ofString] at hhead
  obtain ⟨other, hother, hchar⟩ := Option.map_eq_some_iff.mp hhead
  obtain rfl := CodePoint.char.inj hchar
  rw [hnone other hother] at hlower
  cases hlower

/-- **A line of the module that stands for the package which imports from it** is one of these. -/
theorem isExportLine_of_mem_lines (hmem : line ∈ (Text.ofString (initSource e exports)).lines)
    (hfrom : line.ImportsSibling) : ∃ l, line = Text.ofString l ∧ IsExportLine exports l :=
  isExportLine_of_isLower h hmem (by decide) hfrom.head?

end

/-! ## Imports that resolve -/

/-- Whether a package has a module that exports some names and defines a class of each of them. -/
def Package.Resolves (p : Package) (module : String) (names : List String) : Prop :=
  ∃ source exports, p.sources.lookup module = some source ∧ p.exports.lookup module = some exports ∧
    ∀ name ∈ names, name ∈ exports ∧
      ∃ c : ClassDef, c.name = name ∧ Text.ofString c.headLine ∈ Text.lines source

/-- Names that are found in a module one by one are found there together. -/
theorem Package.resolves_of_forall {p : Package} {module : String} {names : List String}
    (hnames : names ≠ []) (h : ∀ name ∈ names, p.Resolves module [name]) : p.Resolves module names := by
  obtain ⟨first, hfirst⟩ := List.exists_mem_of_ne_nil names hnames
  obtain ⟨source, exports, hsource, hexports, -⟩ := h first hfirst
  refine ⟨source, exports, hsource, hexports, fun name hname => ?_⟩
  obtain ⟨source', exports', hsource', hexports', hfound⟩ := h name hname
  obtain rfl := Option.some.inj (hsource.symm.trans hsource')
  obtain rfl := Option.some.inj (hexports.symm.trans hexports')
  exact hfound name (List.mem_singleton_self _)

namespace Schema

variable {s : Schema} {p : Package} {ms : List Module}

/-- The classes that a linked module defines are found under its name. -/
theorem resolves_of_linked (h : s.Generates p) (hms : s.modules = .ok ms) {m : Module} (hm : m ∈ ms)
    (hname : m.name ≠ "__init__") {known : String → Prop} {typeName : String}
    (hlinked : m.Linked known typeName) {names : List String}
    (hnames : ∀ name ∈ names, name ∈ m.imports.defined) : p.Resolves m.name names := by
  obtain ⟨hnodup, hexports, -⟩ := written_of_generates h hms
  have hentry : p.exports.lookup m.name = some m.imports.defined.toList := by
    rw [hexports, lookup_eq_some_iff_mem (by rwa [Package.map_fst_entry])]
    exact List.mem_map_of_mem (f := Module.entry) hm
  refine ⟨m.source, m.imports.defined.toList, lookup_module h hms hm hname, hentry, fun name hin => ?_⟩
  have hdefined := hnames name hin
  obtain ⟨c, hc, hcname⟩ := List.mem_map.mp (hlinked.defined name hdefined).2
  have hline := Package.Module.headLine_mem_lines hc (hlinked.printed c hc)
  exact ⟨NameSet.mem_toList.mpr hdefined, c, hcname, hline⟩

/-- **Sibling imports resolve.** Let a schema be generated whose fields refer only to classes of its own
types, whose messages and groups have names without line feeds, and no module of which takes the name of
the one that stands for the package. Then every line of every module that imports from the package imports
from the support module, or names a module that is there and exports and defines all that the line
imports. -/
theorem sibling_imports_resolve (h : s.Generates p) (hclosed : s.IsClosed) (hlines : s.ShowsLines)
    (hnames : "__init__" ∉ p.exports.map Prod.fst) :
    ∀ file ∈ p.written, ∀ line ∈ file.2.lines, line.ImportsSibling → ∃ module names,
      line = Text.ofString (importLine module names) ∧
        (module = supportModule ∨ p.Resolves module names) := by
  obtain ⟨ms, hms, -, -, hexports, hwritten⟩ := generates_spec h
  obtain ⟨hall, htypes⟩ := linked_modules hclosed hlines hms
  -- A module of that name would be written, and then overwritten by the one that stands for the package.
  have hfree : ∀ m ∈ ms, m.name ≠ "__init__" := by
    intro m hm hname
    rw [(names_of_generates h hms).1, ← hname] at hnames
    exact hnames (List.mem_map_of_mem hm)
  rw [hwritten]
  refine List.forall_mem_append.mpr ⟨List.forall_mem_cons.mpr ⟨?support, ?own⟩,
    List.forall_mem_singleton.mpr ?init⟩
  case support =>
    intro line hmem hfrom
    dsimp only at hmem
    exact absurd hfrom (not_importsSibling_supportSource line hmem)
  case own =>
    intro file hfile line hmem hfrom
    obtain ⟨m, hm, rfl⟩ := List.mem_map.mp hfile
    obtain ⟨typeName, hlinked⟩ := hall m hm
    -- No line of a class begins like that, so it is one of the import lines.
    obtain ⟨l, hl, rfl⟩ :=
      Package.Module.eq_of_importsSibling hlinked.printed hlinked.isLine_of_mem_lines hmem hfrom
    revert l
    refine Imports.forall_mem_packageLines (fun _ _ => ⟨_, _, rfl, .inl rfl⟩) fun sibling hsibling _ _ => ?_
    rw [lineFrom_eq]
    refine ⟨_, _, rfl, .inr (Package.resolves_of_forall ?_ fun name hname => ?_)⟩
    · obtain ⟨name, hname, hmodule⟩ := Imports.mem_siblings.mp hsibling
      exact List.ne_nil_of_mem (NameSet.mem_toList.mpr (Imports.mem_typesFrom.mpr ⟨hname, hmodule⟩))
    · -- The type that defines the class has its module under the name that is worked out here.
      obtain ⟨hneeded, hmodule⟩ := Imports.mem_typesFrom.mp (NameSet.mem_toList.mp hname)
      obtain ⟨n, hn, hdefines⟩ := htypes name (hlinked.types name hneeded).2
      rw [← hmodule, ← hdefines.name_eq]
      refine resolves_of_linked h hms hn (hfree n hn) hdefines ?_
      exact List.forall_mem_singleton.mpr hdefines.self_defined
  case init =>
    intro line hmem hfrom
    have hentries : ∀ entry ∈ p.exports, IsLine entry.1 ∧ ∀ name ∈ entry.2, IsLine name := by
      intro entry hentry
      rw [hexports] at hentry
      obtain ⟨m, hm, rfl⟩ := List.mem_map.mp hentry
      obtain ⟨typeName, hlinked⟩ := hall m hm
      have hname : IsLine m.name := hlinked.name_eq ▸ Identifier.isLine_moduleName _
      refine ⟨hname, fun name hname => ?_⟩
      exact (hlinked.defined name (NameSet.mem_toList.mp hname)).1
    -- What is exported of a module are the classes that it has noted as its own.
    obtain ⟨l, rfl, rfl | ⟨entry, hentry, rfl⟩⟩ := isExportLine_of_mem_lines hentries hmem hfrom
    · exact ⟨_, _, rfl, .inl rfl⟩
    · rw [hexports] at hentry
      obtain ⟨m, hm, rfl⟩ := List.mem_map.mp hentry
      obtain ⟨typeName, hlinked⟩ := hall m hm
      refine ⟨_, _, rfl, .inr (resolves_of_linked h hms hm (hfree m hm) hlinked fun name hname => ?_)⟩
      exact NameSet.mem_toList.mp hname

/-- The modules of a desk import each other's classes, and all of them are there. -/
theorem deskSchema_imports_resolve : ∃ p, deskSchema.Generates p ∧ deskSchema.IsClosed ∧
    deskSchema.ShowsLines ∧ "__init__" ∉ p.exports.map Prod.fst ∧
    ∀ file ∈ p.written, ∀ line ∈ file.2.lines, line.ImportsSibling → ∃ module names,
      line = Text.ofString (importLine module names) ∧
        (module = supportModule ∨ p.Resolves module names) := by
  obtain ⟨ms, p, hms, hmodules, hp⟩ := exists_deskPackage
  have hclosed : deskSchema.IsClosed := by decide +kernel
  have hlines : deskSchema.ShowsLines := by decide +kernel
  have hnames : "__init__" ∉ p.exports.map Prod.fst := by
    rw [(names_of_generates hp hms).1, hmodules]
    decide
  exact ⟨p, hp, hclosed, hlines, hnames, sibling_imports_resolve hp hclosed hlines hnames⟩

/-- The name of a message that closes the sentence about its class, and imports a class from a module. -/
def pongName : Text :=
  "Ping\"\"\"\nfrom .pong import Pong\nclass Tail:\n    \"\"\""

/-- A schema with no message but one of that name. -/
def pongSchema : Schema :=
  { deskSchema with
    types := []
    messages := [[
      { signal := .opens .message, name := pongName, encodedLength := some 0, tokenCount := some 2 },
      { signal := .closes .message, name := pongName, tokenCount := some 2 }]] }

theorem exists_pongLine : (pongSchema.modules.map fun ms => ms.any fun m => m.classes.any fun c =>
    c.docLine.lines.contains (Text.ofString (importLine "pong" ["Pong"]))).toOption = some true := by
  decide +kernel

/-- **A name can import what is not there.** No field of the schema refers to any class, and no module has a
name that another one needs, but a line of the module of its message imports from a module that is not
written: the sentence about a class shows the name of a message as it is. -/
theorem pongSchema_unresolved : pongSchema.IsClosed ∧ ∃ p, pongSchema.Generates p ∧
    "__init__" ∉ p.exports.map Prod.fst ∧ "pong" ∉ p.written.map Prod.fst ∧
    ∃ file ∈ p.written, Text.ofString (importLine "pong" ["Pong"]) ∈ file.2.lines := by
  have hcomputed : (pongSchema.modules.map (·.map Module.name)).toOption =
      some ["message_header", "ping____from__pong_import_pong_class_tail_________"] := by
    decide +kernel
  obtain ⟨ms, p, hms, hmodules, hp⟩ := exists_generates_of_names hcomputed (by decide) (by decide +kernel)
  obtain ⟨hexports, hwritten⟩ := names_of_generates hp hms
  refine ⟨by decide +kernel, p, hp, ?_, ?_, ?_⟩
  · rw [hexports, hmodules]
    decide
  · rw [hwritten, hmodules]
    decide
  · have hline := exists_pongLine
    rw [hms] at hline
    obtain ⟨m, hm, hline⟩ := List.any_eq_true.mp (Option.some.inj hline)
    obtain ⟨c, hc, hline⟩ := List.any_eq_true.mp hline
    have hmem := Code.ClassDef.mem_lines_text_of_doc (by decide) (List.contains_iff_mem.mp hline)
    have hsource := (Package.Module.mem_lines (m := m) (by decide)).mpr (.inr (.inr ⟨c, hc, hmem⟩))
    exact ⟨m.file, file_mem_written hp hms hm, hsource⟩

end Schema

end SimpleBinary

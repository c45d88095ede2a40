import SimpleBinary.Proofs.Package.Modules

/-!
Entities are generated independently.

Each entity of a schema begins with imports of its own, and nothing that is written for it looks at the
other entities. So the order of the types and of the messages leaves no trace in a package: the modules are
the same under their names, and the module that stands for the package lists them in the order of their
names. And two schemas that tell the same about themselves (`Edition.Alike`) write the same module for the
tokens of a type or of a message, whatever else they hold.
-/

set_option autoImplicit false

namespace SimpleBinary

open Package (Module)

/-! ## What a module depends on -/

/-- Whether two editions tell the same about a schema: its number and version, and the types of the four
members of the header. -/
structure Edition.Alike (e e' : Edition) : Prop where
  id : e.id = e'.id
  version : e.version = e'.version
  blockLength : e.header.blockLength = e'.header.blockLength
  templateId : e.header.templateId = e'.header.templateId
  schemaId : e.header.schemaId = e'.header.schemaId
  headerVersion : e.header.version = e'.header.version

section

variable {e e' : Edition}

theorem Plan.headerTypes_alike (h : e.Alike e') : headerTypes e.header = headerTypes e'.header := by
  unfold headerTypes
  rw [h.blockLength, h.templateId, h.schemaId, h.headerVersion]

theorem Plan.classOf_alike (h : e.Alike e') (p : Plan) (b : Bodies) : classOf e p b = classOf e' p b := by
  have hsentence : p.sentence e = p.sentence e' := by
    unfold sentence
    rw [headerTypes_alike h]
  have hnumbers : p.numberMethods e = p.numberMethods e' := by
    unfold numberMethods
    rw [h.id, h.version]
  unfold classOf
  rw [hsentence, hnumbers]

theorem Plan.demandClass_alike (h : e.Alike e') (p : Plan) : demandClass e p = demandClass e' p := by
  unfold demandClass
  rw [headerTypes_alike h, h.id, h.version]

mutual

/-- **The classes of a plan** are the same for alike editions. -/
theorem Plan.classes_alike (h : e.Alike e') : ∀ p : Plan, p.classes e = p.classes e'
  | ⟨typeName, kind, blockLength, isExtensible, token, steps, consumed⟩ => by
    rw [classes, classes, Plan.innerClasses_alike h steps]
    simp only [demandClass_alike h, classOf_alike h]

theorem Plan.innerClasses_alike (h : e.Alike e') :
    ∀ steps : List Step, innerClasses e steps = innerClasses e' steps
  | [] => by rw [innerClasses, innerClasses]
  | .typed _ _ _ _ (some nested) :: rest => by
    rw [innerClasses, innerClasses, Plan.classes_alike h nested, Plan.innerClasses_alike h rest]
  | .group _ _ _ element :: rest => by
    rw [innerClasses, innerClasses, Plan.classes_alike h element, Plan.innerClasses_alike h rest]
  | .typed _ _ _ _ none :: rest | .gap .. :: rest | .primitive .. :: rest
  | .extensionSkip _ :: rest | .varData .. :: rest | .encodeValidation :: rest
  | .decodeValidation :: rest => by
    rw [innerClasses, innerClasses]
    · exact Plan.innerClasses_alike h rest
    all_goals simp

end

theorem planClasses_alike (h : e.Alike e') : planClasses e = planClasses e' := by
  funext plan
  unfold planClasses
  simp only [Plan.classes_alike h]

theorem typeModules_alike (h : e.Alike e') (ts : List Token) : typeModules e ts = typeModules e' ts := by
  have hentity : Entity.ofType e ts = Entity.ofType e' ts := by
    unfold Entity.ofType
    rw [planClasses_alike h]
  unfold typeModules
  rw [hentity]

theorem messageModules_alike (h : e.Alike e') (ts : List Token) :
    messageModules e ts = messageModules e' ts := by
  have hentity : Entity.ofMessage e ts = Entity.ofMessage e' ts := by
    unfold Entity.ofMessage
    rw [planClasses_alike h]
  unfold messageModules
  rw [hentity]

end

/-! ## The order of the entities -/

/-- What the items of a list give does not depend on their order, but for the order of it. -/
theorem collect_perm {α β : Type} {k : α → Except Fault (List β)} {as as' : List α}
    (h : as.Perm as') {bs : List β} (hbs : collect k as = .ok bs) :
    ∃ bs', collect k as' = .ok bs' ∧ bs.Perm bs' := by
  induction h generalizing bs with
  | nil => exact ⟨bs, hbs, .refl bs⟩
  | cons a _ ih =>
    obtain ⟨first, others, hfirst, hothers, rfl⟩ := collect_cons_ok.mp hbs
    obtain ⟨others', hothers', hperm⟩ := ih hothers
    exact ⟨first ++ others', collect_cons_ok.mpr ⟨first, others', hfirst, hothers', rfl⟩,
      hperm.append_left first⟩
  | swap x y rest =>
    obtain ⟨first, tail, hfirst, htail, rfl⟩ := collect_cons_ok.mp hbs
    obtain ⟨second, others, hsecond, hothers, rfl⟩ := collect_cons_ok.mp htail
    refine ⟨second ++ (first ++ others), ?_, ?_⟩
    · exact collect_cons_ok.mpr ⟨second, _, hsecond,
        collect_cons_ok.mpr ⟨first, others, hfirst, hothers, rfl⟩, rfl⟩
    · rw [← List.append_assoc, ← List.append_assoc]
      exact List.perm_append_comm.append_right others
  | trans _ _ ih ih' =>
    obtain ⟨cs, hcs, hperm⟩ := ih hbs
    obtain ⟨ds, hds, hperm'⟩ := ih' hcs
    exact ⟨ds, hds, hperm.trans hperm'⟩

/-- The module that stands for a package lists the modules by their names, in whatever order they came. -/
theorem initSource_perm (e : Edition) {exports exports' : List (String × List String)}
    (h : exports.Perm exports') (hnodup : (exports.map Prod.fst).Nodup) :
    initSource e exports = initSource e exports' := by
  have hsorted (entries : List (String × List String)) :
      (entries.mergeSort fun a b => a.1 ≤ b.1).Pairwise fun a b => a.1 ≤ b.1 := by
    refine (List.pairwise_mergeSort ?_ ?_ entries).imp of_decide_eq_true
    · intro a b c hab hbc
      simp only [decide_eq_true_eq] at hab hbc ⊢
      exact String.le_trans hab hbc
    · intro a b
      simp only [Bool.or_eq_true, decide_eq_true_eq]
      exact String.le_total a.1 b.1
  have hperm : (exports.mergeSort fun a b => a.1 ≤ b.1).Perm
      (exports'.mergeSort fun a b => a.1 ≤ b.1) :=
    (List.mergeSort_perm ..).trans (h.trans (List.mergeSort_perm ..).symm)
  have hsame : (exports.mergeSort fun a b => a.1 ≤ b.1) =
      exports'.mergeSort fun a b => a.1 ≤ b.1 := by
    refine hperm.eq_of_pairwise ?_ (hsorted exports) (hsorted exports')
    intro a b ha hb hab hba
    -- Two entries of one name are the same entry, since no name occurs twice.
    have hname : a.1 = b.1 := String.le_antisymm hab hba
    have ha' : a ∈ exports := List.mem_mergeSort.mp ha
    have hb' : b ∈ exports := h.mem_iff.mpr (List.mem_mergeSort.mp hb)
    exact List.inj_on_of_nodup_map hnodup ha' hb' hname
  unfold initSource
  rw [hsame]

namespace Schema

variable {s s' : Schema}

/-- The modules of a schema with its types and messages in another order. -/
theorem modules_perm (he : s.toEdition = s'.toEdition) (htypes : s.types.Perm s'.types)
    (hmessages : s.messages.Perm s'.messages) {ms : List Module} (hms : s.modules = .ok ms) :
    ∃ ms', s'.modules = .ok ms' ∧ ms.Perm ms' := by
  obtain ⟨header, types, messages, hheader, htypeModules, hmessageModules, rfl⟩ := modules_ok.mp hms
  obtain ⟨types', htypeModules', hperm⟩ := collect_perm htypes htypeModules
  obtain ⟨messages', hmessageModules', hperm'⟩ := collect_perm hmessages hmessageModules
  rw [he] at hheader htypeModules' hmessageModules'
  exact ⟨header ++ (types' ++ messages'),
    modules_ok.mpr ⟨header, types', messages', hheader, htypeModules', hmessageModules', rfl⟩,
    (hperm.append hperm').append_left header⟩

theorem exists_generates_perm (he : s.toEdition = s'.toEdition) (htypes : s.types.Perm s'.types)
    (hmessages : s.messages.Perm s'.messages) (h : ∃ p, s.Generates p) : ∃ p, s'.Generates p := by
  obtain ⟨p, hp⟩ := h
  obtain ⟨ms, hms, hnodup, hwritable, -⟩ := generates_spec hp
  obtain ⟨ms', hms', hperm⟩ := modules_perm he htypes hmessages hms
  rw [he] at hwritable
  exact exists_generates hms' ((hperm.map Module.name).nodup_iff.mp hnodup) hwritable

/-- The packages of a schema in two orders have the same exports and the same sources. -/
theorem generates_perm (he : s.toEdition = s'.toEdition) (htypes : s.types.Perm s'.types)
    (hmessages : s.messages.Perm s'.messages) {p p' : Package} (hp : s.Generates p)
    (hp' : s'.Generates p') (name : String) :
    p.sources.lookup name = p'.sources.lookup name ∧
      p.exports.lookup name = p'.exports.lookup name := by
  obtain ⟨ms, hms, hnodup, -, hexports, -⟩ := generates_spec hp
  obtain ⟨ms', hms', -, -, hexports', -⟩ := generates_spec hp'
  obtain ⟨others, hothers, hperm⟩ := modules_perm he htypes hmessages hms
  obtain rfl := Except.ok.inj (hothers.symm.trans hms')
  have hkeys : (p.exports.map Prod.fst).Nodup := by rwa [hexports, Package.map_fst_entry]
  have hentries : p.exports.Perm p'.exports := by
    rw [hexports, hexports']
    exact hperm.map Module.entry
  have hinit : initSource s.toEdition p.exports = initSource s'.toEdition p'.exports := by
    rw [← he]
    exact initSource_perm s.toEdition hentries hkeys
  have hfiles : (ms.map Module.file).lookup name = (others.map Module.file).lookup name := by
    refine lookup_perm ?_ (hperm.map Module.file)
    rwa [Package.map_fst_file]
  constructor
  · rw [lookup_sources_of_generates hp hms, lookup_sources_of_generates hp' hms', hinit, hfiles]
  · exact lookup_perm hkeys hentries

end Schema

/-! ## Independence -/

/-- Whether a package has modules, and their sources are found under their names. Only the module that
stands for the package takes the place of another one. -/
def Package.Holds (p : Package) (ms : List Module) : Prop :=
  ∀ m ∈ ms, m.file ∈ p.written ∧ (m.name ≠ "__init__" → p.sources.lookup m.name = some m.source)

namespace Schema

variable {s : Schema} {p : Package}

theorem holds_of_subset (h : s.Generates p) {ms own : List Module} (hms : s.modules = .ok ms)
    (hown : own ⊆ ms) : p.Holds own := by
  intro m hm
  have hin := hown hm
  exact ⟨file_mem_written h hms hin, lookup_module h hms hin⟩

/-- A package holds the module of each type. -/
theorem holds_type (h : s.Generates p) {ts : List Token} (hts : ts ∈ s.types) :
    ∃ own, typeModules s.toEdition ts = .ok own ∧ p.Holds own := by
  obtain ⟨ms, hms, -⟩ := generates_spec h
  obtain ⟨header, types, messages, -, htypes, -, rfl⟩ := modules_ok.mp hms
  obtain ⟨own, hown, hsub⟩ := mem_of_mem_collect htypes hts
  refine ⟨own, hown, holds_of_subset h hms ?_⟩
  exact List.Subset.trans hsub
    (List.Subset.trans (List.subset_append_left ..) (List.subset_append_right ..))

/-- A package holds the module of each message. -/
theorem holds_message (h : s.Generates p) {ts : List Token} (hts : ts ∈ s.messages) :
    ∃ own, messageModules s.toEdition ts = .ok own ∧ p.Holds own := by
  obtain ⟨ms, hms, -⟩ := generates_spec h
  obtain ⟨header, types, messages, -, -, hmessages, rfl⟩ := modules_ok.mp hms
  obtain ⟨own, hown, hsub⟩ := mem_of_mem_collect hmessages hts
  refine ⟨own, hown, holds_of_subset h hms ?_⟩
  exact List.Subset.trans hsub
    (List.Subset.trans (List.subset_append_right ..) (List.subset_append_right ..))

/-- **Entities are generated independently.** A schema with its types and messages in another order is
generated exactly where the schema is, into the same sources and exports; and for the tokens of a type or
of a message, two schemas with alike editions write the same module. -/
theorem generation_independent :
    (∀ s s' : Schema, s.toEdition = s'.toEdition → s.types.Perm s'.types →
      s.messages.Perm s'.messages →
      ((∃ p, s.Generates p) ↔ ∃ p, s'.Generates p) ∧
      ∀ p p', s.Generates p → s'.Generates p' → ∀ name,
        p.sources.lookup name = p'.sources.lookup name ∧
        p.exports.lookup name = p'.exports.lookup name) ∧
    ∀ s s' : Schema, s.toEdition.Alike s'.toEdition → ∀ p p', s.Generates p → s'.Generates p' →
      (∀ ts ∈ s.types, ts ∈ s'.types → ∃ ms, typeModules s.toEdition ts = .ok ms ∧
        typeModules s'.toEdition ts = .ok ms ∧ p.Holds ms ∧ p'.Holds ms) ∧
      ∀ ts ∈ s.messages, ts ∈ s'.messages → ∃ ms, messageModules s.toEdition ts = .ok ms ∧
        messageModules s'.toEdition ts = .ok ms ∧ p.Holds ms ∧ p'.Holds ms := by
  constructor
  · intro s s' he htypes hmessages
    refine ⟨⟨?_, ?_⟩, ?_⟩
    · exact exists_generates_perm he htypes hmessages
    · exact exists_generates_perm he.symm htypes.symm hmessages.symm
    · intro p p' hp hp' name
      exact generates_perm he htypes hmessages hp hp' name
  · intro s s' halike p p' hp hp'
    constructor
    · intro ts hts hts'
      obtain ⟨ms, hms, hholds⟩ := holds_type hp hts
      obtain ⟨ms', hms', hholds'⟩ := holds_type hp' hts'
      -- Both packages hold what is made of the tokens, and alike editions make the same of them.
      rw [← typeModules_alike halike] at hms'
      obtain rfl := Except.ok.inj (hms.symm.trans hms')
      exact ⟨ms, hms, typeModules_alike halike ts ▸ hms, hholds, hholds'⟩
    · intro ts hts hts'
      obtain ⟨ms, hms, hholds⟩ := holds_message hp hts
      obtain ⟨ms', hms', hholds'⟩ := holds_message hp' hts'
      rw [← messageModules_alike halike] at hms'
      obtain rfl := Except.ok.inj (hms.symm.trans hms')
      exact ⟨ms, hms, messageModules_alike halike ts ▸ hms, hholds, hholds'⟩

/-- A desk with nothing but cancels. Its header has no tokens left but the one that opens it. -/
def cancelSchema : Schema :=
  { deskSchema with
    header := { deskSchema.header with tokens := deskHeader.take 1 }
    types := [deskSide]
    messages := [deskCancel] }

/-- The package of a desk does not tell in which order its types and messages are listed, and its cancels
are those of a desk with nothing else. -/
theorem deskSchema_independent :
    (∃ p p', deskSchema.Generates p ∧
      Generates { deskSchema with
        types := deskSchema.types.reverse, messages := deskSchema.messages.reverse } p' ∧
      ∀ name, p.sources.lookup name = p'.sources.lookup name ∧
        p.exports.lookup name = p'.exports.lookup name) ∧
    ∃ p p' ms, deskSchema.Generates p ∧ cancelSchema.Generates p' ∧
      messageModules cancelSchema.toEdition deskCancel = .ok ms ∧
      p.Holds ms ∧ p'.Holds ms := by
  obtain ⟨hreordered, hshared⟩ := generation_independent
  obtain ⟨-, p, -, -, hp⟩ := exists_deskPackage
  constructor
  · obtain ⟨hiff, hsame⟩ := hreordered deskSchema
      { deskSchema with types := deskSchema.types.reverse, messages := deskSchema.messages.reverse }
      rfl (List.reverse_perm _).symm (List.reverse_perm _).symm
    obtain ⟨p', hp'⟩ := hiff.mp ⟨p, hp⟩
    exact ⟨p, p', hp, hp', hsame p p' hp hp'⟩
  · obtain ⟨-, p', -, -, hp'⟩ : ∃ ms p', cancelSchema.modules = .ok ms ∧
        ms.map Module.name = ["message_header", "side", "cancel"] ∧ cancelSchema.Generates p' :=
      exists_generates_of_names (by decide +kernel) (by decide) (by decide +kernel)
    obtain ⟨-, hmessages⟩ := hshared deskSchema cancelSchema ⟨rfl, rfl, rfl, rfl, rfl, rfl⟩ p p' hp hp'
    obtain ⟨ms, -, hms, hholds, hholds'⟩ := hmessages deskCancel (by simp [deskSchema])
      (by simp [cancelSchema])
    exact ⟨p, p', ms, hp, hp', hms, hholds, hholds'⟩

end Schema

end SimpleBinary

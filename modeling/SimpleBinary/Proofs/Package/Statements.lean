import SimpleBinary.Proofs.Class.Identifiers
import SimpleBinary.Proofs.Imports.Order
import SimpleBinary.Proofs.Package.ClassNames

/-!
Names in statements.

The modules and classes that the lines of a package import and define have names that are made of the names of
a schema. Whatever these are, they are identifiers in form, but an identifier can be a word that the language
reserves, and only attributes are kept from that. A class inside another one is never called like such a word
(`Plan.Walked.usable_classNames`), so it is enough to look at the classes that modules are named for and at
those that are imported: if none of them, and none of their modules, is called like such a word, all names in
such lines may stand there, and only then (`Schema.statements_usable_iff`).
-/

set_option autoImplicit false

namespace SimpleBinary

open Code Emission
open Package (Module)

/-! ## Reserved words -/

namespace Identifier

/-- All words that the language of the generated source reserves. -/
def reserved : List String :=
  keywords ++ ["False", "None", "True"]

/-- Whether a name may stand for a module or a class: it has the form of an identifier and is not reserved. -/
structure IsUsable (name : String) : Prop where
  formed : IsFormed name.toList
  free : name ∉ reserved

theorem IsUsable.ne_empty {name : String} (h : IsUsable name) : name ≠ "" := by
  rintro rfl
  obtain ⟨-, c, hc, -⟩ := h.formed
  cases hc

/-- Whether the name of a class may stand for it, and that of its module for the module. -/
structure IsSound (name : String) : Prop where
  given : name ≠ ""
  free : name ∉ reserved
  module : moduleName name ∉ reserved

instance (name : String) : Decidable (IsSound name) :=
  decidable_of_iff (name ≠ "" ∧ name ∉ reserved ∧ moduleName name ∉ reserved)
    ⟨fun ⟨given, free, module⟩ => ⟨given, free, module⟩, fun ⟨given, free, module⟩ => ⟨given, free, module⟩⟩

theorem typeName_eq_empty {name : Text} : typeName name = "" ↔ name = [] := by
  constructor
  · intro h
    by_contra hname
    obtain ⟨-, c, hc, -⟩ := isFormed_typeName hname
    rw [h] at hc
    cases hc
  · rintro rfl
    rfl

/-- The name of a class may stand for it unless it is empty or reserved, and that of its module as well. -/
theorem IsSound.usable {t : Text} (h : IsSound (typeName t)) :
    IsUsable (typeName t) ∧ IsUsable (moduleName (typeName t)) := by
  have hname : t ≠ [] := fun hnil => h.given (typeName_eq_empty.mpr hnil)
  refine ⟨⟨isFormed_typeName hname, h.free⟩, ⟨isFormed_moduleName fun hnil => h.given ?_, h.module⟩⟩
  rw [← Text.plain_ofString (typeName t), hnil]
  rfl

/-- Behind its first character, a reserved word has small letters only. -/
theorem isLower_of_mem_reserved : ∀ word ∈ reserved, word.toList.tail.all Char.isLower = true := by
  decide +kernel

/-- A name that goes on with the name of a class is not reserved. -/
theorem not_mem_reserved_append {stem : String} {part : Text} (hstem : stem ≠ "") (hpart : part ≠ []) :
    stem ++ typeName part ∉ reserved := by
  intro hmem
  obtain ⟨-, c, hc, -⟩ := isFormed_typeName hpart
  -- The first character of the part is no small letter, and it is not the first of the whole.
  have hupper : c.isLower = false := by
    rw [typeName, String.toList_ofList] at hc
    unfold capitalize at hc
    split at hc
    · cases hc
    · rw [← Option.some.inj hc]
      exact Char.isLower_toUpper_eq_false _
  have hbehind : c ∈ (stem ++ typeName part).toList.tail := by
    rw [String.toList_append, List.tail_append_of_ne_nil (fun hnil => hstem (String.toList_eq_nil_iff.mp hnil))]
    exact List.mem_append_right _ (List.mem_of_mem_head? hc)
  rw [List.all_eq_true.mp (isLower_of_mem_reserved _ hmem) c hbehind] at hupper
  cases hupper

end Identifier

/-- **The classes inside another one are never called like a reserved word**: if the class of a plan may be
called as it is, so may those of all plans inside it. -/
theorem Plan.Walked.usable_classNames {p : Plan} (h : p.Walked) (hname : Identifier.IsUsable p.typeName) :
    ∀ name ∈ p.classNames, Identifier.IsUsable name := by
  refine List.forall_mem_map.mpr (h.typeName_induction (P := Identifier.IsUsable) (fun stem part hstem => ?_) hname)
  -- A part without a name leaves the name as it is; any other one puts a capital, a digit or an underscore
  -- behind its first character, and no reserved word has one there.
  by_cases hnil : part = []
  · rw [Identifier.typeName_eq_empty.mpr hnil, String.append_empty]
    exact hstem
  · refine ⟨?_, Identifier.not_mem_reserved_append hstem.ne_empty hnil⟩
    rw [String.toList_append]
    exact hstem.formed.append (Identifier.isAllowed_of_mem_typeName part)

/-! ## Reading names back -/

/-- Characters that pass a test end where the first one does not. -/
theorem eq_of_append_cons {P : Char → Bool} {a b s t : List Char} {x y : Char} (ha : ∀ c ∈ a, P c = true)
    (hb : ∀ c ∈ b, P c = true) (hx : P x = false) (hy : P y = false) (h : a ++ x :: s = b ++ y :: t) :
    a = b ∧ x :: s = y :: t := by
  have hfirst := congrArg (List.takeWhile P) h
  rw [List.takeWhile_append_of_pos ha, List.takeWhile_append_of_pos hb, List.takeWhile_cons_of_neg (by simp [hx]),
    List.takeWhile_cons_of_neg (by simp [hy]), List.append_nil, List.append_nil] at hfirst
  subst hfirst
  exact ⟨rfl, List.append_cancel_left h⟩

/-- Whether a name holds letters, digits and underscores only. -/
def Identifier.IsPlain (name : String) : Prop :=
  ∀ c ∈ name.toList, isAllowed c = true

section

variable {a b : String} {names others : List String}

theorem commas_singleton (a : String) : commas [a] = a :=
  String.intercalate_singleton

/-- What follows the first of several names is a comma. -/
theorem toList_commas_cons_cons (a b : String) (rest : List String) :
    (commas (a :: b :: rest)).toList = a.toList ++ ',' :: ' ' :: (commas (b :: rest)).toList := by
  rw [commas, String.intercalate_cons_cons, String.toList_append, String.toList_append, List.append_assoc]
  rfl

theorem commas_ne_empty (ha : a ≠ "") (rest : List String) : commas (a :: rest) ≠ "" := by
  intro h
  cases rest with
  | nil => exact ha (commas_singleton a ▸ h)
  | cons b rest =>
    have hnil := toList_commas_cons_cons a b rest
    rw [h] at hnil
    simp at hnil

/-- A plain name is not the same as several names with commas. -/
theorem ne_commas_cons_cons (ha : Identifier.IsPlain a) (b c : String) (rest : List String) :
    a ≠ commas (b :: c :: rest) := by
  intro h
  have hmem : ',' ∈ a.toList := by
    rw [h, toList_commas_cons_cons]
    simp
  exact absurd (ha _ hmem) (by decide)

/-- Names with commas between them tell which names they are, if none is empty. -/
theorem commas_inj (h : ∀ name ∈ names, Identifier.IsPlain name ∧ name ≠ "")
    (h' : ∀ name ∈ others, Identifier.IsPlain name ∧ name ≠ "") (heq : commas names = commas others) :
    names = others := by
  -- The first names end at the first comma, or where there is none. An empty name would be taken for no name.
  induction names generalizing others with
  | nil =>
    cases others with
    | nil => rfl
    | cons b rest => exact absurd heq.symm (commas_ne_empty (h' b (List.mem_cons_self ..)).2 rest)
  | cons a rest ih =>
    obtain ⟨ha, hrest⟩ := List.forall_mem_cons.mp h
    cases others with
    | nil => exact absurd heq (commas_ne_empty ha.2 rest)
    | cons b more =>
      obtain ⟨hb, hmore⟩ := List.forall_mem_cons.mp h'
      cases rest with
      | nil =>
        cases more with
        | nil => rw [← commas_singleton a, heq, commas_singleton]
        | cons c more =>
          rw [commas_singleton] at heq
          exact absurd heq (ne_commas_cons_cons ha.1 b c more)
      | cons c rest =>
        cases more with
        | nil =>
          rw [commas_singleton b] at heq
          exact absurd heq.symm (ne_commas_cons_cons hb.1 a c rest)
        | cons d more =>
          have hlists := congrArg String.toList heq
          rw [toList_commas_cons_cons, toList_commas_cons_cons] at hlists
          obtain ⟨hfirst, hlater⟩ := eq_of_append_cons ha.1 hb.1 (by decide) (by decide) hlists
          simp only [List.cons.injEq, true_and, String.toList_inj] at hlater
          rw [String.toList_inj.mp hfirst, ih hrest hmore hlater]

/-- A line that imports from a module tells which module that is, and which names it imports. -/
theorem importLine_inj {module other : String} (hmodule : Identifier.IsPlain module)
    (hother : Identifier.IsPlain other) (heq : importLine module names = importLine other others) :
    module = other ∧ commas names = commas others := by
  have hline (module : String) (names : List String) : (importLine module names).toList =
      "from .".toList ++ (module.toList ++ ' ' :: ("import ".toList ++ (commas names).toList)) := by
    simp [importLine_eq, String.toList_append]
  -- No module has a blank in its name, so the name ends at the first one.
  have hlists := congrArg String.toList heq
  rw [hline, hline] at hlists
  obtain ⟨hfirst, hlater⟩ := eq_of_append_cons hmodule hother (by decide) (by decide)
    (List.append_cancel_left hlists)
  refine ⟨String.toList_inj.mp hfirst, String.toList_inj.mp ?_⟩
  exact List.append_cancel_left (List.cons.inj hlater).2

/-- The first line of a class tells what the class is called. -/
theorem headLine_inj {c d : ClassDef} (hc : Identifier.IsPlain c.name) (hd : Identifier.IsPlain d.name)
    (heq : c.headLine = d.headLine) : c.name = d.name := by
  have hline (c : ClassDef) : ∃ mark rest, Identifier.isAllowed mark = false ∧
      c.headLine.toList = "class ".toList ++ (c.name.toList ++ mark :: rest) := by
    unfold ClassDef.headLine
    split
    · rename_i base hbase
      exact ⟨'(', base.toList ++ "):".toList, by decide, by simp⟩
    · exact ⟨':', [], by decide, by simp⟩
  -- What stands behind the name, a bracket or a colon, may not stand in it.
  obtain ⟨x, s, hx, hfirst⟩ := hline c
  obtain ⟨y, t, hy, hsecond⟩ := hline d
  have hlists := congrArg String.toList heq
  rw [hfirst, hsecond] at hlists
  obtain ⟨hnames, -⟩ := eq_of_append_cons hc hd hx hy (List.append_cancel_left hlists)
  exact String.toList_inj.mp hnames

end

/-! ## Names in lines -/

theorem Identifier.IsUsable.isPlain {name : String} (h : IsUsable name) : IsPlain name :=
  h.formed.1

theorem Identifier.isPlain_moduleName (name : Text) : IsPlain (moduleName name) := by
  by_cases hname : name = []
  · subst hname
    intro c hc
    cases hc
  · exact (isFormed_moduleName hname).1

theorem ofString_importLine_ne_nil (module : String) (names : List String) :
    Text.ofString (importLine module names) ≠ [] := by
  rw [importLine_eq, Text.ofString_append]
  exact List.append_ne_nil_of_left_ne_nil (by decide) _

/-- Whether all names in a line may stand there, if it imports from the package or opens a class. -/
structure Text.NamesUsable (line : Text) : Prop where
  imports : line.ImportsSibling → ∃ module names, line = ofString (importLine module names) ∧
    Identifier.IsUsable module ∧ ∀ name ∈ names, Identifier.IsUsable name
  classes : line.OpensClass → ∃ c : ClassDef, line = ofString c.headLine ∧ Identifier.IsUsable c.name

namespace Text

open Identifier

variable {module : String} {names : List String}

theorem not_opensClass_importLine (module : String) (names : List String) :
    ¬ (ofString (importLine module names)).OpensClass := by
  intro h
  have hhead := h.head?
  rw [(importsSibling_importLine module names).head?] at hhead
  simp at hhead

theorem namesUsable_importLine (hmodule : IsUsable module) (hnames : ∀ name ∈ names, IsUsable name) :
    (ofString (importLine module names)).NamesUsable where
  imports _ := ⟨module, names, rfl, hmodule, hnames⟩
  classes h := absurd h (not_opensClass_importLine module names)

/-- The names of a line that imports from the package are the only ones that it can be read with. -/
theorem NamesUsable.of_importLine (h : (ofString (importLine module names)).NamesUsable)
    (hmodule : IsPlain module) :
    IsUsable module ∧ ((∀ name ∈ names, IsPlain name ∧ name ≠ "") → ∀ name ∈ names, IsUsable name) := by
  obtain ⟨other, others, hline, hother, hothers⟩ := h.imports (importsSibling_importLine module names)
  obtain ⟨rfl, hcommas⟩ := importLine_inj hmodule hother.isPlain (ofString_inj.mp hline)
  refine ⟨hother, fun hnames => ?_⟩
  rw [commas_inj hnames (fun name hname => ⟨(hothers name hname).isPlain, (hothers name hname).ne_empty⟩) hcommas]
  exact hothers

theorem NamesUsable.of_headLine {c : ClassDef} (h : (ofString c.headLine).NamesUsable) (hc : IsPlain c.name) :
    IsUsable c.name := by
  have hopens : (ofString c.headLine).OpensClass := by
    unfold ClassDef.headLine
    split
    all_goals
      simp only [String.append_assoc, ofString_append]
      exact List.prefix_append ..
  obtain ⟨d, hline, hd⟩ := h.classes hopens
  rw [headLine_inj hc hd.isPlain (ofString_inj.mp hline)]
  exact hd

end Text

/-! ## What modules state -/

namespace Plan

variable {e : Edition} {p : Plan} {cs : List ClassDef} {name : String}

/-- A step notes the class of another module that it refers to. -/
theorem noted_reference {notes : List Note} {s : Step} {owner : String} {isExtensible : Bool} {b : Bodies}
    (h : (s.bodies owner isExtensible).Yields notes b) (hname : name ∈ s.reference?) : .type name ∈ notes := by
  unfold Step.reference? at hname
  split at hname
  · obtain rfl := Option.some.inj hname
    obtain ⟨type, htype, -⟩ := yields_bind.mp h
    obtain ⟨_, hnote, -⟩ := yields_bind.mp htype
    exact yields_note.mp hnote
  · cases hname

/-- The names of the classes that the fields of a plan refer to, apart from those of the plan itself. -/
def importedNames (p : Plan) : List String :=
  (p.plans.flatMap references).filter (· ∉ p.classNames)

/-- **The classes that the module of a plan imports** are those that its fields refer to, apart from its
own. -/
theorem mem_types_classes (hwalked : p.Walked) (hline : IsLine p.typeName) (h : (p.classes e).outcome = .ok cs) :
    name ∈ (Imports.addAll {} (p.classes e).notes).types ↔ name ∈ p.importedNames := by
  have hemitted := emitted_classes (yields_self h)
  have hlinked : ∀ n ∈ (p.classes e).notes, n.Linked (· ∈ p.plans.flatMap references) (cs.map ClassDef.name) :=
    p.notes_linked hwalked hline (fun q hq name hname => List.mem_flatMap.mpr ⟨q, hq, hname⟩) h
  -- Both kinds of notes are known in both directions: nothing else is noted, and each of these is.
  have hdefined : name ∈ (Imports.addAll {} (p.classes e).notes).defined ↔ name ∈ p.classNames := by
    refine Imports.mem_defined_addAll.trans ⟨?_, ?_⟩
    · rintro (hname | hname)
      · exact absurd hname (NameSet.not_mem_empty name)
      · rw [← names_classes h]
        exact (hlinked _ hname).2
    · intro hname
      obtain ⟨q, hq, rfl⟩ := List.mem_map.mp hname
      obtain ⟨c, -, bodies, hbodies⟩ := exists_of_forall₂_left hemitted hq
      exact .inr hbodies.defined
  have hneeded : .type name ∈ (p.classes e).notes ↔ name ∈ p.plans.flatMap references := by
    refine ⟨fun hname => (hlinked _ hname).2, fun hname => ?_⟩
    obtain ⟨q, hq, hname⟩ := List.mem_flatMap.mp hname
    obtain ⟨step, hstep, hname⟩ := List.mem_filterMap.mp hname
    obtain ⟨c, -, bodies, hbodies⟩ := exists_of_forall₂_left hemitted hq
    obtain ⟨b, -, hb⟩ := exists_of_forall₂_left hbodies.steps hstep
    exact noted_reference hb hname
  rw [Imports.mem_types_addAll_iff fun name hname => absurd hname (NameSet.not_mem_empty name), hdefined, hneeded,
    or_iff_right (NameSet.not_mem_empty name), importedNames, List.mem_filter, decide_eq_true_iff]

end Plan

namespace Schema

variable {s : Schema} {ms : List Module}

/-- The names of the classes that the modules of a schema are named for, and of those that they import. -/
def statedNames (s : Schema) : List String :=
  s.entityNames ++ s.plans.flatMap Plan.importedNames

theorem eq_typeName_of_mem_entityNames {name : String} (h : name ∈ s.entityNames) :
    ∃ text, name = Identifier.typeName text := by
  rcases mem_entityNames.mp h with rfl | hdefined | ⟨ts, -, first, -, rfl⟩
  · exact ⟨headerType, by decide⟩
  · obtain ⟨ts, -, first, -, hname⟩ := mem_definedNames.mp hdefined
    obtain ⟨text, -, htext⟩ := Codec.eq_typeName_of_definedName hname
    exact ⟨text, htext⟩
  · exact ⟨first.name, rfl⟩

theorem eq_typeName_of_mem_importedNames {p : Plan} {name : String} (h : name ∈ p.importedNames) :
    ∃ text, name = Identifier.typeName text := by
  obtain ⟨q, -, hname⟩ := List.mem_flatMap.mp (List.mem_filter.mp h).1
  exact Plan.eq_typeName_of_mem_references hname

/-- The names that are stated may stand for classes, and those of their modules for modules, if they are
sound. -/
theorem usable_of_mem_statedNames {name : String} (h : name ∈ s.statedNames) (hsound : Identifier.IsSound name) :
    Identifier.IsUsable name ∧ Identifier.IsUsable (Identifier.moduleName name) := by
  suffices htext : ∃ text, name = Identifier.typeName text by
    obtain ⟨text, rfl⟩ := htext
    exact hsound.usable
  rcases List.mem_append.mp h with h | h
  · exact eq_typeName_of_mem_entityNames h
  · obtain ⟨p, -, h⟩ := List.mem_flatMap.mp h
    exact eq_typeName_of_mem_importedNames h

/-- The module of an entity is linked, to classes that are called like types. -/
theorem HasEntity.linked_typeName {entity : Entity} (h : s.HasEntity entity) {m : Module}
    (hmodules : entity.modules = .ok [m]) (hlines : s.ShowsLines) :
    m.Linked (fun name => ∃ text, name = Identifier.typeName text) entity.typeName :=
  h.linked (fun _ _ _ _ _ hname => Plan.eq_typeName_of_mem_references hname) hlines hmodules

/-- The module of an entity imports the classes that a plan of the schema does. -/
theorem HasEntity.mem_types {entity : Entity} (h : s.HasEntity entity) {m : Module}
    (hmodules : entity.modules = .ok [m]) {name : String} (hname : name ∈ m.imports.types) :
    name ∈ s.plans.flatMap Plan.importedNames := by
  obtain ⟨classes, hclasses, hm⟩ := Entity.modules_ok hmodules
  obtain rfl := List.singleton_inj.mp hm
  cases h with
  | planned _ hline hplan =>
    obtain ⟨p, rfl, hemission⟩ := planClasses_ok hclasses
    obtain ⟨hmem, hwalked, rfl⟩ := hplan p rfl
    dsimp only at hclasses hname
    rw [hemission] at hclasses hname
    exact List.mem_flatMap.mpr ⟨p, hmem, (Plan.mem_types_classes hwalked hline hclasses).mp hname⟩
  | single _ _ hx =>
    -- An enumeration and a set need no other class.
    obtain ⟨a, ha, -, hnotes⟩ := singleClass_ok hclasses
    obtain ⟨-, -, -, honly⟩ := hx a ha
    rcases Imports.mem_of_mem_types_addAll hname with hname | hname
    · exact absurd hname (NameSet.not_mem_empty name)
    · rcases honly.mem _ (hnotes ▸ hname) with hplain | hself
      · cases hplain
      · cases hself

/-- Each plan of a schema has a module that imports what the plan does. -/
theorem exists_importing_module (h : s.modules = .ok ms) {p : Plan} (hp : p ∈ s.plans) :
    ∃ m ∈ ms, ∀ name ∈ p.importedNames, name ∈ m.imports.types := by
  obtain ⟨header, types, messages, hheader, htypes, hmessages, rfl⟩ := modules_ok.mp h
  have hown {typeName : String} {own : List Module} (hwalked : p.Walked) (hline : IsLine p.typeName)
      (hmodules : Entity.modules ⟨typeName, planClasses s.toEdition (.ok p)⟩ = .ok own) :
      ∃ m ∈ own, ∀ name ∈ p.importedNames, name ∈ m.imports.types := by
    obtain ⟨classes, hclasses, rfl⟩ := Entity.modules_ok hmodules
    exact ⟨_, List.mem_singleton_self _, fun name => (Plan.mem_types_classes hwalked hline hclasses).mpr⟩
  -- The plan is the one that the entity of the same tokens is written by.
  rcases mem_plans.mp hp with hplan | ⟨ts, hts, first, hfirst, typeName, hname, ⟨hsignal, hother⟩, hplan⟩ |
      ⟨ts, hts, first, hfirst, hplan⟩
  · have hentity : Entity.ofHeader s.toEdition = ⟨headerType, planClasses s.toEdition (.ok p)⟩ := by
      rw [Entity.ofHeader, hplan]
      rfl
    rw [hentity] at hheader
    have hline : IsLine p.typeName := Plan.typeName_ofComposite hplan ▸ by decide
    obtain ⟨m, hm, himports⟩ := hown (Plan.walked_ofComposite hplan) hline hheader
    exact ⟨m, List.mem_append_left _ hm, himports⟩
  · obtain ⟨own, hmodules, hsub⟩ := mem_of_mem_collect htypes hts
    have hentity : Entity.ofType s.toEdition ts = .ok (.inl ⟨typeName, planClasses s.toEdition (.ok p)⟩) := by
      rw [← hplan]
      cases ts with
      | nil => cases hfirst
      | cons other rest =>
        obtain rfl := Option.some.inj hfirst
        rw [Entity.ofType, hname]
        dsimp only [bind, Except.bind]
        rw [hsignal]
        exact if_neg hother
    rw [typeModules, hentity] at hmodules
    have hline : IsLine p.typeName := Plan.typeName_ofComposite hplan ▸ Codec.isLine_of_definedName hname
    obtain ⟨m, hm, himports⟩ := hown (Plan.walked_ofComposite hplan) hline hmodules
    exact ⟨m, List.mem_append_right _ (List.mem_append_left _ (hsub hm)), himports⟩
  · obtain ⟨own, hmodules, hsub⟩ := mem_of_mem_collect hmessages hts
    have hentity : Entity.ofMessage s.toEdition ts =
        .ok ⟨Identifier.typeName first.name, planClasses s.toEdition (.ok p)⟩ := by
      rw [← hplan]
      cases ts with
      | nil => cases hfirst
      | cons other rest =>
        obtain rfl := Option.some.inj hfirst
        rfl
    rw [messageModules, hentity] at hmodules
    have hline : IsLine p.typeName := Plan.typeName_ofMessage hplan ▸ Identifier.isLine_typeName _
    obtain ⟨m, hm, himports⟩ := hown (Plan.walked_ofMessage hplan) hline hmodules
    exact ⟨m, List.mem_append_right _ (List.mem_append_right _ (hsub hm)), himports⟩

end Schema

/-! ## Statements of a package -/

namespace Identifier

instance (cs : List Char) : Decidable (IsFormed cs) :=
  decidable_of_iff (cs.all isAllowed = true ∧ (cs.head?.any fun c => !c.isDigit) = true) <| by
    cases cs <;> simp [IsFormed]

instance (name : String) : Decidable (IsUsable name) :=
  decidable_of_iff (IsFormed name.toList ∧ name ∉ reserved)
    ⟨fun ⟨formed, free⟩ => ⟨formed, free⟩, fun ⟨formed, free⟩ => ⟨formed, free⟩⟩

theorem isUsable_helper (helper : Helper) : IsUsable helper.name := by
  cases helper <;> decide +kernel

theorem IsPlain.isLine {name : String} (h : IsPlain name) : IsLine name :=
  fun hbreak => absurd (h _ hbreak) (by decide)

end Identifier

open Identifier

/-- The support module opens one class, and imports nothing from the package. -/
theorem namesUsable_supportSource : ∀ line ∈ (Text.ofString supportSource).lines, line.NamesUsable := by
  intro line hmem
  refine ⟨fun hfrom => absurd hfrom (not_importsSibling_supportSource line hmem), fun hopens => ?_⟩
  have hall : ∀ s ∈ supportLines, IsLine s ∧
      (s.toList.head? = some 'c' → s = "class RangeCheckError(ValueError):") := by
    decide +kernel
  have hline : line ≠ [] := by
    rintro rfl
    cases hopens.head?
  obtain ⟨s, hs, rfl⟩ := (Text.mem_lines_ofString_join (fun s hs => (hall s hs).1) hline).mp hmem
  have hhead := hopens.head?
  rw [Text.head?_ofString] at hhead
  obtain ⟨first, hfirst, hchar⟩ := Option.map_eq_some_iff.mp hhead
  rw [CodePoint.char.inj hchar] at hfirst
  refine ⟨{ name := Helper.rangeCheckError.name, base := some "ValueError", doc := [], methods := [] }, ?_,
    isUsable_helper .rangeCheckError⟩
  rw [(hall s hs).2 hfirst]
  rfl

/-- The module that stands for the package opens no class, and imports what is exported. -/
theorem namesUsable_initSource {e : Edition} {exports : List (String × List String)}
    (h : ∀ entry ∈ exports, IsUsable entry.1 ∧ ∀ name ∈ entry.2, IsUsable name) :
    ∀ line ∈ (Text.ofString (initSource e exports)).lines, line.NamesUsable := by
  have hlines : ∀ entry ∈ exports, IsLine entry.1 ∧ ∀ name ∈ entry.2, IsLine name := fun entry hentry =>
    ⟨(h entry hentry).1.isPlain.isLine, fun name hname => ((h entry hentry).2 name hname).isPlain.isLine⟩
  have hexport (l : String) (hl : IsExportLine exports l) : (Text.ofString l).NamesUsable := by
    rcases hl with rfl | ⟨entry, hentry, rfl⟩
    · exact Text.namesUsable_importLine (by decide +kernel) (by decide +kernel)
    · exact Text.namesUsable_importLine (h entry hentry).1 (h entry hentry).2
  intro line hmem
  constructor
  · intro hfrom
    obtain ⟨l, rfl, hl⟩ := isExportLine_of_isLower hlines hmem (by decide) hfrom.head?
    exact (hexport l hl).imports hfrom
  · intro hopens
    obtain ⟨l, rfl, hl⟩ := isExportLine_of_isLower hlines hmem (by decide) hopens.head?
    exact (hexport l hl).classes hopens

namespace Schema

variable {s : Schema} {p : Package} {ms : List Module} {typeName : String} {m : Module}

/-- The classes of a module may be called as they are if the one that it is named for may be. -/
theorem Named.usable (h : s.Named typeName m) (hname : IsUsable typeName) :
    ∀ name ∈ m.classes.map ClassDef.name, IsUsable name := by
  rcases h.classes with hone | ⟨plan, -, hwalked, rfl, hclasses⟩
  · rw [hone]
    exact List.forall_mem_singleton.mpr hname
  · rw [hclasses]
    exact hwalked.usable_classNames hname

/-- The module of an entity imports and opens nothing but what may be called so, if all names that are stated
are sound. -/
theorem HasEntity.namesUsable {entity : Entity} (h : s.HasEntity entity) (hmodules : entity.modules = .ok [m])
    (hlines : s.ShowsLines) (hsound : ∀ name ∈ s.statedNames, IsSound name) :
    ∀ line ∈ m.source.lines, line.NamesUsable := by
  have hlinked := h.linked_typeName hmodules hlines
  have hnamed := h.named hmodules
  have husable {name : String} (hname : name ∈ s.statedNames) := usable_of_mem_statedNames hname (hsound name hname)
  have htypes {name : String} (hname : name ∈ m.imports.types) := husable
    (List.mem_append_right _ (h.mem_types hmodules hname))
  have himports : ∀ l ∈ m.imports.packageLines, (Text.ofString l).NamesUsable := by
    refine Imports.forall_mem_packageLines ?support fun sibling hsibling => ?siblings
    case support =>
      rw [lineFrom_eq]
      refine Text.namesUsable_importLine (by decide +kernel) fun name hname => ?_
      obtain ⟨helper, rfl⟩ := hlinked.helpers name (NameSet.mem_toList.mp hname)
      exact isUsable_helper helper
    case siblings =>
      rw [lineFrom_eq]
      refine Text.namesUsable_importLine ?_ fun name hname => ?_
      · obtain ⟨name, hname, rfl⟩ := Imports.mem_siblings.mp hsibling
        exact (htypes hname).2
      · exact (htypes (Imports.mem_typesFrom.mp (NameSet.mem_toList.mp hname)).1).1
  -- Any line of the module that imports is one of its import lines, and any that opens a class begins one.
  intro line hmem
  constructor
  · intro hfrom
    obtain ⟨l, hl, rfl⟩ := Package.Module.eq_of_importsSibling hlinked.printed hlinked.isLine_of_mem_lines hmem hfrom
    exact (himports l hl).imports hfrom
  · intro hopens
    obtain ⟨c, hc, rfl⟩ := Package.Module.eq_of_opensClass hlinked.printed hlinked.isLine_of_mem_lines hmem hopens
    exact ⟨c, rfl, hnamed.usable (husable (List.mem_append_left _ hnamed.known)).1 c.name (List.mem_map_of_mem hc)⟩

/-- The package imports the classes of each of its modules. -/
theorem exists_exportLine (h : s.Generates p) (hms : s.modules = .ok ms) (hlines : s.ShowsLines) (hm : m ∈ ms) :
    ∃ file ∈ p.written, Text.ofString (importLine m.name m.imports.defined.toList) ∈ file.2.lines := by
  obtain ⟨-, hexports, hwritten⟩ := written_of_generates h hms
  have hentries : ∀ entry ∈ p.exports, IsLine entry.1 ∧ ∀ name ∈ entry.2, IsLine name := by
    intro entry hentry
    rw [hexports] at hentry
    obtain ⟨m, hm, rfl⟩ := List.mem_map.mp hentry
    obtain ⟨entity, hentity, hmodules⟩ := (exists_entities hms).1 m hm
    have hlinked := hentity.linked_typeName hmodules hlines
    have hname : IsLine m.name := hlinked.name_eq ▸ Identifier.isLine_moduleName _
    exact ⟨hname, fun name hname => (hlinked.defined name (NameSet.mem_toList.mp hname)).1⟩
  have hentry : m.entry ∈ p.exports := hexports ▸ List.mem_map_of_mem hm
  have hline : importLine m.name m.imports.defined.toList ∈ initLines s.toEdition p.exports := by
    simp only [initLines, List.mem_append, List.mem_map, List.mem_mergeSort]
    exact .inl (.inl (.inl (.inr ⟨m.entry, hentry, rfl⟩)))
  refine ⟨("__init__", initSource s.toEdition p.exports), ?_, ?_⟩
  · rw [hwritten]
    exact List.mem_append_right _ (List.mem_singleton_self _)
  · exact (mem_lines_initSource hentries (ofString_importLine_ne_nil _ _)).mpr ⟨_, hline, rfl⟩

/-- What the lines of the modules say about the class that a module is named for: it and the module may be
called so. -/
theorem isSound_of_entity (h : s.Generates p) (hms : s.modules = .ok ms) (hlines : s.ShowsLines)
    (hall : ∀ file ∈ p.written, ∀ line ∈ file.2.lines, line.NamesUsable) :
    ∀ name ∈ s.entityNames, IsSound name := by
  intro name hname
  obtain ⟨m, hm, entity, hentity, rfl, hmodules⟩ := (exists_entities hms).2 name hname
  have hlinked := hentity.linked_typeName hmodules hlines
  -- The first line of its class shows the name, and the package imports from the module.
  have hclass : IsUsable entity.typeName := by
    obtain ⟨c, hc, hcname⟩ := List.mem_map.mp (hlinked.defined _ hlinked.self_defined).2
    obtain ⟨text, htext⟩ := eq_typeName_of_mem_entityNames hname
    have hplain : IsPlain c.name := by
      rw [hcname, htext]
      exact Identifier.isAllowed_of_mem_typeName text
    have hline := Package.Module.headLine_mem_lines hc (hlinked.printed c hc)
    rw [← hcname]
    exact (hall m.file (file_mem_written h hms hm) _ hline).of_headLine hplain
  have hmodule : IsUsable m.name := by
    obtain ⟨file, hfile, hline⟩ := exists_exportLine h hms hlines hm
    have hplain : IsPlain m.name := hlinked.name_eq ▸ Identifier.isPlain_moduleName _
    exact ((hall file hfile _ hline).of_importLine hplain).1
  rw [hlinked.name_eq] at hmodule
  exact ⟨hclass.ne_empty, hclass.free, hmodule.free⟩

/-- What the lines of the modules say about a class that a module imports. -/
theorem isSound_of_import (h : s.Generates p) (hms : s.modules = .ok ms) (hlines : s.ShowsLines)
    (hall : ∀ file ∈ p.written, ∀ line ∈ file.2.lines, line.NamesUsable) :
    ∀ plan ∈ s.plans, ∀ name ∈ plan.importedNames, IsSound name := by
  intro plan hplan name hname
  obtain ⟨m, hm, himports⟩ := exists_importing_module hms hplan
  obtain ⟨entity, hentity, hmodules⟩ := (exists_entities hms).1 m hm
  have hlinked := hentity.linked_typeName hmodules hlines
  have hneeded := himports name hname
  have hline : importLine (Identifier.moduleName name) (m.imports.typesFrom (Identifier.moduleName name)).toList ∈
      m.imports.lines := by
    refine List.mem_append_right _ (List.mem_append_right _ (List.mem_map.mpr ⟨_, ?_, lineFrom_eq ..⟩))
    exact NameSet.mem_toList.mpr (Imports.mem_siblings.mpr ⟨name, hneeded, rfl⟩)
  have husable : (Text.ofString (importLine (Identifier.moduleName name)
      (m.imports.typesFrom (Identifier.moduleName name)).toList)).NamesUsable := by
    have hnonempty := ofString_importLine_ne_nil (Identifier.moduleName name)
      (m.imports.typesFrom (Identifier.moduleName name)).toList
    have hprinted := (Package.Module.mem_lines_imports hlinked.isLine_of_mem_lines hnonempty).mpr ⟨_, hline, rfl⟩
    have hsource := (Package.Module.mem_lines (m := m) hnonempty).mpr (.inr (.inl hprinted))
    exact hall m.file (file_mem_written h hms hm) _ hsource
  obtain ⟨hmodule, hnames⟩ := husable.of_importLine (Identifier.isPlain_moduleName _)
  -- The module has a name, so all classes that are imported from it have one.
  have hclass : IsUsable name := by
    refine hnames (fun other hother => ?_) name ?_
    · obtain ⟨hother, hsame⟩ := Imports.mem_typesFrom.mp (NameSet.mem_toList.mp hother)
      obtain ⟨-, text, rfl⟩ := hlinked.types other hother
      refine ⟨Identifier.isAllowed_of_mem_typeName text, fun hempty => hmodule.ne_empty ?_⟩
      rw [← hsame, hempty]
      rfl
    · exact NameSet.mem_toList.mpr (Imports.mem_typesFrom.mpr ⟨hneeded, rfl⟩)
  exact ⟨hclass.ne_empty, hclass.free, hmodule.free⟩

/-- **Statements are well formed** exactly if the names that are stated are. Where the names of messages and
groups are lines, every module and class that any line of a package imports or opens may be called as it is if
and only if no class that a module is named for or imports, and no module of such a class, is called like a
reserved word, or is called nothing. -/
theorem statements_usable_iff (h : s.Generates p) (hlines : s.ShowsLines) :
    (∀ file ∈ p.written, ∀ line ∈ file.2.lines, line.NamesUsable) ↔ ∀ name ∈ s.statedNames, IsSound name := by
  obtain ⟨ms, hms, -, -, hexports, hwritten⟩ := generates_spec h
  constructor
  · -- Each stated name stands in some line: that of an entity where its class is opened, and one that is
    -- imported where it is imported.
    intro hall
    refine List.forall_mem_append.mpr ⟨isSound_of_entity h hms hlines hall, fun name hname => ?_⟩
    obtain ⟨plan, hplan, hname⟩ := List.mem_flatMap.mp hname
    exact isSound_of_import h hms hlines hall plan hplan name hname
  · intro hsound
    rw [hwritten]
    refine List.forall_mem_append.mpr ⟨List.forall_mem_cons.mpr ⟨?support, ?own⟩,
      List.forall_mem_singleton.mpr ?init⟩
    case support =>
      intro line hmem
      dsimp only at hmem
      exact namesUsable_supportSource line hmem
    case own =>
      intro file hfile
      obtain ⟨m, hm, rfl⟩ := List.mem_map.mp hfile
      obtain ⟨entity, hentity, hmodules⟩ := (exists_entities hms).1 m hm
      exact hentity.namesUsable hmodules hlines hsound
    case init =>
      -- The module that stands for the package imports what the others export, each from its own module.
      refine namesUsable_initSource fun entry hentry => ?_
      rw [hexports] at hentry
      obtain ⟨m, hm, rfl⟩ := List.mem_map.mp hentry
      obtain ⟨entity, hentity, hmodules⟩ := (exists_entities hms).1 m hm
      have hnamed := hentity.named hmodules
      obtain ⟨hclass, hmodule⟩ := usable_of_mem_statedNames (List.mem_append_left _ hnamed.known)
        (hsound _ (List.mem_append_left _ hnamed.known))
      have husable : IsUsable m.name := hnamed.name_eq ▸ hmodule
      refine ⟨husable, fun name hname => ?_⟩
      exact hnamed.usable hclass name (hnamed.defined name (NameSet.mem_toList.mp hname))

/-- In the modules of a desk, all statements are well formed. -/
theorem deskSchema_statements_usable : ∃ p, deskSchema.Generates p ∧ deskSchema.ShowsLines ∧
    (∀ name ∈ deskSchema.statedNames, IsSound name) ∧
    ∀ file ∈ p.written, ∀ line ∈ file.2.lines, line.NamesUsable := by
  obtain ⟨ms, p, -, -, hp⟩ := exists_deskPackage
  have hlines : deskSchema.ShowsLines := by decide +kernel
  have hsound : ∀ name ∈ deskSchema.statedNames, IsSound name := by decide +kernel
  exact ⟨p, hp, hlines, hsound, (statements_usable_iff hp hlines).mpr hsound⟩

/-! ### A message that is called like a reserved word -/

/-- A schema with one message, which has no fields. -/
def wordSchema (name : Text) : Schema :=
  { deskSchema with
    types := []
    messages := [[
      { signal := .opens .message, name, encodedLength := some 0, tokenCount := some 2 },
      { signal := .closes .message, name, tokenCount := some 2 }]] }

/-- **A module can be called like a reserved word.** A message called `Class` is generated, and the package
imports its class from the module `class`. -/
theorem wordSchema_reserved : ∃ p, (wordSchema "Class").Generates p ∧ (wordSchema "Class").ShowsLines ∧
    (∃ file ∈ p.written, Text.ofString (importLine "class" ["Class"]) ∈ file.2.lines) ∧
    ¬ (Text.ofString (importLine "class" ["Class"])).NamesUsable := by
  have h : ((wordSchema "Class").modules.map fun ms =>
      ms.map fun m => (m.name, m.imports.defined.toList)).toOption =
        some [("message_header", ["MessageHeader"]), ("class", ["Class"])] := by
    decide +kernel
  obtain ⟨ms, hms, hnames⟩ := exists_of_computed h
  have hmodules : ms.map Module.name = ["message_header", "class"] := by
    have := congrArg (List.map Prod.fst) hnames
    rwa [List.map_map] at this
  obtain ⟨p, hp⟩ := exists_generates hms (hmodules ▸ by decide) (by decide +kernel)
  have hlines : (wordSchema "Class").ShowsLines := by decide +kernel
  refine ⟨p, hp, hlines, ?_, fun husable => ?_⟩
  · have hmem : ("class", ["Class"]) ∈ ms.map fun m => (m.name, m.imports.defined.toList) := by
      rw [hnames]
      exact List.mem_cons_of_mem _ (List.mem_singleton_self _)
    obtain ⟨m, hm, hentry⟩ := List.mem_map.mp hmem
    obtain ⟨hname, hdefined⟩ := Prod.mk.inj hentry
    rw [← hname, ← hdefined]
    exact exists_exportLine hp hms hlines hm
  · have hplain : IsPlain "class" := by
      unfold IsPlain
      exact List.all_eq_true.mp (by decide)
    exact absurd (husable.of_importLine hplain).1.free (by decide)

end Schema

end SimpleBinary

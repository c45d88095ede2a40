import SimpleBinary.Imports.Request
import SimpleBinary.Proofs.Class.Requirements

/-!
The order of the recording leaves no trace.

A class that is needed before its module defines it is imported for a while, and one that is needed
afterwards never is. Whichever comes first, what is left in the end are the needed classes that are not
defined (`Imports.mem_types_addAll_iff`), so the requests alone decide the record, and not their order
(`Imports.serveAll_order`).

The classes can also be kept module by module in a dictionary, from which a class is taken away where it is
defined, and a module with its last class (`Shelves`). Such a dictionary always has the same entries as the
record (`Shelves.Holds`).
-/

set_option autoImplicit false

namespace SimpleBinary

/-! ## Classes by module -/

/-- The classes that are imported, by the modules that they come from. -/
def Imports.byModule (i : Imports) : List (String × NameSet) :=
  i.siblings.toList.map fun module => (module, i.typesFrom module)

/-- The names decide the set. -/
theorem NameSet.ext {s t : NameSet} (h : ∀ name, name ∈ s ↔ name ∈ t) : s = t := by
  obtain ⟨xs, hx⟩ := s
  obtain ⟨ys, hy⟩ := t
  obtain rfl := hx.eq_of_mem_iff hy h
  rfl

theorem NameSet.isEmpty_eq_false_iff {s : NameSet} : s.isEmpty = false ↔ ∃ name, name ∈ s := by
  rw [NameSet.isEmpty, List.isEmpty_eq_false_iff_exists_mem]
  rfl

theorem Imports.mem_byModule {i : Imports} {module : String} {names : NameSet} :
    (module, names) ∈ i.byModule ↔ module ∈ i.siblings ∧ names = i.typesFrom module := by
  simp only [byModule, List.mem_map, Prod.mk.injEq, NameSet.mem_toList]
  constructor
  · rintro ⟨_, h, rfl, rfl⟩
    exact ⟨h, rfl⟩
  · rintro ⟨h, rfl⟩
    exact ⟨module, h, rfl, rfl⟩

theorem Imports.nodup_byModule (i : Imports) : (i.byModule.map Prod.fst).Nodup := by
  have hkeys : i.byModule.map Prod.fst = i.siblings.toList := by
    rw [byModule, List.map_map]
    exact List.map_id _
  rw [hkeys]
  exact i.siblings.ascending.imp fun h => String.ne_of_lt h

/-- Classes in a dictionary, by the modules that they are in. -/
abbrev Shelves := List (String × NameSet)

namespace Shelves

/-- The dictionary with a class added to those of its module. -/
def add (name : String) : Shelves → Shelves
  | [] => [(Identifier.moduleName name, .ofList [name])]
  | (module, names) :: rest =>
    if module = Identifier.moduleName name then (module, names.insert name) :: rest
    else (module, names) :: add name rest

/-- The dictionary without a class, whatever module it is in, and without the modules that are left without
classes. -/
def remove (name : String) (s : Shelves) : Shelves :=
  (s.map fun shelf => (shelf.1, shelf.2.erase name)).filter fun shelf => !shelf.2.isEmpty

/-- The dictionary after a note, given the classes that are defined before it. -/
def note (defined : NameSet) (s : Shelves) : Note → Shelves
  | .type name => if name ∈ defined then s else s.add name
  | .defined name => s.remove name
  | _ => s

/-- The dictionary after several notes, of which the imports have the record. -/
def noteAll (i : Imports) (s : Shelves) : List Note → Shelves
  | [] => s
  | n :: rest => noteAll (n.apply i) (s.note i.defined n) rest

end Shelves

/-! ## What notes add up to -/

namespace Imports

variable {i : Imports} {notes : List Note} {name module : String}

/-- Whether no class is both imported and defined. -/
def Separate (i : Imports) : Prop :=
  ∀ name ∈ i.types, name ∉ i.defined

theorem Separate.apply (h : i.Separate) (n : Note) : (n.apply i).Separate := by
  intro name hname
  cases n with
  | type type =>
    rw [Note.apply, defined_needType]
    rw [Note.apply, needType] at hname
    split at hname
    · exact h name hname
    · rename_i hfree
      rcases NameSet.mem_insert.mp hname with rfl | hname
      · exact hfree
      · exact h name hname
  | defined type =>
    obtain ⟨hname, hne⟩ := NameSet.mem_erase.mp hname
    rintro hdefined
    rcases NameSet.mem_insert.mp hdefined with rfl | hdefined
    · exact hne rfl
    · exact h name hname hdefined
  | _ => exact h name hname

theorem Separate.addAll (h : i.Separate) (notes : List Note) : (i.addAll notes).Separate := by
  induction notes generalizing i with
  | nil => exact h
  | cons n rest ih => exact ih (h.apply n)

/-- **What is imported in the end** are the classes that are needed, apart from those that are defined. -/
theorem mem_types_addAll_iff (h : i.Separate) :
    name ∈ (i.addAll notes).types ↔
      (name ∈ i.types ∨ .type name ∈ notes) ∧ name ∉ (i.addAll notes).defined := by
  constructor
  · exact fun hname => ⟨mem_of_mem_types_addAll hname, h.addAll notes name hname⟩
  · rintro ⟨hneeded, hfree⟩
    exact (mem_types_addAll (hneeded.imp_right .inr)).resolve_right hfree

/-- Notes add up to the same whatever their order is and however often each of them is made. -/
theorem addAll_congr {notes' : List Note} (h : i.Separate) (hnotes : ∀ n, n ∈ notes ↔ n ∈ notes') :
    i.addAll notes = i.addAll notes' := by
  have hmodules : (i.addAll notes).modules = (i.addAll notes').modules :=
    NameSet.ext fun name => by simp only [mem_modules_addAll, hnotes]
  have hhelpers : (i.addAll notes).helpers = (i.addAll notes').helpers :=
    NameSet.ext fun name => by simp only [mem_helpers_addAll, hnotes]
  have hdefined : (i.addAll notes).defined = (i.addAll notes').defined :=
    NameSet.ext fun name => by simp only [mem_defined_addAll, hnotes]
  have htypes : (i.addAll notes).types = (i.addAll notes').types :=
    NameSet.ext fun name => by simp only [mem_types_addAll_iff h, hnotes, hdefined]
  generalize i.addAll notes = a at *
  generalize i.addAll notes' = b at *
  cases a
  cases b
  simp_all only

/-! ## The classes of a module -/

theorem typesFrom_eq_empty (h : module ∉ i.siblings) : i.typesFrom module = .empty := by
  refine NameSet.ext fun x => ?_
  rw [mem_typesFrom]
  simp only [NameSet.not_mem_empty, iff_false, not_and]
  exact fun hx hsame => h (mem_siblings.mpr ⟨x, hx, hsame⟩)

theorem mem_types_needType (hfree : name ∉ i.defined) {x : String} :
    x ∈ (i.needType name).types ↔ x = name ∨ x ∈ i.types := by
  rw [needType, if_neg hfree]
  exact NameSet.mem_insert

theorem mem_siblings_needType (hfree : name ∉ i.defined) :
    module ∈ (i.needType name).siblings ↔ module = Identifier.moduleName name ∨ module ∈ i.siblings := by
  simp only [mem_siblings, mem_types_needType hfree, or_and_right, exists_or, exists_eq_left]
  rw [eq_comm]

/-- A needed class is one more of those of its module. -/
theorem typesFrom_needType_self (hfree : name ∉ i.defined) :
    (i.needType name).typesFrom (Identifier.moduleName name) =
      (i.typesFrom (Identifier.moduleName name)).insert name := by
  refine NameSet.ext fun x => ?_
  rw [NameSet.mem_insert, mem_typesFrom, mem_typesFrom, mem_types_needType hfree]
  constructor
  · rintro ⟨rfl | hx, hsame⟩
    · exact .inl rfl
    · exact .inr ⟨hx, hsame⟩
  · rintro (rfl | ⟨hx, hsame⟩)
    · exact ⟨.inl rfl, rfl⟩
    · exact ⟨.inr hx, hsame⟩

theorem typesFrom_needType_of_ne (hfree : name ∉ i.defined) (hmodule : module ≠ Identifier.moduleName name) :
    (i.needType name).typesFrom module = i.typesFrom module := by
  refine NameSet.ext fun x => ?_
  rw [mem_typesFrom, mem_typesFrom, mem_types_needType hfree]
  -- A class of another module is not the one that is needed.
  refine and_congr_left fun hsame => or_iff_right ?_
  rintro rfl
  exact hmodule hsame.symm

theorem typesFrom_define (i : Imports) (name module : String) :
    (i.define name).typesFrom module = (i.typesFrom module).erase name := by
  refine NameSet.ext fun x => ?_
  rw [NameSet.mem_erase, mem_typesFrom, mem_typesFrom, define, NameSet.mem_erase]
  exact and_right_comm

end Imports

/-! ## The dictionary -/

namespace Shelves

variable {s : Shelves} {i : Imports} {module name : String} {names : NameSet}

/-- Whether a dictionary has the entries of a record. -/
structure Holds (s : Shelves) (i : Imports) : Prop where
  nodup : (s.map Prod.fst).Nodup
  mem : ∀ module names, (module, names) ∈ s ↔ module ∈ i.siblings ∧ names = i.typesFrom module

theorem Holds.perm (h : s.Holds i) : s.Perm i.byModule := by
  refine (List.perm_ext_iff_of_nodup h.nodup.of_map i.nodup_byModule.of_map).mpr ?_
  rintro ⟨module, names⟩
  rw [h.mem, Imports.mem_byModule]

/-- An added class changes the entry of its module, or makes one. -/
theorem mem_add (hnodup : (s.map Prod.fst).Nodup) :
    (module, names) ∈ s.add name ↔
      if module = Identifier.moduleName name then
        (∃ old, (module, old) ∈ s ∧ names = old.insert name) ∨
          (∀ old, (module, old) ∉ s) ∧ names = .ofList [name]
      else (module, names) ∈ s := by
  induction s with
  | nil =>
    rw [add, List.mem_singleton, Prod.mk.injEq]
    split <;> simp_all
  | cons shelf rest ih =>
    obtain ⟨first, others⟩ := shelf
    obtain ⟨hfirst, hrest⟩ := List.nodup_cons.mp hnodup
    -- No other entry is of the module of the first one.
    have hsingle : ∀ old, (first, old) ∉ rest := fun old hold =>
      hfirst (List.mem_map.mpr ⟨_, hold, rfl⟩)
    have ih := ih hrest
    rw [add]
    by_cases hmodule : first = Identifier.moduleName name
    · rw [if_pos hmodule, List.mem_cons, Prod.mk.injEq]
      subst hmodule
      split
      · rename_i heq
        subst heq
        simp [hsingle]
      · rename_i hne
        simp [hne]
    · rw [if_neg hmodule, List.mem_cons, ih, Prod.mk.injEq]
      split
      · rename_i heq
        subst heq
        simp [Ne.symm hmodule]
      · simp

theorem keys_add (s : Shelves) (name : String) :
    (s.add name).map Prod.fst =
      if Identifier.moduleName name ∈ s.map Prod.fst then s.map Prod.fst
      else s.map Prod.fst ++ [Identifier.moduleName name] := by
  induction s with
  | nil => simp [add]
  | cons shelf rest ih =>
    obtain ⟨first, others⟩ := shelf
    rw [add]
    by_cases hmodule : first = Identifier.moduleName name
    · simp [hmodule]
    · rw [if_neg hmodule, List.map_cons, ih, List.map_cons]
      simp only [List.mem_cons, Ne.symm hmodule, false_or]
      split <;> simp

/-- The entry of a module without one class. -/
theorem mem_remove :
    (module, names) ∈ s.remove name ↔
      (∃ old, (module, old) ∈ s ∧ names = old.erase name) ∧ ∃ other, other ∈ names := by
  simp only [remove, List.mem_filter, List.mem_map, Prod.mk.injEq, Prod.exists, Bool.not_eq_true',
    NameSet.isEmpty_eq_false_iff]
  refine and_congr_left fun _ => ⟨?_, ?_⟩
  · rintro ⟨_, old, hold, rfl, rfl⟩
    exact ⟨old, hold, rfl⟩
  · rintro ⟨old, hold, rfl⟩
    exact ⟨_, old, hold, rfl, rfl⟩

/-- **Where a class that is not defined is needed, the dictionary follows the record.** -/
theorem Holds.needType (h : s.Holds i) (hfree : name ∉ i.defined) : (s.add name).Holds (i.needType name) := by
  refine ⟨?nodup, fun module names => ?mem⟩
  case nodup =>
    rw [keys_add]
    split
    · exact h.nodup
    · rename_i hnew
      exact List.nodup_append.mpr ⟨h.nodup, List.nodup_singleton _, by
        rintro a ha b hb rfl
        exact hnew (List.mem_singleton.mp hb ▸ ha)⟩
  case mem =>
    rw [mem_add h.nodup, Imports.mem_siblings_needType hfree]
    by_cases hmodule : module = Identifier.moduleName name
    · -- The module of the class has an entry now, with the class and those that were there before.
      subst hmodule
      rw [if_pos rfl, Imports.typesFrom_needType_self hfree]
      by_cases hold : Identifier.moduleName name ∈ i.siblings
      · simp [h.mem, hold]
      · simp [h.mem, hold, Imports.typesFrom_eq_empty hold, NameSet.ofList, NameSet.insertAll]
    · rw [if_neg hmodule, h.mem, Imports.typesFrom_needType_of_ne hfree hmodule, or_iff_right hmodule]

/-- **Where a class is defined, the dictionary follows the record.** -/
theorem Holds.define (h : s.Holds i) (name : String) : (s.remove name).Holds (i.define name) := by
  have hnames := i.typesFrom_define name
  refine ⟨?nodup, fun module names => ?mem⟩
  case nodup =>
    have hkeys : (s.map fun shelf => (shelf.1, shelf.2.erase name)).map Prod.fst = s.map Prod.fst := by
      rw [List.map_map]
      rfl
    rw [remove]
    refine List.Nodup.sublist (List.filter_sublist.map _) ?_
    rw [hkeys]
    exact h.nodup
  case mem =>
    rw [mem_remove, hnames]
    constructor
    · rintro ⟨⟨old, hold, rfl⟩, other, hother⟩
      obtain ⟨-, rfl⟩ := (h.mem module old).mp hold
      refine ⟨?_, rfl⟩
      -- The class that is left is one of the module.
      rw [← hnames, Imports.mem_typesFrom] at hother
      exact Imports.mem_siblings.mpr ⟨other, hother⟩
    · rintro ⟨hmodule, rfl⟩
      obtain ⟨other, hother, hsame⟩ := Imports.mem_siblings.mp hmodule
      have hold : other ∈ i.types := (NameSet.mem_erase.mp hother).1
      refine ⟨⟨_, (h.mem module _).mpr ⟨Imports.mem_siblings.mpr ⟨other, hold, hsame⟩, rfl⟩, rfl⟩, other, ?_⟩
      rw [← hnames, Imports.mem_typesFrom]
      exact ⟨hother, hsame⟩

/-- What a note does to the record, it does to the dictionary. -/
theorem Holds.note (h : s.Holds i) (n : Note) : (s.note i.defined n).Holds (n.apply i) := by
  cases n with
  | type name =>
    rw [Shelves.note]
    split
    · rename_i hdefined
      rw [Note.apply, Imports.needType, if_pos hdefined]
      exact h
    · rename_i hfree
      exact h.needType hfree
  | defined name => exact h.define name
  | _ => exact ⟨h.nodup, h.mem⟩

/-- **The dictionary keeps up with the record.** -/
theorem Holds.noteAll (h : s.Holds i) (notes : List Note) :
    (s.noteAll i notes).Holds (i.addAll notes) := by
  induction notes generalizing s i with
  | nil => exact h
  | cons n rest ih => exact ih (h.note n)

end Shelves

/-! ## Requests -/

theorem Helper.ofName_name (h : Helper) : ofName h.name = .ok h := by
  cases h <;> rfl

theorem Helper.ofName_unknown {name : String} (h : ∀ helper : Helper, helper.name ≠ name) :
    ofName name = .error (.notSupported name) := by
  have hnone : (all.find? fun helper => helper.name == name) = none := by
    simpa using fun helper _ => h helper
  rw [ofName, hnone]

theorem Helper.name_inj {h h' : Helper} (heq : h.name = h'.name) : h = h' :=
  Except.ok.inj (h.ofName_name.symm.trans (heq ▸ h'.ofName_name))

namespace Request

/-- Whether a request is not for a helper that there is not. -/
def IsKnown : Request → Prop
  | .helper name => ∃ h : Helper, h.name = name
  | _ => True

/-- The modules of the standard library that a request is for. -/
def moduleNames : Request → List String
  | .module name => [name]
  | .modules names => names
  | _ => []

/-- What is noted for a request that is not refused. -/
def noted (r : Request) : List Note :=
  r.notes.toOption.getD []

variable {r : Request} {name : String}

theorem notes_of_isKnown (h : r.IsKnown) : r.notes = .ok r.noted := by
  cases r with
  | helper name =>
    obtain ⟨helper, rfl⟩ := h
    simp [noted, notes, Helper.ofName_name, Except.map, Except.toOption]
  | _ => rfl

theorem module_mem_noted : .module name ∈ r.noted ↔ name ∈ r.moduleNames := by
  cases r with
  | helper asked =>
    cases h : Helper.ofName asked <;> simp [noted, notes, moduleNames, h, Except.map, Except.toOption]
  | _ => simp [noted, notes, moduleNames, Except.toOption]

theorem helper_mem_noted {h : Helper} : .helper h ∈ r.noted ↔ r = .helper h.name := by
  cases r with
  | helper asked =>
    by_cases hknown : IsKnown (.helper asked)
    · obtain ⟨helper, rfl⟩ := hknown
      simp only [noted, notes, Helper.ofName_name, Except.map, Except.toOption, Option.getD_some,
        List.mem_singleton, Note.helper.injEq, Request.helper.injEq]
      exact ⟨fun heq => heq ▸ rfl, fun heq => (Helper.name_inj heq).symm⟩
    · have hunknown := Helper.ofName_unknown fun helper heq => hknown ⟨helper, heq⟩
      simp only [noted, notes, hunknown, Except.map, Except.toOption, Option.getD_none, List.not_mem_nil,
        Request.helper.injEq, false_iff]
      exact fun heq => hknown ⟨h, heq.symm⟩
  | _ => simp [noted, notes, Except.toOption]

theorem type_mem_noted : .type name ∈ r.noted ↔ r = .type name := by
  cases r with
  | helper asked => cases h : Helper.ofName asked <;> simp [noted, notes, h, Except.map, Except.toOption]
  | type asked => simpa [noted, notes, Except.toOption] using eq_comm
  | _ => simp [noted, notes, Except.toOption]

theorem defined_mem_noted : .defined name ∈ r.noted ↔ r = .define name := by
  cases r with
  | helper asked => cases h : Helper.ofName asked <;> simp [noted, notes, h, Except.map, Except.toOption]
  | define asked => simpa [noted, notes, Except.toOption] using eq_comm
  | _ => simp [noted, notes, Except.toOption]

end Request

namespace Imports

variable {i : Imports} {rs : List Request}

/-- Requests that are known are all served. -/
theorem serveAll_of_known (h : ∀ r ∈ rs, r.IsKnown) :
    (serveAll rs).run i = .ok () (i.addAll (rs.flatMap Request.noted)) := by
  induction rs generalizing i with
  | nil => rfl
  | cons r rest ih =>
    obtain ⟨hr, hrest⟩ := List.forall_mem_cons.mp h
    have hserve : serve r i = .ok () (i.addAll r.noted) := by
      rw [serve, Request.notes_of_isKnown hr]
      rfl
    have hadd : i.addAll ((r :: rest).flatMap Request.noted) =
        (i.addAll r.noted).addAll (rest.flatMap Request.noted) := by
      rw [List.flatMap_cons, addAll, List.foldl_append]
      rfl
    rw [hadd]
    exact state_bind_ok.mpr ⟨(), _, hserve, ih hrest⟩

/-- A request for a helper that there is not is refused, and leaves everything as it is. -/
theorem serve_unknown {name : String} (h : ∀ helper : Helper, helper.name ≠ name) (i : Imports) :
    (serve (.helper name)).run i = .error (.notSupported name) i := by
  rw [serve, Request.notes, Helper.ofName_unknown h]
  rfl

/-- Whether a record answers requests, given the classes that are defined before the first one: everything that
is asked for is in it, nothing else is, and each module has an entry for its classes, which is never empty. -/
structure Answers (i : Imports) (locals : List String) (rs : List Request) : Prop where
  modules : ∀ name, name ∈ i.modules ↔ ∃ r ∈ rs, name ∈ r.moduleNames
  helpers : ∀ name, name ∈ i.helpers ↔ .helper name ∈ rs
  defined : ∀ name, name ∈ i.defined ↔ name ∈ locals ∨ .define name ∈ rs
  byModule : ∀ module names, (module, names) ∈ i.byModule ↔ (∃ name, name ∈ names) ∧
    ∀ name, name ∈ names ↔ .type name ∈ rs ∧ Identifier.moduleName name = module ∧ name ∉ i.defined
  nodup : (i.byModule.map Prod.fst).Nodup

/-- The record before the first request. -/
def ofLocals (locals : List String) : Imports :=
  { defined := .ofList locals }

theorem separate_ofLocals (locals : List String) : (ofLocals locals).Separate :=
  fun _ hname => absurd hname (NameSet.not_mem_empty _)

/-- What is noted for known requests answers them. -/
theorem answers_addAll (locals : List String) (h : ∀ r ∈ rs, r.IsKnown) :
    ((ofLocals locals).addAll (rs.flatMap Request.noted)).Answers locals rs := by
  have hmem (n : Note) : n ∈ rs.flatMap Request.noted ↔ ∃ r ∈ rs, n ∈ r.noted := List.mem_flatMap
  have hempty (name : String) : name ∉ NameSet.empty := NameSet.not_mem_empty name
  -- A type is recorded if it is needed and not defined, whichever of the two comes first.
  have htypes (name : String) : name ∈ ((ofLocals locals).addAll (rs.flatMap Request.noted)).types ↔
      .type name ∈ rs ∧ name ∉ ((ofLocals locals).addAll (rs.flatMap Request.noted)).defined := by
    rw [mem_types_addAll_iff (separate_ofLocals locals), hmem]
    simp [Request.type_mem_noted, ofLocals]
  constructor
  case modules =>
    intro name
    rw [mem_modules_addAll, hmem]
    simp [Request.module_mem_noted, ofLocals]
  case helpers =>
    intro name
    simp only [mem_helpers_addAll, hmem, Request.helper_mem_noted, ofLocals, hempty, false_or,
      exists_eq_right]
    constructor
    · rintro ⟨helper, hr, rfl⟩
      exact hr
    · intro hr
      obtain ⟨helper, rfl⟩ := h _ hr
      exact ⟨helper, hr, rfl⟩
  case defined =>
    intro name
    rw [mem_defined_addAll, hmem]
    simp [Request.defined_mem_noted, ofLocals, NameSet.mem_ofList]
  case byModule =>
    intro module names
    rw [mem_byModule, mem_siblings]
    constructor
    · rintro ⟨⟨name, hname, hmodule⟩, rfl⟩
      refine ⟨⟨name, mem_typesFrom.mpr ⟨hname, hmodule⟩⟩, fun name => ?_⟩
      rw [mem_typesFrom, htypes]
      exact and_right_comm.trans and_assoc
    · rintro ⟨⟨name, hname⟩, hnames⟩
      have heq (name : String) : name ∈ names ↔ name ∈ typesFrom module
          ((ofLocals locals).addAll (rs.flatMap Request.noted)) := by
        rw [hnames, mem_typesFrom, htypes]
        exact and_assoc.symm.trans and_right_comm
      exact ⟨⟨name, mem_typesFrom.mp ((heq name).mp hname)⟩, NameSet.ext heq⟩
  case nodup => exact nodup_byModule _

/-- **The order of requests does not matter.** Known requests are all served, in any order and with the same
record in the end, which has what is asked for and nothing else; so the import lines are the same too. The
dictionary that is kept on the way has the entries of that record. A request for a helper that there is not is
refused, whatever is recorded, and leaves the record as it is. -/
theorem serveAll_order (locals : List String) (rs : List Request) (hknown : ∀ r ∈ rs, r.IsKnown) :
    (∃ i, i.Answers locals rs ∧
      ∀ rs', rs'.Perm rs → (serveAll rs').run (ofLocals locals) = .ok () i ∧
        (Shelves.noteAll (ofLocals locals) [] (rs'.flatMap Request.noted)).Perm i.byModule) ∧
    ∀ name, (∀ helper : Helper, helper.name ≠ name) →
      ∀ i, (serve (.helper name)).run i = .error (.notSupported name) i := by
  refine ⟨⟨_, answers_addAll locals hknown, fun rs' hperm => ?_⟩, fun name => serve_unknown⟩
  have hsame : (ofLocals locals).addAll (rs'.flatMap Request.noted) =
      (ofLocals locals).addAll (rs.flatMap Request.noted) :=
    addAll_congr (separate_ofLocals locals) fun n => (hperm.flatMap_right _).mem_iff
  have hempty : Shelves.Holds [] (ofLocals locals) := by
    refine ⟨List.nodup_nil, fun module names => ?_⟩
    simp [mem_siblings, ofLocals]
  rw [← hsame]
  exact ⟨serveAll_of_known fun r hr => hknown r (hperm.subset hr), (hempty.noteAll _).perm⟩

/-- Requests in which one class is defined before it is needed, and another one afterwards. -/
def sideRequests : List Request :=
  [.type "Side", .helper "read_exact", .define "Trade", .modules ["struct", "math"], .type "Trade",
    .type "SideCode", .define "Side", .module "struct"]

/-- What these requests come to, in any order. -/
theorem sideRequests_order : (∀ r ∈ sideRequests, r.IsKnown) ∧
    (∃ i, i.Answers ["Book"] sideRequests ∧
      ∀ rs', rs'.Perm sideRequests → (serveAll rs').run (ofLocals ["Book"]) = .ok () i ∧
        (Shelves.noteAll (ofLocals ["Book"]) [] (rs'.flatMap Request.noted)).Perm i.byModule) ∧
    (∀ helper : Helper, helper.name ≠ "read_some") ∧
    (serve (.helper "read_some")).run {} = .error (.notSupported "read_some") {} := by
  have hknown : ∀ r ∈ sideRequests, r.IsKnown := by
    simp only [sideRequests, List.forall_mem_cons, List.not_mem_nil, false_imp_iff, implies_true,
      and_true, Request.IsKnown, true_and]
    exact ⟨.readExact, rfl⟩
  have hunknown : ∀ helper : Helper, helper.name ≠ "read_some" := by
    intro helper
    cases helper <;> decide
  obtain ⟨hserved, hrefused⟩ := serveAll_order ["Book"] sideRequests hknown
  exact ⟨hknown, hserved, hunknown, hrefused _ hunknown _⟩

end Imports

end SimpleBinary

import Mathlib
import SimpleBinary.Package
import SimpleBinary.Proofs.Results

/-!
The modules of a schema.

A package is written step by step, with what has been exported so far as a state. Here is what comes of
it, without a state: each entity of a schema has a module of its own, or a fault
(`Entity.modules`, `Schema.modules`), and a schema is generated where all of them have one and no two
modules share a name. What each step does is said by `Writes`, for one entity, for several in a row and
for the whole schema; `Schema.generates_spec` and `Schema.exists_generates` are the two directions.
-/

set_option autoImplicit false

namespace SimpleBinary

open Code

/-- A module of a package: what it is called, what it imports and defines, and its classes. -/
structure Package.Module where
  name : String
  imports : Imports
  classes : List ClassDef

namespace Package.Module

/-- The source of a module. -/
def source (m : Module) : Text :=
  moduleSource (classesText m.classes) m.imports

/-- A module as it is exported: by its name, with the classes that it defines. -/
def entry (m : Module) : String × List String :=
  (m.name, m.imports.defined.toList)

/-- A module as it is written. -/
def file (m : Module) : String × Text :=
  (m.name, m.source)

end Package.Module

open Package (Module)

/-- The module of an entity, unless its classes cannot be written. -/
def Entity.modules (entity : Entity) : Except Fault (List Module) := do
  let classes ← entity.classes.outcome
  return [{
    name := Identifier.moduleName entity.typeName
    imports := Imports.addAll {} entity.classes.notes
    classes }]

/-- The module of a type. There is none for the composite of the header. -/
def typeModules (e : Edition) (tokens : List Token) : Except Fault (List Module) := do
  match ← Entity.ofType e tokens with
  | .inl entity => entity.modules
  | .inr _ => return []

/-- The module of a message. -/
def messageModules (e : Edition) (tokens : List Token) : Except Fault (List Module) := do
  (← Entity.ofMessage e tokens).modules

/-- What all items of a list give. -/
def collect {α β : Type} (k : α → Except Fault (List β)) : List α → Except Fault (List β)
  | [] => .ok []
  | a :: rest => do return (← k a) ++ (← collect k rest)

namespace Schema

/-- The modules of a schema in the order in which they are written: that of the header, those of the
types and those of the messages. -/
def modules (s : Schema) : Except Fault (List Module) := do
  let header ← (Entity.ofHeader s.toEdition).modules
  let types ← collect (typeModules s.toEdition) s.types
  let messages ← collect (messageModules s.toEdition) s.messages
  return header ++ (types ++ messages)

/-- Whether a package is what comes of a schema without a fault. -/
def Generates (s : Schema) (p : Package) : Prop :=
  Package.after {} (Generation.addSchema s) = (p, none)

end Schema

/-! ## What the items of a list give -/

theorem collect_cons_ok {α β : Type} {k : α → Except Fault (List β)} {a : α} {rest : List α}
    {bs : List β} :
    collect k (a :: rest) = .ok bs ↔
      ∃ first others, k a = .ok first ∧ collect k rest = .ok others ∧ bs = first ++ others := by
  constructor
  · intro h
    obtain ⟨first, hfirst, h⟩ := except_bind_ok h
    obtain ⟨others, hothers, h⟩ := except_bind_ok h
    exact ⟨first, others, hfirst, hothers, (Except.ok.inj h).symm⟩
  · rintro ⟨first, others, hfirst, hothers, rfl⟩
    rw [collect, hfirst, hothers]
    rfl

/-- What an item of a list gives is part of what all of them give. -/
theorem mem_of_mem_collect {α β : Type} {k : α → Except Fault (List β)} {as : List α} {bs : List β}
    (h : collect k as = .ok bs) {a : α} (ha : a ∈ as) : ∃ own, k a = .ok own ∧ own ⊆ bs := by
  induction as generalizing bs with
  | nil => cases ha
  | cons first rest ih =>
    obtain ⟨own, others, hown, hothers, rfl⟩ := collect_cons_ok.mp h
    rcases List.mem_cons.mp ha with rfl | ha
    · exact ⟨own, hown, List.subset_append_left own others⟩
    · obtain ⟨found, hfound, hsub⟩ := ih hothers ha
      exact ⟨found, hfound, List.Subset.trans hsub (List.subset_append_right own others)⟩

/-- What all items of a list give comes from one of them. -/
theorem exists_of_mem_collect {α β : Type} {k : α → Except Fault (List β)} {as : List α} {bs : List β}
    (h : collect k as = .ok bs) {b : β} (hb : b ∈ bs) : ∃ a ∈ as, ∃ own, k a = .ok own ∧ b ∈ own := by
  induction as generalizing bs with
  | nil =>
    rw [← Except.ok.inj h] at hb
    cases hb
  | cons first rest ih =>
    obtain ⟨own, others, hown, hothers, rfl⟩ := collect_cons_ok.mp h
    rcases List.mem_append.mp hb with hb | hb
    · exact ⟨first, List.mem_cons_self .., own, hown, hb⟩
    · obtain ⟨a, ha, hfound⟩ := ih hothers hb
      exact ⟨a, List.mem_cons_of_mem _ ha, hfound⟩

/-- The modules of a schema are those of its header, its types and its messages. -/
theorem Schema.modules_ok {s : Schema} {ms : List Module} : s.modules = .ok ms ↔
    ∃ header types messages, (Entity.ofHeader s.toEdition).modules = .ok header ∧
      collect (typeModules s.toEdition) s.types = .ok types ∧
      collect (messageModules s.toEdition) s.messages = .ok messages ∧
      ms = header ++ (types ++ messages) := by
  constructor
  · intro h
    obtain ⟨header, hheader, h⟩ := except_bind_ok h
    obtain ⟨types, htypes, h⟩ := except_bind_ok h
    obtain ⟨messages, hmessages, h⟩ := except_bind_ok h
    exact ⟨header, types, messages, hheader, htypes, hmessages, (Except.ok.inj h).symm⟩
  · rintro ⟨header, types, messages, hheader, htypes, hmessages, rfl⟩
    unfold modules
    rw [hheader, htypes, hmessages]
    rfl

namespace Package

/-- Whether the names of modules are free. -/
def Admits (p : Package) (ms : List Module) : Prop :=
  (ms.map Module.name).Nodup ∧ ∀ m ∈ ms, m.name ∉ p.exports.map Prod.fst

/-- Whether a package has modules in addition to those of another one. -/
def Grows (p : Package) (ms : List Module) (q : Package) : Prop :=
  q.exports = p.exports ++ ms.map Module.entry ∧ q.written = p.written ++ ms.map Module.file

variable {p q r : Package} {ms ns : List Module}

theorem map_fst_entry (ms : List Module) : (ms.map Module.entry).map Prod.fst = ms.map Module.name := by
  rw [List.map_map]
  rfl

theorem map_fst_file (ms : List Module) : (ms.map Module.file).map Prod.fst = ms.map Module.name := by
  rw [List.map_map]
  rfl

theorem Grows.trans (h : p.Grows ms q) (h' : q.Grows ns r) : p.Grows (ms ++ ns) r := by
  obtain ⟨hexports, hwritten⟩ := h
  obtain ⟨hexports', hwritten'⟩ := h'
  constructor
  · rw [hexports', hexports, List.map_append, List.append_assoc]
  · rw [hwritten', hwritten, List.map_append, List.append_assoc]

/-- The names of several modules are free if those of the first are, and those of the rest still are
when the first are taken. -/
theorem admits_append (h : p.Grows ms q) : p.Admits (ms ++ ns) ↔ p.Admits ms ∧ q.Admits ns := by
  have htaken (name : String) :
      name ∈ q.exports.map Prod.fst ↔ name ∈ p.exports.map Prod.fst ∨ name ∈ ms.map Module.name := by
    rw [h.1, List.map_append, map_fst_entry, List.mem_append]
  simp only [Admits, List.map_append, List.nodup_append, List.forall_mem_append, htaken, not_or]
  constructor
  · rintro ⟨⟨hms, hns, hapart⟩, hfreeMs, hfreeNs⟩
    refine ⟨⟨hms, hfreeMs⟩, hns, ?_⟩
    intro n hn
    refine ⟨hfreeNs n hn, ?_⟩
    intro hname
    exact hapart _ hname _ (List.mem_map_of_mem hn) rfl
  · rintro ⟨⟨hms, hfreeMs⟩, hns, hfreeNs⟩
    refine ⟨⟨hms, hns, ?_⟩, hfreeMs, fun n hn => (hfreeNs n hn).1⟩
    rintro name hname other hother rfl
    obtain ⟨n, hn, rfl⟩ := List.mem_map.mp hother
    exact (hfreeNs n hn).2 hname

end Package

namespace Generation

/-! ## What a part of the generation writes -/

/-- Whether a part of the generation writes some modules: it succeeds exactly where there are modules
with free names, and then adds them. -/
structure Writes (g : Generation Unit) (outcome : Except Fault (List Module)) : Prop where
  sound : ∀ {p q : Package}, g p = .ok () q → ∃ ms, outcome = .ok ms ∧ p.Admits ms ∧ p.Grows ms q
  complete : ∀ {p : Package} {ms : List Module}, outcome = .ok ms → p.Admits ms →
    ∃ q, g p = .ok () q

theorem ofExcept_ok {α : Type} {outcome : Except Fault α} {p q : Package} {a : α} :
    ofExcept outcome p = .ok a q ↔ outcome = .ok a ∧ p = q := by
  cases outcome with
  | ok b => rw [ofExcept, state_pure_ok, Except.ok.injEq]
  | error fault => simp [ofExcept, state_throw_ok]

/-- The package with some more events. -/
def withEvents (p : Package) (events : List Event) : Package :=
  { p with events := p.events ++ events }

theorem record_eq (events : List Event) (p : Package) :
    record events p = .ok () (withEvents p events) :=
  rfl

theorem written_withEvents (p : Package) (events : List Event) :
    (withEvents p events).written = p.written ++ ({ events := events } : Package).written :=
  List.filterMap_append

/-- A package that stays as it is has no more modules. -/
theorem grows_nil (p : Package) : p.Grows [] p :=
  ⟨(List.append_nil _).symm, (List.append_nil _).symm⟩

theorem admits_nil (p : Package) : p.Admits [] :=
  ⟨List.nodup_nil, by simp⟩

theorem writes_pure : Writes (pure ()) (.ok []) where
  sound := by
    intro p q hrun
    obtain ⟨-, rfl⟩ := state_pure_ok.mp hrun
    exact ⟨[], rfl, admits_nil p, grows_nil p⟩
  complete _ _ := ⟨_, rfl⟩

/-- Events that write nothing add no module. -/
theorem writes_record {events : List Event} (h : ({ events := events } : Package).written = []) :
    Writes (record events) (.ok []) where
  sound := by
    rintro p q hrun
    obtain rfl : withEvents p events = q := by
      rw [record_eq] at hrun
      exact (EStateM.Result.ok.inj hrun).2
    refine ⟨[], rfl, admits_nil p, (List.append_nil _).symm, ?_⟩
    rw [written_withEvents, h]
    rfl
  complete _ _ := ⟨_, record_eq events _⟩

/-- Parts of the generation one after the other write what each of them writes. -/
theorem writes_bind {g h : Generation Unit} {a b : Except Fault (List Module)} (hg : Writes g a)
    (hh : Writes h b) : Writes (g >>= fun _ => h) (do return (← a) ++ (← b)) where
  sound := by
    intro p r hrun
    obtain ⟨_, q, hfirst, hsecond⟩ := state_bind_ok.mp hrun
    obtain ⟨ms, rfl, hadmits, hgrows⟩ := hg.sound hfirst
    obtain ⟨ns, rfl, hadmits', hgrows'⟩ := hh.sound hsecond
    exact ⟨ms ++ ns, rfl, (Package.admits_append hgrows).mpr ⟨hadmits, hadmits'⟩,
      hgrows.trans hgrows'⟩
  complete := by
    intro p both hboth hadmits
    obtain ⟨ms, hms, hboth⟩ := except_bind_ok hboth
    obtain ⟨ns, hns, hboth⟩ := except_bind_ok hboth
    obtain rfl := Except.ok.inj hboth
    have hfree : p.Admits ms := by
      have := List.nodup_append.mp (List.map_append ▸ hadmits.1)
      exact ⟨this.1, fun m hm => hadmits.2 m (List.mem_append_left _ hm)⟩
    obtain ⟨q, hfirst⟩ := hg.complete hms hfree
    obtain ⟨ms', hms', -, hgrows⟩ := hg.sound hfirst
    obtain rfl := Except.ok.inj (hms.symm.trans hms')
    obtain ⟨r, hsecond⟩ := hh.complete hns ((Package.admits_append hgrows).mp hadmits).2
    exact ⟨r, state_bind_ok.mpr ⟨(), q, hfirst, hsecond⟩⟩

/-- The same part for each item of a list. -/
theorem writes_forM {α : Type} {f : α → Generation Unit} {k : α → Except Fault (List Module)}
    (h : ∀ a, Writes (f a) (k a)) (as : List α) : Writes (as.forM f) (collect k as) := by
  induction as with
  | nil => exact writes_pure
  | cons a rest ih => exact writes_bind (h a) ih

/-! ## Entities -/

/-- The warnings of an emission, as events. -/
def warnings {α : Type} (x : Emission α) : List Event :=
  (x.notes.filterMap Note.warning?).map .warned

theorem written_warnings {α : Type} (x : Emission α) :
    ({ events := warnings x } : Package).written = [] := by
  rw [Package.written, List.filterMap_eq_nil_iff]
  intro event hevent
  obtain ⟨w, -, rfl⟩ := List.mem_map.mp hevent
  rfl

theorem emit_ok {α : Type} {x : Emission α} {a : α} (h : x.outcome = .ok a) (p : Package) :
    emit x p = .ok a (withEvents p (warnings x)) := by
  show (record (warnings x) >>= fun _ => ofExcept x.outcome) p = _
  rw [h]
  rfl

theorem emit_error {α : Type} {x : Emission α} {fault : Fault} (h : x.outcome = .error fault)
    (p : Package) : emit x p = .error fault (withEvents p (warnings x)) := by
  show (record (warnings x) >>= fun _ => ofExcept x.outcome) p = _
  rw [h]
  rfl

/-- The package with the module of an entity. -/
def withModule (p : Package) (entity : Entity) (m : Module) : Package :=
  withEvents { withEvents p (warnings entity.classes) with exports := p.exports ++ [m.entry] }
    [.wrote m.name m.source, .placed entity.typeName m.name]

theorem grows_withModule (p : Package) (entity : Entity) (m : Module) :
    p.Grows [m] (withModule p entity m) := by
  refine ⟨rfl, ?_⟩
  have hwarnings : (withEvents p (warnings entity.classes)).written = p.written := by
    rw [written_withEvents, written_warnings, List.append_nil]
  rw [withModule, written_withEvents]
  show (withEvents p (warnings entity.classes)).written ++ _ = _
  rw [hwarnings]
  rfl

theorem add_ok {entity : Entity} {p q : Package} :
    add entity p = .ok () q ↔
      ∃ m, entity.modules = .ok [m] ∧ m.name ∉ p.exports.map Prod.fst ∧
        q = withModule p entity m := by
  unfold Entity.modules
  cases houtcome : entity.classes.outcome with
  | error fault =>
    have hadd : add entity p = .error fault (withEvents p (warnings entity.classes)) := by
      show EStateM.bind (emit entity.classes) _ p = _
      rw [EStateM.bind, emit_error houtcome]
    rw [hadd]
    simp [bind, Except.bind]
  | ok classes =>
    have hname : p.exports.any (·.1 == Identifier.moduleName entity.typeName) = true ↔
        Identifier.moduleName entity.typeName ∈ p.exports.map Prod.fst := by
      simp only [List.any_eq_true, beq_iff_eq, List.mem_map]
    -- What the classes warn of is recorded first, whatever becomes of the module.
    have hadd : add entity p = (do
        if p.exports.any (·.1 == Identifier.moduleName entity.typeName) then
          throw (.inconsistent
            (.moduleTaken entity.typeName (Identifier.moduleName entity.typeName)))
        else
          set (withModule p entity ⟨Identifier.moduleName entity.typeName,
            Imports.addAll {} entity.classes.notes, classes⟩) : Generation Unit)
        (withEvents p (warnings entity.classes)) := by
      show EStateM.bind (emit entity.classes) _ p = _
      rw [EStateM.bind, emit_ok houtcome]
      show (if p.exports.any _ = true then _ else _ : Generation Unit) _ = _
      split <;> rfl
    rw [hadd]
    split
    · rename_i htaken
      rw [state_throw_ok, false_iff]
      rintro ⟨m, hm, hfree, -⟩
      obtain rfl := List.singleton_inj.mp (Except.ok.inj hm)
      exact hfree (hname.mp htaken)
    · rename_i hfree
      constructor
      · intro hset
        exact ⟨_, rfl, fun htaken => hfree (hname.mpr htaken), (EStateM.Result.ok.inj hset).2.symm⟩
      · rintro ⟨m, hm, -, rfl⟩
        obtain rfl := List.singleton_inj.mp (Except.ok.inj hm)
        rfl

/-- **The module of an entity** is written where its name is free. -/
theorem writes_add (entity : Entity) : Writes (add entity) entity.modules where
  sound := by
    intro p q hrun
    obtain ⟨m, hm, hfree, rfl⟩ := add_ok.mp hrun
    refine ⟨[m], hm, ⟨List.nodup_singleton _, ?_⟩, grows_withModule p entity m⟩
    rwa [List.forall_mem_singleton]
  complete := by
    intro p ms hms hadmits
    obtain ⟨classes, hclasses, hms'⟩ := except_bind_ok hms
    obtain rfl := Except.ok.inj hms'
    exact ⟨_, add_ok.mpr ⟨_, hms, hadmits.2 _ (List.mem_singleton_self _), rfl⟩⟩

/-- What follows a result or a fault. -/
theorem writes_ofExcept_bind {α : Type} {outcome : Except Fault α} {f : α → Generation Unit}
    {k : α → Except Fault (List Module)} (h : ∀ a, Writes (f a) (k a)) :
    Writes (ofExcept outcome >>= f) (outcome >>= k) where
  sound := by
    intro p q hrun
    obtain ⟨a, _, hof, hrun⟩ := state_bind_ok.mp hrun
    obtain ⟨rfl, rfl⟩ := ofExcept_ok.mp hof
    exact (h a).sound hrun
  complete := by
    intro p ms hms hadmits
    obtain ⟨a, rfl, hms⟩ := except_bind_ok hms
    obtain ⟨q, hq⟩ := (h a).complete hms hadmits
    exact ⟨q, state_bind_ok.mpr ⟨a, p, ofExcept_ok.mpr ⟨rfl, rfl⟩, hq⟩⟩

theorem writes_addType (e : Edition) (tokens : List Token) :
    Writes (addType e tokens) (typeModules e tokens) := by
  refine writes_ofExcept_bind fun found => ?_
  cases found with
  | inl entity => exact writes_add entity
  | inr typeName => exact writes_record rfl

theorem writes_addMessage (e : Edition) (tokens : List Token) :
    Writes (addMessage e tokens) (messageModules e tokens) :=
  writes_ofExcept_bind writes_add

/-- **The modules of a schema** are written where none of their names is taken by an earlier one. -/
theorem writes_modules (s : Schema) :
    Writes (do
      add (Entity.ofHeader s.toEdition)
      s.types.forM (addType s.toEdition)
      s.messages.forM (addMessage s.toEdition)) s.modules := by
  have hentities := writes_bind (writes_add (Entity.ofHeader s.toEdition))
    (writes_bind (writes_forM (writes_addType s.toEdition) s.types)
      (writes_forM (writes_addMessage s.toEdition) s.messages))
  have hmodules : s.modules = (do
      return (← (Entity.ofHeader s.toEdition).modules) ++
        (← (do return (← collect (typeModules s.toEdition) s.types) ++
          (← collect (messageModules s.toEdition) s.messages)))) := by
    unfold Schema.modules
    simp only [bind_assoc, pure_bind]
  rw [hmodules]
  exact hentities

end Generation

/-! ## Whole packages -/

namespace Schema

variable {s : Schema} {p : Package} {ms : List Module}

theorem generates_iff : s.Generates p ↔ Generation.addSchema s {} = .ok () p := by
  unfold Generates Package.after
  rw [EStateM.run]
  cases Generation.addSchema s {} with
  | ok u q => simp
  | error fault q => simp

/-- The generation in three parts: the support module, the modules of the schema, and the module that
stands for the package. -/
theorem generates_iff_exists : s.Generates p ↔ s.toEdition.isWritable = true ∧
    ∃ q, (do
        Generation.add (Entity.ofHeader s.toEdition)
        s.types.forM (Generation.addType s.toEdition)
        s.messages.forM (Generation.addMessage s.toEdition) : Generation Unit)
      (Generation.withEvents {} [.wrote supportModule supportSource]) = .ok () q ∧
    p = Generation.withEvents q [.wrote "__init__" (initSource s.toEdition q.exports)] := by
  rw [generates_iff]
  unfold Generation.addSchema
  constructor
  · intro h
    obtain ⟨_, start, hsupport, h⟩ := state_bind_ok.mp h
    obtain rfl := (EStateM.Result.ok.inj hsupport).2
    obtain ⟨_, u, hheader, h⟩ := state_bind_ok.mp h
    obtain ⟨_, v, htypes, h⟩ := state_bind_ok.mp h
    obtain ⟨_, q, hmessages, h⟩ := state_bind_ok.mp h
    split at h
    · rename_i hwritable
      obtain ⟨_, _, hget, h⟩ := state_bind_ok.mp h
      obtain ⟨rfl, rfl⟩ := state_get_ok.mp hget
      refine ⟨hwritable, q, ?_, (EStateM.Result.ok.inj h).2.symm⟩
      exact state_bind_ok.mpr ⟨_, u, hheader, state_bind_ok.mpr ⟨_, v, htypes, hmessages⟩⟩
    · exact (state_throw_ok.mp h).elim
  · rintro ⟨hwritable, q, h, rfl⟩
    obtain ⟨_, u, hheader, h⟩ := state_bind_ok.mp h
    obtain ⟨_, v, htypes, hmessages⟩ := state_bind_ok.mp h
    refine state_bind_ok.mpr ⟨(), _, rfl, state_bind_ok.mpr ⟨_, u, hheader, ?_⟩⟩
    refine state_bind_ok.mpr ⟨_, v, htypes, state_bind_ok.mpr ⟨_, q, hmessages, ?_⟩⟩
    rw [if_pos hwritable]
    rfl

/-- **What is generated**: the support module, the modules of the schema and the module that stands for
the package, each under a name of its own but for the first and the last. -/
theorem generates_spec (h : s.Generates p) : ∃ ms, s.modules = .ok ms ∧ (ms.map Module.name).Nodup ∧
    s.toEdition.isWritable = true ∧ p.exports = ms.map Module.entry ∧
    p.written = (supportModule, (supportSource : Text)) :: ms.map Module.file ++
      [("__init__", (initSource s.toEdition p.exports : Text))] := by
  obtain ⟨hwritable, q, hrun, rfl⟩ := generates_iff_exists.mp h
  obtain ⟨ms, hms, ⟨hnodup, -⟩, hexports, hwritten⟩ := (Generation.writes_modules s).sound hrun
  refine ⟨ms, hms, hnodup, hwritable, hexports, ?_⟩
  rw [Generation.written_withEvents, hwritten]
  rfl

/-- What is generated, where the modules of the schema are known. -/
theorem written_of_generates (h : s.Generates p) (hms : s.modules = .ok ms) :
    (ms.map Module.name).Nodup ∧ p.exports = ms.map Module.entry ∧
      p.written = (supportModule, (supportSource : Text)) :: ms.map Module.file ++
        [("__init__", (initSource s.toEdition p.exports : Text))] := by
  obtain ⟨ms', hms', hnodup, -, hexports, hwritten⟩ := generates_spec h
  obtain rfl := Except.ok.inj (hms.symm.trans hms')
  exact ⟨hnodup, hexports, hwritten⟩

/-- The names that the modules of a package are exported and written under. -/
theorem names_of_generates (h : s.Generates p) (hms : s.modules = .ok ms) :
    p.exports.map Prod.fst = ms.map Module.name ∧
      p.written.map Prod.fst = supportModule :: ms.map Module.name ++ ["__init__"] := by
  obtain ⟨-, hexports, hwritten⟩ := written_of_generates h hms
  rw [hexports, hwritten, List.map_append, List.map_cons, Package.map_fst_entry, Package.map_fst_file]
  exact ⟨rfl, rfl⟩

/-- The file of each module is among those that are written. -/
theorem file_mem_written (h : s.Generates p) (hms : s.modules = .ok ms) {m : Module} (hm : m ∈ ms) :
    m.file ∈ p.written := by
  rw [(written_of_generates h hms).2.2]
  exact List.mem_append_left _ (List.mem_cons_of_mem _ (List.mem_map_of_mem hm))

/-- A schema whose modules have different names is generated. -/
theorem exists_generates (hms : s.modules = .ok ms) (hnodup : (ms.map Module.name).Nodup)
    (hwritable : s.toEdition.isWritable = true) : ∃ p, s.Generates p := by
  obtain ⟨q, hq⟩ := (Generation.writes_modules s).complete hms
    (p := Generation.withEvents {} [.wrote supportModule supportSource])
    ⟨hnodup, fun _ _ => List.not_mem_nil⟩
  exact ⟨_, generates_iff_exists.mpr ⟨hwritable, q, hq, rfl⟩⟩

end Schema

/-! ## Sources by name -/

section

variable {β : Type} {entries : List (String × β)} {key : String} {value : β}

theorem lookup_cons_ite (k : String) (v : β) :
    ((k, v) :: entries).lookup key = if key = k then some v else entries.lookup key := by
  rw [List.lookup_cons]
  by_cases h : key = k
  · rw [if_pos h, h, beq_self_eq_true]
  · rw [if_neg h, beq_eq_false_iff_ne.mpr h]

/-- Where no key occurs twice, a key has the value that stands with it. -/
theorem lookup_eq_some_iff_mem (h : (entries.map Prod.fst).Nodup) :
    entries.lookup key = some value ↔ (key, value) ∈ entries := by
  induction entries with
  | nil => simp
  | cons first rest ih =>
    obtain ⟨k, v⟩ := first
    obtain ⟨hfirst, hrest⟩ := List.nodup_cons.mp h
    rw [lookup_cons_ite, List.mem_cons, Prod.mk.injEq]
    by_cases hkey : key = k
    · have hnot : (key, value) ∉ rest := by
        intro hmem
        rw [hkey] at hmem
        exact hfirst (List.mem_map.mpr ⟨_, hmem, rfl⟩)
      simp [hkey, hkey ▸ hnot, eq_comm]
    · simp [hkey, ih hrest]

/-- Where no key occurs twice, the order of the entries does not matter. -/
theorem lookup_perm {others : List (String × β)} (h : (entries.map Prod.fst).Nodup)
    (hperm : entries.Perm others) : entries.lookup key = others.lookup key := by
  have hothers : (others.map Prod.fst).Nodup := (hperm.map Prod.fst).nodup_iff.mp h
  apply Option.ext
  intro value
  rw [lookup_eq_some_iff_mem h, lookup_eq_some_iff_mem hothers, hperm.mem_iff]

end

namespace Package

theorem lookup_setSource (name module : String) (source : Text) (sources : List (String × Text)) :
    (setSource module source sources).lookup name =
      if name = module then some source else sources.lookup name := by
  induction sources with
  | nil =>
    rw [setSource, lookup_cons_ite]
  | cons first rest ih =>
    obtain ⟨m, old⟩ := first
    rw [setSource]
    by_cases hm : m = module
    · rw [if_pos hm, lookup_cons_ite, lookup_cons_ite, hm]
      split <;> rfl
    · rw [if_neg hm, lookup_cons_ite, lookup_cons_ite, ih]
      by_cases hname : name = m
      · rw [if_pos hname, if_pos hname, if_neg (hname ▸ hm)]
      · rw [if_neg hname, if_neg hname]

/-- **A name has the source that was written last under it.** -/
theorem lookup_sources (p : Package) (name : String) :
    p.sources.lookup name = p.written.reverse.lookup name := by
  have hfold (written sources : List (String × Text)) :
      (written.foldl (fun sources file => setSource file.1 file.2 sources) sources).lookup name =
        (written.reverse.lookup name).or (sources.lookup name) := by
    induction written generalizing sources with
    | nil => simp
    | cons file rest ih =>
      have hlast : [file].lookup name = if name = file.1 then some file.2 else none :=
        lookup_cons_ite file.1 file.2
      rw [List.foldl_cons, ih, List.reverse_cons, List.lookup_append, lookup_setSource, Option.or_assoc,
        hlast]
      split <;> rfl
  rw [sources, hfold, List.lookup_nil, Option.or_none]

end Package

namespace Schema

variable {s : Schema} {p : Package} {ms : List Module}

/-- **The sources of what is generated**, by their names. The module that stands for the package is
written last, so that no other module can have its name and be found. -/
theorem lookup_sources_of_generates (h : s.Generates p) (hms : s.modules = .ok ms) (name : String) :
    p.sources.lookup name =
      if name = "__init__" then some (initSource s.toEdition p.exports : Text)
      else ((ms.map Module.file).lookup name).or
        (if name = supportModule then some (supportSource : Text) else none) := by
  obtain ⟨hnodup, -, hwritten⟩ := written_of_generates h hms
  have hreverse : (ms.map Module.file).reverse.lookup name = (ms.map Module.file).lookup name := by
    refine (lookup_perm ?_ (List.reverse_perm _).symm).symm
    rwa [Package.map_fst_file]
  have hsupport : [(supportModule, (supportSource : Text))].lookup name =
      if name = supportModule then some (supportSource : Text) else none :=
    lookup_cons_ite supportModule _
  rw [Package.lookup_sources, hwritten, List.reverse_append, List.reverse_singleton,
    List.singleton_append, lookup_cons_ite, List.reverse_cons, List.lookup_append, hreverse, hsupport]

/-- The source of a module is found under its name. -/
theorem lookup_module (h : s.Generates p) (hms : s.modules = .ok ms) {m : Module} (hm : m ∈ ms)
    (hname : m.name ≠ "__init__") : p.sources.lookup m.name = some m.source := by
  obtain ⟨hnodup, -⟩ := written_of_generates h hms
  have hfound : (ms.map Module.file).lookup m.name = some m.source := by
    rw [lookup_eq_some_iff_mem (by rwa [Package.map_fst_file])]
    exact List.mem_map_of_mem (f := Module.file) hm
  rw [lookup_sources_of_generates h hms, if_neg hname, hfound]
  rfl

end Schema

/-! ## A sample -/

/-- The tokens of the header of the messages of a desk. -/
def deskHeader : List Token := [
  { signal := .opens .composite, name := "messageHeader", encodedLength := some 8, tokenCount := some 6 },
  { signal := .encoding, name := "blockLength", encodedLength := some 2
    encoding := { primitive := some .uint16 } },
  { signal := .encoding, name := "templateId", encodedLength := some 2
    encoding := { primitive := some .uint16 } },
  { signal := .encoding, name := "schemaId", encodedLength := some 2
    encoding := { primitive := some .uint16 } },
  { signal := .encoding, name := "version", encodedLength := some 2
    encoding := { primitive := some .uint16 } },
  { signal := .closes .composite, name := "messageHeader", tokenCount := some 6 }]

/-- The tokens of the sides of an order. -/
def deskSide : List Token := [
  { signal := .opens .enumeration, name := "side", encodedLength := some 1, tokenCount := some 3
    encoding := { primitive := some .uint8 } },
  { signal := .validValue, name := "buy", encoding := { constValue := some "1" } },
  { signal := .closes .enumeration, name := "side", tokenCount := some 3 }]

/-- The tokens of a quote: a price and the side that it is for. -/
def deskQuote : List Token := [
  { signal := .opens .composite, name := "quote", encodedLength := some 9, tokenCount := some 6 },
  { signal := .encoding, name := "price", encodedLength := some 8
    encoding := { primitive := some .int64 } }] ++ deskSide ++ [
  { signal := .closes .composite, name := "quote", tokenCount := some 6 }]

/-- The tokens of a message with a quote. -/
def deskOrder : List Token := [
  { signal := .opens .message, name := "order", encodedLength := some 9, tokenCount := some 10 },
  { signal := .opens .field, name := "quote", tokenCount := some 8 }] ++ deskQuote ++ [
  { signal := .closes .field, name := "quote", tokenCount := some 8 },
  { signal := .closes .message, name := "order", tokenCount := some 10 }]

/-- The tokens of a message with a side. -/
def deskCancel : List Token := [
  { signal := .opens .message, name := "cancel", encodedLength := some 1, tokenCount := some 7 },
  { signal := .opens .field, name := "side", tokenCount := some 5 }] ++ deskSide ++ [
  { signal := .closes .field, name := "side", tokenCount := some 5 },
  { signal := .closes .message, name := "cancel", tokenCount := some 7 }]

/-- The schema of a desk. It lists its header among its types. -/
def deskSchema : Schema where
  namespaces := ["desk"]
  id := 7
  header := ⟨deskHeader, some .uint16, some .uint16, some .uint16, some .uint16⟩
  types := [deskHeader, deskSide, deskQuote]
  messages := [deskOrder, deskCancel]

/-- A schema whose modules can be computed and have different names is generated. -/
theorem Schema.exists_generates_of_names {s : Schema} {names : List String}
    (h : (s.modules.map (·.map Module.name)).toOption = some names) (hnodup : names.Nodup)
    (hwritable : s.toEdition.isWritable = true) :
    ∃ ms p, s.modules = .ok ms ∧ ms.map Module.name = names ∧ s.Generates p := by
  obtain ⟨ms, hms, rfl⟩ := exists_of_computed h
  obtain ⟨p, hp⟩ := s.exists_generates hms hnodup hwritable
  exact ⟨ms, p, hms, rfl, hp⟩

theorem exists_deskPackage : ∃ ms p, deskSchema.modules = .ok ms ∧
    ms.map Module.name = ["message_header", "side", "quote", "order", "cancel"] ∧
    deskSchema.Generates p :=
  Schema.exists_generates_of_names (by decide +kernel) (by decide) (by decide +kernel)

end SimpleBinary

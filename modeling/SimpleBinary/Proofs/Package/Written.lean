import SimpleBinary.Proofs.Package.Siblings

/-!
What is written, in order.

A package is written by entities: the header, the types that are not its composite listed once more, and the
messages have one module each (`Schema.entities`, `Schema.collect_entities`). In front of them stands the
support module, and behind them the module that stands for the package. These two are written without a look
at the names that are taken, and no entity looks for theirs. So no name is written twice exactly if no entity
takes one of these two, and then every module keeps its source (`Schema.written_one_per_entity`); an entity
that takes the name of the support module replaces it (`Schema.sideSchema_replaces`).
-/

set_option autoImplicit false

namespace SimpleBinary

open Package (Module)

namespace Schema

/-- The entities of a schema in the order in which they are written. The composite of the header is left out
where it is listed among the types. -/
def entities (s : Schema) : Except Fault (List Entity) := do
  let types ← s.types.mapM (Entity.ofType s.toEdition)
  let messages ← s.messages.mapM (Entity.ofMessage s.toEdition)
  return Entity.ofHeader s.toEdition :: (types.filterMap Sum.getLeft? ++ messages)

/-- The class name of a type, unless it is the composite of the header. -/
def ownName? (tokens : List Token) : Option String := do
  let first ← tokens.head?
  let name ← (Codec.definedName first).toOption
  if first.signal = .opens .composite ∧ name = headerType then none else some name

/-- The class name of a message. -/
def messageName? (tokens : List Token) : Option String :=
  tokens.head?.map fun first => Identifier.typeName first.name

/-- The names that the modules of a schema are named for, in the order in which they are written. -/
def ownNames (s : Schema) : List String :=
  headerType :: (s.types.filterMap ownName? ++ s.messages.filterMap messageName?)

/-- The names of modules that are written without a look at those that are taken. -/
def reservedModules : List String :=
  [supportModule, "__init__"]

end Schema

/-! ## Modules of entities -/

/-- What all items of a list give in two steps. -/
theorem collect_bind_ok {α β γ : Type} {f : α → Except Fault γ} {k : γ → Except Fault (List β)}
    {as : List α} {bs : List β} (h : collect (fun a => f a >>= k) as = .ok bs) :
    ∃ cs, as.mapM f = .ok cs ∧ collect k cs = .ok bs := by
  induction as generalizing bs with
  | nil => exact ⟨[], rfl, h⟩
  | cons a rest ih =>
    obtain ⟨first, others, hfirst, hothers, rfl⟩ := collect_cons_ok.mp h
    obtain ⟨c, hc, hfirst⟩ := except_bind_ok hfirst
    obtain ⟨cs, hcs, hothers⟩ := ih hothers
    refine ⟨c :: cs, ?_, collect_cons_ok.mpr ⟨first, others, hfirst, hothers, rfl⟩⟩
    rw [List.mapM_cons, hc, hcs]
    rfl

theorem collect_append {α β : Type} {k : α → Except Fault (List β)} {as as' : List α} {bs bs' : List β}
    (h : collect k as = .ok bs) (h' : collect k as' = .ok bs') : collect k (as ++ as') = .ok (bs ++ bs') := by
  induction as generalizing bs with
  | nil =>
    obtain rfl := Except.ok.inj h
    exact h'
  | cons a rest ih =>
    obtain ⟨first, others, hfirst, hothers, rfl⟩ := collect_cons_ok.mp h
    exact collect_cons_ok.mpr ⟨first, others ++ bs', hfirst, ih hothers, List.append_assoc ..⟩

/-- What is left out gives nothing. -/
theorem collect_getLeft {found : List (Entity ⊕ String)} {ms : List Module}
    (h : collect (Sum.elim Entity.modules fun _ => .ok []) found = .ok ms) :
    collect Entity.modules (found.filterMap Sum.getLeft?) = .ok ms := by
  induction found generalizing ms with
  | nil => exact h
  | cons item rest ih =>
    obtain ⟨first, others, hfirst, hothers, rfl⟩ := collect_cons_ok.mp h
    cases item with
    | inl entity => exact collect_cons_ok.mpr ⟨first, others, hfirst, ih hothers, rfl⟩
    | inr name =>
      obtain rfl := Except.ok.inj hfirst
      exact ih hothers

/-- Entities have one module each, which is named for them. -/
theorem modules_of_collect {es : List Entity} {ms : List Module} (h : collect Entity.modules es = .ok ms) :
    List.Forall₂ (fun entity m => entity.modules = .ok [m]) es ms ∧
      ms.map Module.name = es.map fun entity => Identifier.moduleName entity.typeName := by
  induction es generalizing ms with
  | nil =>
    obtain rfl := Except.ok.inj h
    exact ⟨.nil, rfl⟩
  | cons entity rest ih =>
    obtain ⟨first, others, hfirst, hothers, rfl⟩ := collect_cons_ok.mp h
    obtain ⟨classes, -, rfl⟩ := Entity.modules_ok hfirst
    obtain ⟨hrest, hnames⟩ := ih hothers
    exact ⟨.cons hfirst hrest, congrArg _ hnames⟩

/-! ## Names of entities -/

/-- The entity of a type is named for it, and only the composite of the header has none. -/
theorem Entity.ownName?_of_type {e : Edition} {tokens : List Token} {found : Entity ⊕ String}
    (h : Entity.ofType e tokens = .ok found) :
    Schema.ownName? tokens = found.getLeft?.map Entity.typeName := by
  cases tokens with
  | nil => cases h
  | cons first rest =>
    obtain ⟨name, hname, h⟩ := except_bind_ok h
    have hown : Schema.ownName? (first :: rest) =
        if first.signal = .opens .composite ∧ name = headerType then none else some name := by
      simp [Schema.ownName?, hname, Except.toOption]
    rw [hown]
    split at h
    · rename_i hsignal
      obtain rfl := Except.ok.inj h
      simp [hsignal]
    · rename_i hsignal
      obtain rfl := Except.ok.inj h
      simp [hsignal]
    · rename_i hsignal
      split at h
      · rename_i hheader
        obtain rfl := Except.ok.inj h
        simp [hsignal, hheader]
      · rename_i hother
        obtain rfl := Except.ok.inj h
        simp [hother]
    · cases h

theorem Entity.messageName?_of_message {e : Edition} {tokens : List Token} {entity : Entity}
    (h : Entity.ofMessage e tokens = .ok entity) : Schema.messageName? tokens = some entity.typeName := by
  cases tokens with
  | nil => cases h
  | cons first rest =>
    obtain rfl := Except.ok.inj h
    rfl

/-- What is known of the result of each item is known of the results of a list. -/
theorem filterMap_of_mapM {α β γ : Type} {f : α → Except Fault β} {g : α → Option γ} {k : β → Option γ}
    (hf : ∀ a b, f a = .ok b → g a = k b) {as : List α} {bs : List β} (h : as.mapM f = .ok bs) :
    as.filterMap g = bs.filterMap k := by
  induction as generalizing bs with
  | nil =>
    cases h
    rfl
  | cons a rest ih =>
    rw [List.mapM_cons] at h
    obtain ⟨b, hb, h⟩ := except_bind_ok h
    obtain ⟨others, hothers, h⟩ := except_bind_ok h
    obtain rfl := Except.ok.inj h
    rw [List.filterMap_cons, List.filterMap_cons, hf a b hb, ih hothers]

namespace Schema

variable {s : Schema} {p : Package} {ms : List Module}

/-- **The modules of a schema are those of its entities**, one each, and the entities have the names that the
schema gives its header, its types and its messages. -/
theorem collect_entities (h : s.modules = .ok ms) : ∃ es, s.entities = .ok es ∧
    collect Entity.modules es = .ok ms ∧ es.map Entity.typeName = s.ownNames := by
  obtain ⟨header, typeMs, messageMs, hheader, htypes, hmessages, rfl⟩ := modules_ok.mp h
  -- The modules of a type are those of its entity, and none where it is the composite of the header.
  have hsplit : typeModules s.toEdition = fun ts =>
      Entity.ofType s.toEdition ts >>= Sum.elim Entity.modules fun _ => .ok [] := by
    funext ts
    unfold typeModules
    congr 1
    funext found
    cases found <;> rfl
  rw [hsplit] at htypes
  obtain ⟨types, htypes, htypeMs⟩ := collect_bind_ok htypes
  obtain ⟨messages, hmessages, hmessageMs⟩ := collect_bind_ok hmessages
  refine ⟨Entity.ofHeader s.toEdition :: (types.filterMap Sum.getLeft? ++ messages), ?_, ?_, ?_⟩
  · rw [entities, htypes, hmessages]
    rfl
  · exact collect_cons_ok.mpr
      ⟨header, _, hheader, collect_append (collect_getLeft htypeMs) hmessageMs, rfl⟩
  · rw [List.map_cons, List.map_append, ownNames, filterMap_of_mapM (fun _ _ => Entity.ownName?_of_type) htypes,
      filterMap_of_mapM (k := fun entity => some entity.typeName)
        (fun _ _ => Entity.messageName?_of_message) hmessages, List.map_filterMap, List.filterMap_eq_map']
    rfl

/-- Modules with names of their own in between two others: no name is written twice if none of them takes
the name of one of the two. -/
theorem nodup_between {names : List String} (h : names.Nodup) :
    (supportModule :: names ++ ["__init__"]).Nodup ↔ ∀ name ∈ names, name ∉ reservedModules := by
  have hends : supportModule ≠ "__init__" := by decide
  rw [List.cons_append, List.nodup_cons, List.nodup_append, List.mem_append, List.mem_singleton]
  simp only [reservedModules, List.mem_cons, List.not_mem_nil, or_false, not_or]
  constructor
  · rintro ⟨⟨hsupport, -⟩, -, -, hinit⟩ name hname
    exact ⟨fun heq => hsupport (heq ▸ hname), hinit name hname _ rfl⟩
  · intro hfree
    refine ⟨⟨fun hsupport => (hfree _ hsupport).1 rfl, hends⟩, h, List.nodup_singleton _, ?_⟩
    rintro name hname _ rfl
    exact (hfree name hname).2

/-- **One module for each entity.** What is written is the support module, the module of each entity, and the
module that stands for the package, in that order. No name is written twice exactly if no entity takes the
name of the first or the last of them, and then all of them keep the source that they are written with. -/
theorem written_one_per_entity (h : s.Generates p) : ∃ es ms, s.entities = .ok es ∧
    es.map Entity.typeName = s.ownNames ∧
    List.Forall₂ (fun entity m => entity.modules = .ok [m]) es ms ∧
    p.written = (supportModule, (supportSource : Text)) :: ms.map Module.file ++
      [("__init__", (initSource s.toEdition p.exports : Text))] ∧
    p.written.map Prod.fst = supportModule :: s.ownNames.map (fun name : String => Identifier.moduleName name) ++
      ["__init__"] ∧
    ((p.written.map Prod.fst).Nodup ↔
      ∀ name ∈ s.ownNames, Identifier.moduleName name ∉ reservedModules) ∧
    ((∀ name ∈ s.ownNames, Identifier.moduleName name ∉ reservedModules) →
      ∀ file ∈ p.written, p.sources.lookup file.1 = some file.2) := by
  obtain ⟨ms, hms, hnodup, -, -, hwritten⟩ := generates_spec h
  obtain ⟨es, hes, hcollect, hown⟩ := collect_entities hms
  obtain ⟨hpairs, hnames⟩ := modules_of_collect hcollect
  have hmodules : ms.map Module.name = s.ownNames.map fun name : String => Identifier.moduleName name := by
    rw [hnames, ← hown, List.map_map]
    rfl
  have hfirst := hmodules ▸ (names_of_generates h hms).2
  have hiff : (p.written.map Prod.fst).Nodup ↔
      ∀ name ∈ s.ownNames, Identifier.moduleName name ∉ reservedModules := by
    rw [hfirst, nodup_between (hmodules ▸ hnodup), List.forall_mem_map]
  refine ⟨es, ms, hes, hown, hpairs, hwritten, hfirst, hiff, fun hfree file hfile => ?_⟩
  have hreverse : (p.written.reverse.map Prod.fst).Nodup := by
    rw [List.map_reverse, List.nodup_reverse]
    exact hiff.mpr hfree
  rw [Package.lookup_sources, lookup_eq_some_iff_mem hreverse]
  exact List.mem_reverse.mpr hfile

/-- The modules of a desk keep their sources. -/
theorem deskSchema_written : ∃ p, deskSchema.Generates p ∧
    (∀ name ∈ deskSchema.ownNames, Identifier.moduleName name ∉ reservedModules) ∧
    ∃ es ms, deskSchema.entities = .ok es ∧ es.map Entity.typeName = deskSchema.ownNames ∧
      List.Forall₂ (fun entity m => entity.modules = .ok [m]) es ms ∧
      p.written = (supportModule, (supportSource : Text)) :: ms.map Module.file ++
        [("__init__", (initSource deskSchema.toEdition p.exports : Text))] ∧
      p.written.map Prod.fst =
        supportModule :: deskSchema.ownNames.map (fun name : String => Identifier.moduleName name) ++
          ["__init__"] ∧
      ((p.written.map Prod.fst).Nodup ↔
        ∀ name ∈ deskSchema.ownNames, Identifier.moduleName name ∉ reservedModules) ∧
      ((∀ name ∈ deskSchema.ownNames, Identifier.moduleName name ∉ reservedModules) →
        ∀ file ∈ p.written, p.sources.lookup file.1 = some file.2) := by
  obtain ⟨ms, p, -, -, hp⟩ := exists_deskPackage
  exact ⟨p, hp, by decide +kernel, written_one_per_entity hp⟩

/-- The schema of a desk with its sides under another name, and no message. -/
def sideSchema (name : Text) : Schema :=
  { deskSchema with
    types := [[
      { signal := .opens .enumeration, name, encodedLength := some 1, tokenCount := some 3
        encoding := { primitive := some .uint8 } },
      { signal := .validValue, name := "buy", encoding := { constValue := some "1" } },
      { signal := .closes .enumeration, name, tokenCount := some 3 }]]
    messages := [] }

/-- The second line of every module that is generated. -/
def editMark : String :=
  "# DO NOT EDIT - regenerate from IR"

/-- The source of a module is not that of the support module, which has no such line. -/
theorem source_ne_supportSource (m : Module) : m.source ≠ (supportSource : Text) := by
  have hline : Text.ofString editMark ≠ [] := by decide
  have hheader : moduleHeader = String.join
      (["# Generated SBE (Simple Binary Encoding) message codec", editMark].map (· ++ "\n")) := by
    simp [moduleHeader, editMark, String.join]
  have hmark : Text.ofString editMark ∈ (Text.ofString moduleHeader).lines := by
    rw [hheader, Text.mem_lines_ofString_join (by decide) hline]
    exact ⟨_, List.mem_cons_of_mem _ (List.mem_singleton_self _), rfl⟩
  have hin : Text.ofString editMark ∈ m.source.lines :=
    (Package.Module.mem_lines hline).mpr (.inl hmark)
  intro heq
  rw [heq] at hin
  obtain ⟨l, hl, heq⟩ := (Text.mem_lines_ofString_join (by decide +kernel) hline).mp hin
  have hfree : ∀ l ∈ supportLines, Text.ofString editMark ≠ Text.ofString l := by decide +kernel
  exact hfree l hl heq

/-- **The support module can be replaced.** A type that is called like it is written over it: the name is
written twice, and the source that is found under it is that of the type. -/
theorem sideSchema_replaces : ∃ p, (sideSchema "_sbe").Generates p ∧
    p.written.map Prod.fst = [supportModule, "message_header", supportModule, "__init__"] ∧
    ∃ source ≠ (supportSource : Text), p.sources.lookup supportModule = some source := by
  have hcomputed : ((sideSchema "_sbe").modules.map (·.map Module.name)).toOption =
      some ["message_header", supportModule] := by
    decide +kernel
  obtain ⟨ms, p, hms, hnames, hp⟩ := exists_generates_of_names hcomputed (by decide) (by decide +kernel)
  refine ⟨p, hp, ?_, ?_⟩
  · rw [(names_of_generates hp hms).2, hnames]
    rfl
  · have hside : supportModule ∈ ms.map Module.name := by
      rw [hnames]
      decide
    obtain ⟨m, hm, hname⟩ := List.mem_map.mp hside
    refine ⟨m.source, source_ne_supportSource m, ?_⟩
    rw [← hname]
    exact lookup_module hp hms hm (hname ▸ by decide)

end Schema

end SimpleBinary

import SimpleBinary.Proofs.Class.Uses
import SimpleBinary.Proofs.Package.Written

/-!
Imports of modules that are used.

What a module imports is what its classes note, and every note is borne out by one of the classes. So each
line that imports from the package names only what the classes use, and a module of the standard library is
used as well, or it is `math` and a bytes literal mentions it (`Schema.imports_used`). A constant whose text
has that name in it is such a literal, and the module of its message then imports what it does not use
(`Schema.sloganSchema_idle`).
-/

set_option autoImplicit false

namespace SimpleBinary

open Code Emission
open Package (Module)

/-! ## Modules of entities -/

/-- All expressions in the classes of a module outside strings. -/
def Package.Module.outside (m : Module) : List Expr :=
  m.classes.flatMap ClassDef.outside

/-- Whether a module uses what it imports. Of the standard library `math` may only be mentioned. -/
structure Package.Module.UsesImports (m : Module) : Prop where
  modules : ∀ name ∈ m.imports.modules,
    Uses m.outside name ∨ name = "math" ∧ Mentions m.outside name
  helpers : ∀ name ∈ m.imports.helpers, Uses m.outside name
  types : ∀ name ∈ m.imports.types, Uses m.outside name

/-- Whether every note of the classes of an entity is borne out by one of them. -/
def Entity.IsBorneOut (entity : Entity) : Prop :=
  ∀ notes classes, entity.classes.Emits notes classes →
    ∀ n ∈ notes, n.BorneOut (classes.flatMap ClassDef.outside)

/-- Only one module is ever mentioned. -/
theorem eq_math_of_mentions {parts : List Expr} {name : String} (h : Mentions parts name) : name = "math" := by
  obtain ⟨e, -, hname⟩ := h
  unfold Expr.mentioned at hname
  split at hname
  · exact eq_math_of_mem_literalModules hname
  · cases hname

namespace Entity

variable {e : Edition}

theorem isBorneOut_planned (typeName : String) (plan : Except Fault Plan) :
    IsBorneOut ⟨typeName, planClasses e plan⟩ := by
  intro notes classes h n hn
  obtain ⟨p, -, hclasses⟩ := planClasses_ok h.1
  dsimp only at h
  rw [hclasses] at h
  exact Plan.borneOut_classes h n hn

/-- An entity with one class. -/
theorem isBorneOut_single {α : Type} {x : Emission α} {f : α → ClassDef} (typeName : String)
    (hx : ∀ notes a, x.Emits notes a → ∀ n ∈ notes, n.BorneOut (f a).outside) :
    IsBorneOut ⟨typeName, do return [f (← x)]⟩ := by
  intro notes classes h n hn
  obtain ⟨a, first, _, ha, hlast, rfl⟩ := emits_bind.mp h
  obtain ⟨rfl, rfl⟩ := emits_pure.mp hlast
  rw [List.append_nil] at hn
  simpa using hx first a ha n hn

theorem isBorneOut_ofType {tokens : List Token} {entity : Entity}
    (h : ofType e tokens = .ok (.inl entity)) : entity.IsBorneOut := by
  cases tokens with
  | nil => cases h
  | cons first rest =>
    obtain ⟨typeName, -, h⟩ := except_bind_ok h
    -- What the tokens open says what kind of class there is.
    split at h
    · obtain rfl := Sum.inl.inj (Except.ok.inj h)
      exact isBorneOut_single (f := Enumeration.toClass) typeName fun _ _ => Enumeration.borneOut_ofTokens
    · obtain rfl := Sum.inl.inj (Except.ok.inj h)
      exact isBorneOut_single (f := ChoiceSet.toClass) typeName fun _ _ => ChoiceSet.borneOut_ofTokens
    · split at h
      · cases h
      · obtain rfl := Sum.inl.inj (Except.ok.inj h)
        exact isBorneOut_planned _ _
    · cases h

theorem isBorneOut_ofMessage {tokens : List Token} {entity : Entity}
    (h : ofMessage e tokens = .ok entity) : entity.IsBorneOut := by
  cases tokens with
  | nil => cases h
  | cons first rest =>
    obtain rfl := Except.ok.inj h
    exact isBorneOut_planned _ _

/-- The module of an entity uses what it imports if the notes of its classes are borne out. -/
theorem IsBorneOut.usesImports {entity : Entity} (h : entity.IsBorneOut) {m : Module}
    (hm : entity.modules = .ok [m]) : m.UsesImports := by
  obtain ⟨classes, hclasses, hmodule⟩ := modules_ok hm
  obtain rfl := List.singleton_inj.mp hmodule
  have hnotes := h _ _ (emits_self hclasses)
  refine ⟨fun name hname => ?_, fun name hname => ?_, fun name hname => ?_⟩
  · rcases Imports.mem_modules_addAll.mp hname with hname | hname
    · exact absurd hname (NameSet.not_mem_empty name)
    · refine (hnotes _ hname).imp id fun hmentions => ?_
      exact ⟨eq_math_of_mentions hmentions, hmentions⟩
  · rcases Imports.mem_helpers_addAll.mp hname with hname | ⟨helper, hhelper, rfl⟩
    · exact absurd hname (NameSet.not_mem_empty name)
    · exact hnotes _ hhelper
  · rcases Imports.mem_of_mem_types_addAll hname with hname | hname
    · exact absurd hname (NameSet.not_mem_empty name)
    · exact hnotes _ hname

end Entity

namespace Schema

variable {s : Schema} {p : Package}

theorem isBorneOut_of_mem_entities {es : List Entity} (h : s.entities = .ok es) :
    ∀ entity ∈ es, entity.IsBorneOut := by
  obtain ⟨types, htypes, h⟩ := except_bind_ok h
  obtain ⟨messages, hmessages, h⟩ := except_bind_ok h
  obtain rfl := Except.ok.inj h
  refine List.forall_mem_cons.mpr ⟨Entity.isBorneOut_planned _ _, List.forall_mem_append.mpr ⟨?_, ?_⟩⟩
  · intro entity hentity
    obtain ⟨found, hfound, hleft⟩ := List.mem_filterMap.mp hentity
    obtain ⟨tokens, -, htokens⟩ := exists_of_mem_mapM htypes hfound
    cases found with
    | inl own =>
      obtain rfl := Option.some.inj hleft
      exact Entity.isBorneOut_ofType htokens
    | inr name => cases hleft
  · intro entity hentity
    obtain ⟨tokens, -, htokens⟩ := exists_of_mem_mapM hmessages hentity
    exact Entity.isBorneOut_ofMessage htokens

/-- **Imports are used.** In each module that is written for the header, a type or a message, every line of
the imports is empty, or imports names from the package that the classes use outside strings, or imports a
module of the standard library that they use, unless that module is `math`: it is imported as well where the
text of a bytes literal mentions it. -/
theorem imports_used (h : s.Generates p) : ∃ ms, s.modules = .ok ms ∧
    p.written = (supportModule, (supportSource : Text)) :: ms.map Module.file ++
      [("__init__", (initSource s.toEdition p.exports : Text))] ∧
    ∀ m ∈ ms, ∀ line ∈ m.imports.lines,
      line = "" ∨
      (∃ name, line = "import " ++ name ∧
        (Uses m.outside name ∨ name = "math" ∧ Mentions m.outside name)) ∨
      ∃ sibling names, line = importLine sibling names ∧ ∀ name ∈ names, Uses m.outside name := by
  obtain ⟨ms, hms, -, -, -, hwritten⟩ := generates_spec h
  obtain ⟨es, hes, hcollect, -⟩ := collect_entities hms
  refine ⟨ms, hms, hwritten, fun m hm => ?_⟩
  obtain ⟨entity, hentity, hmodule⟩ := exists_of_forall₂_right (modules_of_collect hcollect).1 hm
  have huses := (isBorneOut_of_mem_entities hes entity hentity).usesImports hmodule
  refine Imports.forall_mem_lines (fun name hname => .inr (.inl ⟨name, rfl, huses.modules name hname⟩)) (.inl rfl)
    (Imports.forall_mem_packageLines ?support fun sibling _ => ?siblings)
  case support =>
    refine .inr (.inr ⟨_, _, lineFrom_eq .., fun name hname => ?_⟩)
    exact huses.helpers name (NameSet.mem_toList.mp hname)
  case siblings =>
    refine .inr (.inr ⟨_, _, lineFrom_eq .., fun name hname => ?_⟩)
    exact huses.types name (Imports.mem_typesFrom.mp (NameSet.mem_toList.mp hname)).1

/-- The modules of a desk import what they use. -/
theorem deskSchema_imports_used : ∃ p, deskSchema.Generates p ∧
    ∃ ms, deskSchema.modules = .ok ms ∧
      p.written = (supportModule, (supportSource : Text)) :: ms.map Module.file ++
        [("__init__", (initSource deskSchema.toEdition p.exports : Text))] ∧
      ∀ m ∈ ms, ∀ line ∈ m.imports.lines,
        line = "" ∨
        (∃ name, line = "import " ++ name ∧
          (Uses m.outside name ∨ name = "math" ∧ Mentions m.outside name)) ∨
        ∃ sibling names, line = importLine sibling names ∧ ∀ name ∈ names, Uses m.outside name := by
  obtain ⟨ms, p, -, -, hp⟩ := exists_deskPackage
  exact ⟨p, hp, imports_used hp⟩

/-! ### A constant that mentions a module -/

instance (parts : List Expr) (name : String) : Decidable (Uses parts name) :=
  inferInstanceAs (Decidable (∃ e ∈ parts, name ∈ e.used))

/-- A schema with one message, which has a constant text and nothing else. -/
def sloganSchema (text : Text) : Schema :=
  { deskSchema with
    types := []
    messages := [[
      { signal := .opens .message, name := "Banner", encodedLength := some 0, tokenCount := some 5 },
      { signal := .opens .field, name := "slogan", tokenCount := some 3 },
      { signal := .encoding, name := "char", encodedLength := some 1
        encoding := { primitive := some .char, presence := some .constant, constValue := some text } },
      { signal := .closes .field, name := "slogan", tokenCount := some 3 },
      { signal := .closes .message, name := "Banner", tokenCount := some 5 }]] }

theorem exists_idleImport : ((sloganSchema "math.pi").modules.map fun ms => ms.any fun m =>
    m.imports.lines.contains "import math" && !decide (Uses m.outside "math")).toOption = some true := by
  decide +kernel

/-- **A text can import a module.** A message with a constant text in which the name of the module `math` and
a point occur is generated, and its module imports `math` without using it. -/
theorem sloganSchema_idle : ∃ p ms, (sloganSchema "math.pi").Generates p ∧
    (sloganSchema "math.pi").modules = .ok ms ∧
    ∃ m ∈ ms, m.file ∈ p.written ∧ "import math" ∈ m.imports.lines ∧ ¬ Uses m.outside "math" := by
  have hcomputed : ((sloganSchema "math.pi").modules.map (·.map Module.name)).toOption =
      some ["message_header", "banner"] := by
    decide +kernel
  obtain ⟨ms, p, hms, -, hp⟩ := exists_generates_of_names hcomputed (by decide) (by decide +kernel)
  have hidle := exists_idleImport
  rw [hms] at hidle
  obtain ⟨m, hm, hline⟩ := List.any_eq_true.mp (Option.some.inj hidle)
  obtain ⟨hline, huse⟩ := Bool.and_eq_true_iff.mp hline
  refine ⟨p, ms, hp, hms, m, hm, file_mem_written hp hms hm, List.contains_iff_mem.mp hline, ?_⟩
  simpa using huse

end Schema

end SimpleBinary

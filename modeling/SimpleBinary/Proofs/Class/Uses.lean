import SimpleBinary.Proofs.Class.Completeness
import SimpleBinary.Proofs.Class.Literals
import SimpleBinary.Proofs.Class.Notes
import SimpleBinary.Proofs.Class.Source

/-!
Notes that the source bears out.

A renderer notes what its source needs, so each note should be borne out by the source. What source uses are
the names among its expressions, strings left aside, and the module that the literal of a number is taken
from (`Expr.used`). The notes of each renderer are known one by one (`Emission.Emits`), and each of them is
looked up in what is rendered. One of them need not be there: the text of a bytes literal is searched for the
name of the module `math`, so a text of the schema with that name in it makes a note (`Expr.mentioned`).
-/

set_option autoImplicit false

namespace SimpleBinary

open Code Emission

/-! ## What source uses -/

namespace Code

/-- Whether an expression is a string with values in it. -/
def Expr.isTemplate : Expr → Bool
  | .template _ => true
  | _ => false

/-- The names that an expression itself uses: its identifier, or the module that its literal is taken from. -/
@[simp] def Expr.used : Expr → List String
  | .name identifier => [identifier]
  | .number value => value.names
  | _ => []

/-- The modules that the text of a bytes literal mentions. -/
def Expr.mentioned : Expr → List String
  | .bytes data => literalModules (Text.quotedBytes data)
  | _ => []

/-- All expressions in some statements outside strings. -/
def Stmt.outside (stmts : List Stmt) : List Expr :=
  Stmt.partsAll Expr.isTemplate stmts

/-- All expressions in a method outside strings. -/
def Method.outside (m : Method) : List Expr :=
  m.decorators.flatMap (Expr.parts Expr.isTemplate) ++
    m.params.flatMap (fun p => p.default.toList.flatMap (Expr.parts Expr.isTemplate)) ++
    Stmt.outside m.body

/-- All expressions in a class and in the statements that follow it, outside strings. -/
def ClassDef.outside (c : ClassDef) : List Expr :=
  c.base.toList.map .name ++ Stmt.outside c.constants ++ c.methods.flatMap Method.outside ++
    Stmt.outside c.trailer

end Code

/-- All expressions that a step adds to a class, outside strings. -/
def Bodies.outside (b : Bodies) : List Expr :=
  Stmt.outside b.zero ++ Stmt.outside b.encode ++ Stmt.outside b.decode ++ Stmt.outside b.rangeCheck ++
    Stmt.outside b.init ++ b.accessors.flatMap Method.outside

/-- Whether one of some expressions uses a name. -/
def Uses (parts : List Expr) (name : String) : Prop :=
  ∃ e ∈ parts, name ∈ e.used

/-- Whether the text of a bytes literal among some expressions mentions a module. -/
def Mentions (parts : List Expr) (name : String) : Prop :=
  ∃ e ∈ parts, name ∈ e.mentioned

/-- Whether what is noted is used by some expressions, or a module is at least mentioned. -/
def Note.BorneOut (parts : List Expr) : Note → Prop
  | .module name => Uses parts name ∨ Mentions parts name
  | .helper h => Uses parts h.name
  | .type name => Uses parts name
  | .defined _ | .warning _ => True

section

variable {parts more : List Expr} {name : String} {n : Note}

theorem Uses.mono (h : Uses parts name) (hsub : parts ⊆ more) : Uses more name := by
  obtain ⟨e, he, hname⟩ := h
  exact ⟨e, hsub he, hname⟩

theorem Mentions.mono (h : Mentions parts name) (hsub : parts ⊆ more) : Mentions more name := by
  obtain ⟨e, he, hname⟩ := h
  exact ⟨e, hsub he, hname⟩

theorem Note.BorneOut.mono (h : n.BorneOut parts) (hsub : parts ⊆ more) : n.BorneOut more := by
  have huses {name : String} (h : Uses parts name) : Uses more name := h.mono hsub
  cases n with
  | module name => exact h.imp huses (·.mono hsub)
  | helper helper => exact huses h
  | type name => exact huses h
  | defined name => trivial
  | warning w => trivial

end

/-! ### Literals -/

theorem mem_of_occursIn {part cs : List Char} (h : occursIn part cs = true) : part ⊆ cs := by
  induction cs with
  | nil =>
    rw [occursIn, List.isEmpty_iff] at h
    rw [h]
    exact List.Subset.refl _
  | cons c rest ih =>
    rw [occursIn, Bool.or_eq_true] at h
    rcases h with hfirst | hlater
    · exact (List.isPrefixOf_iff_prefix.mp hfirst).subset
    · exact List.subset_cons_of_subset c (ih hlater)

/-- Digits and signs need no module. -/
theorem literalModules_of_areNumerals {s : String} (h : AreNumerals s.toList) : literalModules s = [] := by
  rw [literalModules, if_neg]
  intro hoccurs
  exact h.not_mem (by decide) (mem_of_occursIn hoccurs (List.mem_cons_self ..))

/-- The literal of a number is taken from the modules that it needs. -/
theorem Number.mem_names_of_literalModules {n : Number} {name : String}
    (h : name ∈ literalModules n.literal) : name ∈ n.names := by
  have hname := eq_math_of_mem_literalModules h
  cases n with
  | int n =>
    rw [literal, literalModules_of_areNumerals (areNumerals_intToString n)] at h
    cases h
  | real x =>
    rw [names]
    split
    · rename_i hfinite
      rw [literal] at h
      simp only [hfinite] at h
      rw [literalModules_of_areNumerals (Decimal.areNumerals_text hfinite)] at h
      cases h
    · rw [hname]
      exact List.mem_singleton_self _

/-! ## Exactly what is noted -/

namespace Emission

/-- Whether an emission succeeds with a result and makes exactly the given notes. -/
def Emits {α : Type} (x : Emission α) (notes : List Note) (a : α) : Prop :=
  x.outcome = .ok a ∧ x.notes = notes

section

variable {α β : Type} {notes : List Note}

theorem emits_self {x : Emission α} {a : α} (h : x.outcome = .ok a) : x.Emits x.notes a :=
  ⟨h, rfl⟩

theorem yields_of_emits {x : Emission α} {a : α} (h : x.Emits notes a) : x.Yields notes a :=
  ⟨h.1, h.2 ▸ List.Subset.refl _⟩

theorem emits_bind {x : Emission α} {f : α → Emission β} {b : β} : (x >>= f).Emits notes b ↔
    ∃ a first rest, x.Emits first a ∧ (f a).Emits rest b ∧ notes = first ++ rest := by
  cases h : x.outcome with
  | ok a =>
    rw [bind_of_ok f h]
    constructor
    · rintro ⟨hb, rfl⟩
      exact ⟨a, _, _, ⟨h, rfl⟩, ⟨hb, rfl⟩, rfl⟩
    · rintro ⟨a', _, _, ⟨ha', rfl⟩, ⟨hb, rfl⟩, rfl⟩
      obtain rfl := Except.ok.inj (h.symm.trans ha')
      exact ⟨hb, rfl⟩
  | error fault =>
    rw [bind_of_error f h]
    constructor
    · rintro ⟨hb, -⟩
      cases hb
    · rintro ⟨a', _, _, ⟨ha', -⟩, -, -⟩
      rw [h] at ha'
      cases ha'

@[simp] theorem emits_pure {a b : α} : (pure a : Emission α).Emits notes b ↔ a = b ∧ [] = notes := by
  simp [Emits]

@[simp] theorem emits_fail {fault : Fault} {a : α} : (fail fault : Emission α).Emits notes a ↔ False := by
  simp [Emits, fail]

/-- A note comes first, and then those of what follows. -/
@[simp] theorem emits_note_bind {n : Note} {f : Unit → Emission β} {b : β} :
    (note n >>= f).Emits notes b ↔ ∃ rest, (f ()).Emits rest b ∧ n :: rest = notes := by
  rw [bind_of_ok f rfl]
  exact ⟨fun ⟨h, hnotes⟩ => ⟨_, ⟨h, rfl⟩, hnotes⟩, fun ⟨_, ⟨h, hrest⟩, hnotes⟩ => ⟨h, hrest ▸ hnotes⟩⟩

/-- What notes nothing leaves the notes to what follows. -/
theorem emits_quiet_bind {x : Emission α} {f : α → Emission β} {b : β} (hx : x.notes = []) :
    (x >>= f).Emits notes b ↔ ∃ a, x.outcome = .ok a ∧ (f a).Emits notes b := by
  rw [emits_bind]
  constructor
  · rintro ⟨a, first, rest, ⟨ha, rfl⟩, hb, rfl⟩
    rw [hx]
    exact ⟨a, ha, hb⟩
  · rintro ⟨a, ha, hb⟩
    exact ⟨a, _, _, ⟨ha, hx⟩, hb, rfl⟩

@[simp] theorem emits_ofExcept_bind {outcome : Except Fault α} {f : α → Emission β} {b : β} :
    (ofExcept outcome >>= f).Emits notes b ↔ ∃ a, outcome = .ok a ∧ (f a).Emits notes b :=
  emits_quiet_bind rfl

@[simp] theorem emits_ofOption_bind {part : String} {o : Option α} {f : α → Emission β} {b : β} :
    (ofOption part o >>= f).Emits notes b ↔ ∃ a, o = some a ∧ (f a).Emits notes b := by
  cases o with
  | some a =>
    rw [emits_quiet_bind rfl]
    simp [ofOption]
  | none =>
    rw [emits_quiet_bind rfl]
    simp [ofOption, fail]

@[simp] theorem emits_demand_bind {areWritable : Bool} {f : Unit → Emission β} {b : β} :
    (demand areWritable >>= f).Emits notes b ↔ areWritable = true ∧ (f ()).Emits notes b := by
  cases areWritable with
  | true => simp [demand]
  | false =>
    rw [emits_quiet_bind rfl]
    simp [demand, fail]

@[simp] theorem emits_noteModules_bind {names : List String} {f : Unit → Emission β} {b : β} :
    (noteModules names >>= f).Emits notes b ↔
      ∃ rest, (f ()).Emits rest b ∧ names.map .module ++ rest = notes := by
  rw [bind_of_ok f rfl]
  exact ⟨fun ⟨h, hnotes⟩ => ⟨_, ⟨h, rfl⟩, hnotes⟩, fun ⟨_, ⟨h, hrest⟩, hnotes⟩ => ⟨h, hrest ▸ hnotes⟩⟩

/-- The bounds of a type note a warning or nothing. -/
theorem emits_bounds_bind {type : Primitive} {e : Encoding} {f : Bounds → Emission β} {b : β}
    (h : (bounds type e >>= f).Emits notes b) : ∃ bounds rest, Bounds.resolve type e = .ok bounds ∧
      (f bounds).Emits rest b ∧ (notes = rest ∨ ∃ w, notes = .warning w :: rest) := by
  obtain ⟨found, first, rest, hbounds, hrest, rfl⟩ := emits_bind.mp h
  rw [bounds, emits_ofExcept_bind] at hbounds
  obtain ⟨resolved, hresolved, hbounds⟩ := hbounds
  dsimp only at hbounds
  split at hbounds
  · simp only [emits_note_bind, emits_pure] at hbounds
    obtain ⟨_, ⟨rfl, rfl⟩, rfl⟩ := hbounds
    exact ⟨resolved, rest, hresolved, hrest, .inr ⟨_, rfl⟩⟩
  · obtain ⟨rfl, rfl⟩ := emits_pure.mp hbounds
    exact ⟨resolved, rest, hresolved, hrest, .inl rfl⟩

/-- A note that is made under a condition. -/
theorem emits_when_note {c : Prop} [Decidable c] {n : Note} {f : Unit → Emission α} {a : α} :
    (if c then note n >>= f else f ()).Emits notes a ↔
      ∃ rest, (f ()).Emits rest a ∧ (if c then [n] else []) ++ rest = notes := by
  split
  · exact emits_note_bind
  · simp

/-- One of two emissions, whichever a condition says. -/
theorem emits_ite_bind {c : Prop} [Decidable c] {x y : Emission α} {f : α → Emission β} {b : β} :
    (if c then x >>= f else y >>= f).Emits notes b ↔
      ∃ a first rest, (if c then x else y).Emits first a ∧ (f a).Emits rest b ∧ notes = first ++ rest := by
  split <;> exact emits_bind

theorem NotesOnly.notes_eq_nil {x : Emission α} (h : x.NotesOnly fun _ => False) : x.notes = [] :=
  List.eq_nil_iff_forall_not_mem.mpr h.mem

/-- The notes of a list of emissions are those of its items. -/
theorem exists_of_emits_mapM {f : α → Emission β} {as : List α} {bs : List β}
    (h : (as.mapM f).Emits notes bs) {n : Note} (hn : n ∈ notes) :
    ∃ a ∈ as, ∃ b ∈ bs, ∃ own, (f a).Emits own b ∧ n ∈ own := by
  induction as generalizing bs notes with
  | nil =>
    rw [List.mapM_nil, emits_pure] at h
    obtain ⟨-, rfl⟩ := h
    cases hn
  | cons a rest ih =>
    rw [List.mapM_cons] at h
    obtain ⟨b, own, _, hb, htail, rfl⟩ := emits_bind.mp h
    obtain ⟨others, more, _, hothers, hlast, rfl⟩ := emits_bind.mp htail
    obtain ⟨rfl, rfl⟩ := emits_pure.mp hlast
    rw [List.append_nil] at hn
    rcases List.mem_append.mp hn with hn | hn
    · exact ⟨a, List.mem_cons_self .., b, List.mem_cons_self .., own, hb, hn⟩
    · obtain ⟨a', ha', b', hb', hfound⟩ := ih hothers hn
      exact ⟨a', List.mem_cons_of_mem _ ha', b', List.mem_cons_of_mem _ hb', hfound⟩

end

end Emission

/-! ## Where names stand -/

section

variable {name : String}

@[simp] theorem uses_nil : Uses [] name ↔ False := by
  simp [Uses]

@[simp] theorem uses_cons {e : Expr} {rest : List Expr} :
    Uses (e :: rest) name ↔ name ∈ e.used ∨ Uses rest name := by
  simp [Uses]

@[simp] theorem uses_append {a b : List Expr} : Uses (a ++ b) name ↔ Uses a name ∨ Uses b name := by
  simp only [Uses, List.mem_append, or_and_right, exists_or]

@[simp] theorem uses_flatMap {α : Type} {as : List α} {f : α → List Expr} :
    Uses (as.flatMap f) name ↔ ∃ a ∈ as, Uses (f a) name := by
  simp only [Uses, List.mem_flatMap]
  constructor
  · rintro ⟨e, ⟨a, ha, he⟩, hname⟩
    exact ⟨a, ha, e, he, hname⟩
  · rintro ⟨a, ha, e, he, hname⟩
    exact ⟨e, ⟨a, ha, he⟩, hname⟩

end

namespace Code

@[simp] theorem Stmt.outside_cons (s : Stmt) (rest : List Stmt) :
    outside (s :: rest) = s.parts Expr.isTemplate ++ outside rest :=
  rfl

@[simp] theorem Stmt.outside_append (a b : List Stmt) : outside (a ++ b) = outside a ++ outside b :=
  partsAll_append _ a b

@[simp] theorem Stmt.parts_run (value : Expr) :
    (Stmt.run value).parts Expr.isTemplate = value.parts Expr.isTemplate :=
  rfl

@[simp] theorem Stmt.parts_assign (target value : Expr) : (Stmt.assign target value).parts Expr.isTemplate =
    target.targetParts Expr.isTemplate ++ value.parts Expr.isTemplate :=
  rfl

@[simp] theorem Stmt.parts_unpack (targets : List Expr) (function : Expr) (arguments : List Expr) :
    (Stmt.unpack targets function arguments).parts Expr.isTemplate =
      targets.flatMap (Expr.targetParts Expr.isTemplate) ++
        (Expr.call function arguments).parts Expr.isTemplate :=
  rfl

@[simp] theorem Stmt.parts_raise (value : Expr) :
    (Stmt.raise value).parts Expr.isTemplate = value.parts Expr.isTemplate :=
  rfl

@[simp] theorem Stmt.parts_give (value : Expr) :
    (Stmt.give (some value)).parts Expr.isTemplate = value.parts Expr.isTemplate :=
  rfl

@[simp] theorem Stmt.parts_branch (test : Expr) (yes no : List Stmt) :
    (Stmt.branch test yes no).parts Expr.isTemplate =
      test.parts Expr.isTemplate ++ outside yes ++ outside no :=
  rfl

@[simp] theorem Stmt.parts_loop (targets : List String) (source : Expr) (body : List Stmt) :
    (Stmt.loop targets source body).parts Expr.isTemplate =
      source.parts Expr.isTemplate ++ outside body :=
  rfl

/-- The name of a function that is called. -/
@[simp] theorem Expr.uses_apply {function name : String} {arguments : List Expr} :
    Uses ((Expr.apply function arguments).parts isTemplate) name ↔
      name = function ∨ Uses (partsAll isTemplate arguments) name := by
  simp [Expr.apply, parts, isTemplate]

/-- The value whose method is called. -/
@[simp] theorem Expr.uses_call_member {value : Expr} {method name : String} {arguments : List Expr} :
    Uses ((Expr.call (.member value method) arguments).parts isTemplate) name ↔
      Uses (value.parts isTemplate) name ∨ Uses (partsAll isTemplate arguments) name := by
  simp [parts, isTemplate]

@[simp] theorem Expr.uses_name {identifier name : String} :
    Uses ((Expr.name identifier).parts isTemplate) name ↔ name = identifier := by
  simp [parts, isTemplate]

end Code

namespace Codec

variable {name : String}

/-- Packing needs the module that it is a function of. -/
theorem uses_writePacked (f : Format) (values : List Expr) :
    Uses ((writePacked f values).parts Expr.isTemplate) "struct" := by
  simp [writePacked, write, Expr.send, Expr.partsAll, pack]

/-- Bytes that are read are read by a helper. -/
theorem uses_readExact (size : Expr) :
    Uses ((readExact size).parts Expr.isTemplate) Helper.readExact.name := by
  simp [readExact]

theorem uses_packedArguments (f : Format) (size : Int) :
    Uses (Expr.partsAll Expr.isTemplate (packedArguments f size)) Helper.readExact.name := by
  simp [packedArguments, Expr.partsAll, uses_readExact]

/-- A complaint needs the error that it raises. -/
theorem uses_complain (pieces : List Piece) :
    Uses ((complain pieces).parts Expr.isTemplate) Helper.rangeCheckError.name := by
  simp [complain]

theorem uses_discard (size : Expr) :
    Uses ((discard size).parts Expr.isTemplate) Helper.discard.name := by
  simp [discard]

/-- A check that values are numbers needs the module that tells. -/
theorem uses_outOfRange {type : Primitive} (hreal : type.isReal = true) (property : String) (value : Expr) :
    Uses ((outOfRange type property value).parts Expr.isTemplate) "math" := by
  simp [outOfRange, hreal, Expr.parts, Expr.isTemplate, Expr.send]

/-- The check of the values of a field compares each of them with the range, and complains. -/
theorem uses_rangeCheckStmts (type : Primitive) (owner property : String) (extent : Extent) :
    Uses (Stmt.outside (rangeCheckStmts type owner property extent)) Helper.rangeCheckError.name ∧
      (type.isReal = true → Uses (Stmt.outside (rangeCheckStmts type owner property extent)) "math") := by
  have hcomplain (pieces : List Piece) (value : Expr) :
      Uses ((complainOutside pieces property value).parts Expr.isTemplate) Helper.rangeCheckError.name := by
    simp [complainOutside, uses_complain]
  cases extent with
  | single =>
    constructor
    · simp [rangeCheckStmts, hcomplain]
    · intro hreal
      simp [rangeCheckStmts, uses_outOfRange hreal]
  | text count =>
    constructor
    · simp [rangeCheckStmts, hcomplain]
    · intro hreal
      simp [rangeCheckStmts, uses_outOfRange hreal]
  | array count =>
    constructor
    · simp [rangeCheckStmts, hcomplain]
    · intro hreal
      simp [rangeCheckStmts, uses_outOfRange hreal]

/-- Values are read by the helper, whatever the field holds. -/
theorem uses_read (type : Primitive) (target : Expr) (size : Int) (extent : Extent) :
    Uses ((extent.read type target size).parts Expr.isTemplate) Helper.readExact.name := by
  cases extent with
  | text count => simp [Extent.read, uses_readExact]
  | array count =>
    simp [Extent.read, unpack, Expr.partsAll, uses_packedArguments]
  | single => simp [Extent.read, unpack, uses_packedArguments]

/-- The check of a length complains. -/
theorem uses_lengthCheck (owner property : String) (b : Bounds) :
    Uses ((lengthCheck owner property b).parts Expr.isTemplate) Helper.rangeCheckError.name := by
  simp [lengthCheck, uses_complain]

/-! ## Renderers -/

variable {notes : List Note} {owner property : String} {b : Bodies}

theorem borneOut_gapBodies {isExtensible : Bool} {size : Int} {since : Option Int} {trailing : Bool}
    (h : (gapBodies isExtensible size since trailing).Emits notes b) :
    ∀ n ∈ notes, n.BorneOut b.outside := by
  have hpad : Uses ((pad size).parts Expr.isTemplate) Helper.writePadding.name := by
    simp [pad]
  have hdiscard : Uses ((discardSince since size).parts Expr.isTemplate) Helper.discard.name := by
    unfold discardSince
    split
    · simp [uses_discard]
    · exact uses_discard _
  rw [gapBodies] at h
  simp only [emits_note_bind, emits_demand_bind] at h
  obtain ⟨rest, ⟨-, hbodies⟩, rfl⟩ := h
  split at hbodies
  · obtain ⟨rfl, rfl⟩ := emits_pure.mp hbodies
    simp [Note.BorneOut, Bodies.outside, hpad]
  · simp only [emits_note_bind, emits_demand_bind, emits_pure] at hbodies
    obtain ⟨_, ⟨-, rfl, rfl⟩, rfl⟩ := hbodies
    simp [Note.BorneOut, Bodies.outside, hpad, hdiscard]

theorem borneOut_skipBodies {known : List (Int × Int)} (h : (skipBodies known).Emits notes b) :
    ∀ n ∈ notes, n.BorneOut b.outside := by
  have hdiscard (length : Expr) :
      Uses ((discardBeyond length).parts Expr.isTemplate) Helper.discard.name := by
    simp [discardBeyond, uses_discard]
  rw [skipBodies.eq_def] at h
  simp only [emits_note_bind, emits_demand_bind] at h
  obtain ⟨rest, ⟨-, hbodies⟩, rfl⟩ := h
  split at hbodies
  · exact (emits_fail.mp hbodies).elim
  · obtain ⟨rfl, rfl⟩ := emits_pure.mp hbodies
    simp [Note.BorneOut, Bodies.outside, hdiscard]
  · simp only [emits_demand_bind, emits_pure] at hbodies
    obtain ⟨-, rfl, rfl⟩ := hbodies
    simp [Note.BorneOut, Bodies.outside, hdiscard]

/-- A character encoding is checked by the helper that is noted for it. -/
theorem borneOut_validation {c : Prop} [Decidable c] {characterEncoding : Datum} {stmts : List Stmt}
    (h : (if c then validatorStmts owner property characterEncoding else pure []).Emits notes stmts) :
    ∀ n ∈ notes, n.BorneOut (Stmt.outside stmts) := by
  split at h
  · rw [validatorStmts] at h
    obtain ⟨found, -, h⟩ := emits_ofExcept_bind.mp h
    cases found with
    | none =>
      obtain ⟨-, rfl⟩ := emits_pure.mp h
      simp
    | some validator =>
      simp only [emits_note_bind, emits_pure] at h
      obtain ⟨_, ⟨rfl, rfl⟩, rfl⟩ := h
      simp [Note.BorneOut]
  · obtain ⟨-, rfl⟩ := emits_pure.mp h
    simp

/-- What is noted for the values of a field is used where they are written, read or checked. -/
theorem borneOut_valueBodies {type : Primitive} {encoding : Token}
    (h : (valueBodies owner property type encoding).Emits notes b) :
    ∀ n ∈ notes, n.BorneOut b.outside := by
  rw [valueBodies] at h
  simp only [emits_note_bind] at h
  obtain ⟨_, ⟨_, ⟨_, hvalues, rfl⟩, rfl⟩, rfl⟩ := h
  obtain ⟨count, -, hvalues⟩ := (emits_quiet_bind (notesOnly_countOf _ _).notes_eq_nil).mp hvalues
  obtain ⟨-, hvalues⟩ := emits_demand_bind.mp hvalues
  obtain ⟨_, hchecked, rfl⟩ := emits_when_note.mp hvalues
  obtain ⟨validation, checks, _, hvalidation, hlast, rfl⟩ := emits_ite_bind.mp hchecked
  obtain ⟨hb, rfl⟩ := emits_pure.mp hlast
  -- Three notes are made for any values, one for floating-point numbers, and one where an encoding is checked.
  obtain ⟨hcheck, hnumber⟩ := uses_rangeCheckStmts type owner property (Extent.of type count)
  have hstruct : Uses b.outside "struct" := by
    simp [← hb, Bodies.outside, uses_writePacked]
  have hread : Uses b.outside Helper.readExact.name := by
    simp [← hb, Bodies.outside, whenPresent, uses_read]
  have herror : Uses b.outside Helper.rangeCheckError.name := by
    simp [← hb, Bodies.outside, hcheck]
  have hmath : ∀ n ∈ if type.isReal = true then [.module "math"] else [], Note.BorneOut b.outside n := by
    split
    · rename_i hreal
      refine List.forall_mem_singleton.mpr (.inl ?_)
      simp [← hb, Bodies.outside, hnumber hreal]
    · simp
  have hchecks : ∀ n ∈ checks, n.BorneOut b.outside := by
    intro n hn
    refine (borneOut_validation hvalidation n hn).mono fun e he => ?_
    simp [← hb, Bodies.outside, he]
  refine List.forall_mem_cons.mpr ⟨.inl hstruct, List.forall_mem_cons.mpr ⟨hread,
    List.forall_mem_cons.mpr ⟨herror, List.forall_mem_append.mpr ⟨hmath, ?_⟩⟩⟩⟩
  rw [List.append_nil]
  exact hchecks

/-- A constant is set to its value, and the text of that value is what is searched for modules. -/
theorem borneOut_constantBodies {type : Primitive} {field encoding : Token}
    (h : (constantBodies property type field encoding).Emits notes b) :
    ∀ n ∈ notes, n.BorneOut b.outside := by
  rw [constantBodies] at h
  simp only [emits_ofExcept_bind, emits_noteModules_bind, emits_pure] at h
  obtain ⟨value, hvalue, _, ⟨rfl, rfl⟩, rfl⟩ := h
  have hpart : value ∈ Bodies.outside
      { decode := [.assign (.own property) value], init := [.assign (.own property) value] } := by
    have hself : value ∈ value.parts Expr.isTemplate := by
      rcases constantValue_ok hvalue with ⟨data, rfl⟩ | ⟨number, rfl⟩ <;>
        simp [Expr.parts, Expr.isTemplate]
    simp [Bodies.outside, hself]
  rw [List.append_nil, List.forall_mem_map]
  intro name hname
  -- The literal of a number is its own use of a module. In a bytes literal the name is part of the text.
  rcases constantValue_ok hvalue with ⟨data, rfl⟩ | ⟨number, rfl⟩
  · exact .inr ⟨_, hpart, hname⟩
  · exact .inl ⟨_, hpart, Number.mem_names_of_literalModules hname⟩

/-- Accessors on top leave what the bodies bear out as it is. -/
theorem outside_withAccessors (h : b.accessors = []) (methods : List Method) :
    b.outside ⊆ ({ b with accessors := methods } : Bodies).outside := by
  intro e he
  simp only [Bodies.outside, h, List.flatMap_nil, List.append_nil] at he
  exact List.mem_append_left _ he

/-- The bounds of a field are told by accessors, with the modules that their literals need. -/
theorem uses_boundAccessors {bounds : Bounds} {name : String} (h : name ∈ bounds.modules) :
    Uses ((boundAccessors property bounds).flatMap Method.outside) name := by
  obtain ⟨n, hn, hname⟩ := List.mem_flatMap.mp h
  have hnames := Number.mem_names_of_literalModules hname
  have hstatic (accessor : String) :
      Uses (Method.outside (.static accessor [] (.number n))) name := by
    refine ⟨.number n, ?_, hnames⟩
    simp [Method.outside, Method.static, Expr.parts, Expr.isTemplate]
  simp only [List.mem_cons, List.not_mem_nil, or_false] at hn
  rw [uses_flatMap]
  rcases hn with rfl | rfl | rfl
  · exact ⟨_, by simp [boundAccessors], hstatic (property ++ "_min_value")⟩
  · exact ⟨_, by simp [boundAccessors], hstatic (property ++ "_max_value")⟩
  · exact ⟨_, by simp [boundAccessors], hstatic (property ++ "_null_value")⟩

theorem borneOut_primitiveBodies {field encoding : Token}
    (h : (primitiveBodies owner field encoding).Emits notes b) :
    ∀ n ∈ notes, n.BorneOut b.outside := by
  rw [primitiveBodies] at h
  simp only [emits_demand_bind, emits_ofOption_bind] at h
  obtain ⟨-, type, -, h⟩ := h
  obtain ⟨bounds, rest, -, hbounded, hwarning⟩ := emits_bounds_bind h
  obtain ⟨_, hnoted, rfl⟩ := emits_noteModules_bind.mp hbounded
  obtain ⟨texts, -, hbodies⟩ := (emits_quiet_bind (notesOnly_textAccessors _ _).notes_eq_nil).mp hnoted
  obtain ⟨inner, own, _, hinner, hlast, rfl⟩ := emits_ite_bind.mp hbodies
  obtain ⟨rfl, rfl⟩ := emits_pure.mp hlast
  -- The bodies have no accessors of their own, so those that are added leave what is borne out as it is.
  have hown : inner.accessors = [] ∧ ∀ n ∈ own, n.BorneOut inner.outside := by
    split at hinner
    · obtain ⟨_, -, -, rfl⟩ := yields_constantBodies (yields_of_emits hinner)
      exact ⟨rfl, borneOut_constantBodies hinner⟩
    · obtain ⟨_, -, hvalues⟩ := yields_valueBodies (yields_of_emits hinner)
      exact ⟨hvalues.accessors, borneOut_valueBodies hinner⟩
  have hall : ∀ n ∈ bounds.modules.map Note.module ++ (own ++ []), n.BorneOut (Bodies.outside
      { inner with accessors := fieldAccessors (Identifier.propertyName field.name) field ++
          boundAccessors (Identifier.propertyName field.name) bounds ++ texts }) := by
    rw [List.append_nil]
    refine List.forall_mem_append.mpr ⟨List.forall_mem_map.mpr fun name hname => .inl ?_, ?_⟩
    · have hbound : Uses ((boundAccessors (Identifier.propertyName field.name) bounds).flatMap Method.outside)
          name := uses_boundAccessors hname
      simp [Bodies.outside, hbound]
    · exact fun n hn => (hown.2 n hn).mono (outside_withAccessors hown.1 _)
  rcases hwarning with rfl | ⟨w, rfl⟩
  · exact hall
  · exact List.forall_mem_cons.mpr ⟨trivial, hall⟩

/-- The class of a field is used where the field gets its first value, or where the constant is set. -/
theorem uses_valueOfTypeBodies {construct : Construct} {type : String} {field : Token}
    (h : valueOfTypeBodies construct type property field = .ok b) :
    b.accessors = [] ∧ Uses b.outside type := by
  have hobject : Uses (Stmt.outside (objectBodies type property).zero) type := by
    simp [objectBodies]
  unfold valueOfTypeBodies at h
  split at h
  · split at h
    · obtain ⟨value, hvalue, h⟩ := except_bind_ok h
      obtain rfl := Except.ok.inj h
      have huse : Uses (value.parts Expr.isTemplate) type := by
        rcases enumerationConstant_ok hvalue with ⟨name, rfl⟩ | ⟨n, rfl⟩
        · simp [enumerationMember, Expr.parts, Expr.isTemplate]
        · simp
      exact ⟨rfl, by simp [Bodies.outside, huse]⟩
    · obtain rfl := Except.ok.inj h
      exact ⟨rfl, by simp [enumerationBodies, Bodies.outside]⟩
  · obtain rfl := Except.ok.inj h
    exact ⟨rfl, by simp [Bodies.outside, hobject]⟩
  · obtain rfl := Except.ok.inj h
    exact ⟨rfl, by simp [Bodies.outside, hobject]⟩

theorem borneOut_typedBodies {construct : Construct} {typeName : Datum} {field : Token}
    {nested : Option String} (h : (typedBodies construct typeName field nested).Emits notes b) :
    ∀ n ∈ notes, n.BorneOut b.outside := by
  rw [typedBodies] at h
  obtain ⟨type, own, _, htype, hbodies, rfl⟩ := emits_bind.mp h
  simp only [emits_demand_bind, emits_ofExcept_bind, emits_pure] at hbodies
  obtain ⟨-, inner, hinner, rfl, rfl⟩ := hbodies
  obtain ⟨haccessors, huse⟩ := uses_valueOfTypeBodies hinner
  have huse := huse.mono (outside_withAccessors haccessors
    (fieldAccessors (Identifier.propertyName field.name) field))
  -- Only a class of another module is noted, and it is the one that is used.
  rw [List.append_nil]
  unfold typeOf at htype
  split at htype
  · obtain ⟨-, rfl⟩ := emits_pure.mp htype
    simp
  · simp only [emits_note_bind, emits_pure] at htype
    obtain ⟨_, ⟨rfl, rfl⟩, rfl⟩ := htype
    exact List.forall_mem_singleton.mpr huse
  · exact (emits_fail.mp htype).elim

theorem borneOut_groupBodies {token blockLength numInGroup : Token} {element : String}
    (h : (groupBodies owner token blockLength numInGroup element).Emits notes b) :
    ∀ n ∈ notes, n.BorneOut b.outside := by
  rw [groupBodies] at h
  simp only [emits_ofOption_bind, emits_note_bind, emits_demand_bind] at h
  obtain ⟨blockLengthType, -, numInGroupType, -, _, ⟨_, ⟨-, hbounded⟩, rfl⟩, rfl⟩ := h
  obtain ⟨bounds, _, -, hlast, hwarning⟩ := emits_bounds_bind hbounded
  simp only [emits_note_bind, emits_pure] at hlast
  obtain ⟨_, ⟨rfl, rfl⟩, rfl⟩ := hlast
  rcases hwarning with rfl | ⟨w, rfl⟩ <;>
    simp [Note.BorneOut, Bodies.outside, whenPresent, uses_writePacked, uses_lengthCheck,
      unpack, uses_packedArguments]

theorem borneOut_varDataBodies {token length data : Token}
    (h : (varDataBodies owner token length data).Emits notes b) :
    ∀ n ∈ notes, n.BorneOut b.outside := by
  rw [varDataBodies] at h
  simp only [emits_ofOption_bind, emits_note_bind, emits_demand_bind] at h
  obtain ⟨lengthType, -, _, ⟨_, ⟨-, dataType, -, hbounded⟩, rfl⟩, rfl⟩ := h
  obtain ⟨bounds, _, -, hchecked, hwarning⟩ := emits_bounds_bind hbounded
  obtain ⟨_, hvalidated, rfl⟩ := emits_note_bind.mp hchecked
  obtain ⟨validation, checks, _, hvalidation, hlast, rfl⟩ := emits_ite_bind.mp hvalidated
  obtain ⟨hb, rfl⟩ := emits_pure.mp hlast
  have hstruct : Uses b.outside "struct" := by
    simp [← hb, Bodies.outside, uses_writePacked]
  have hread : Uses b.outside Helper.readExact.name := by
    simp [← hb, Bodies.outside, whenPresent, unpack, uses_packedArguments]
  have herror : Uses b.outside Helper.rangeCheckError.name := by
    simp [← hb, Bodies.outside, uses_lengthCheck]
  -- The notes of the checks are borne out by the checks, which are part of the body.
  have hchecks : ∀ n ∈ checks, n.BorneOut b.outside := by
    intro n hn
    refine (borneOut_validation hvalidation n hn).mono fun e he => ?_
    simp [← hb, Bodies.outside, he]
  have hall : ∀ n ∈ .helper .rangeCheckError :: (checks ++ []), n.BorneOut b.outside := by
    rw [List.append_nil]
    exact List.forall_mem_cons.mpr ⟨herror, hchecks⟩
  refine List.forall_mem_cons.mpr ⟨.inl hstruct, List.forall_mem_cons.mpr ⟨hread, ?_⟩⟩
  rcases hwarning with rfl | ⟨w, rfl⟩
  · exact hall
  · exact List.forall_mem_cons.mpr ⟨trivial, hall⟩

end Codec

/-- **Every note of a step is borne out** by what the step adds to the class. -/
theorem Step.borneOut_bodies {s : Step} {owner : String} {isExtensible : Bool} {notes : List Note}
    {b : Bodies} (h : (s.bodies owner isExtensible).Emits notes b) :
    ∀ n ∈ notes, n.BorneOut b.outside := by
  cases s with
  | gap => exact Codec.borneOut_gapBodies h
  | primitive => exact Codec.borneOut_primitiveBodies h
  | typed => exact Codec.borneOut_typedBodies h
  | extensionSkip => exact Codec.borneOut_skipBodies h
  | group => exact Codec.borneOut_groupBodies h
  | varData => exact Codec.borneOut_varDataBodies h
  | encodeValidation =>
    obtain ⟨-, rfl⟩ := emits_pure.mp h
    simp
  | decodeValidation =>
    obtain ⟨-, rfl⟩ := emits_pure.mp h
    simp

/-! ## Classes -/

theorem Bodies.mem_outside_append {x y : Bodies} {e : Expr} :
    e ∈ (x ++ y).outside ↔ e ∈ x.outside ∨ e ∈ y.outside := by
  show e ∈ Bodies.outside ⟨x.zero ++ y.zero, x.encode ++ y.encode, x.decode ++ y.decode,
    x.rangeCheck ++ y.rangeCheck, x.init ++ y.init, x.accessors ++ y.accessors⟩ ↔ _
  simp only [outside, Stmt.outside_append, List.flatMap_append, List.mem_append]
  tauto

theorem Bodies.outside_join {bodies : List Bodies} {b : Bodies} (hb : b ∈ bodies) :
    b.outside ⊆ (join bodies).outside := by
  intro e he
  induction bodies with
  | nil => cases hb
  | cons first rest ih =>
    rcases List.mem_cons.mp hb with rfl | hb
    · exact mem_outside_append.mpr (.inl he)
    · exact mem_outside_append.mpr (.inr (ih hb))

namespace Plan

variable {e : Edition}

/-- The notes of classes that follow others are borne out by either. -/
theorem borneOut_both {x y : Emission (List ClassDef)} {notes : List Note} {cs : List ClassDef}
    (hx : ∀ {notes own}, x.Emits notes own → ∀ n ∈ notes, n.BorneOut (own.flatMap ClassDef.outside))
    (hy : ∀ {notes others}, y.Emits notes others →
      ∀ n ∈ notes, n.BorneOut (others.flatMap ClassDef.outside))
    (h : (do
      let own ← x
      let others ← y
      return own ++ others).Emits notes cs) :
    ∀ n ∈ notes, n.BorneOut (cs.flatMap ClassDef.outside) := by
  obtain ⟨own, first, _, hown, hrest, rfl⟩ := emits_bind.mp h
  obtain ⟨others, second, _, hothers, hlast, rfl⟩ := emits_bind.mp hrest
  obtain ⟨rfl, rfl⟩ := emits_pure.mp hlast
  rw [List.append_nil, List.flatMap_append]
  refine List.forall_mem_append.mpr ⟨fun n hn => ?_, fun n hn => ?_⟩
  · exact (hx hown n hn).mono (List.subset_append_left _ _)
  · exact (hy hothers n hn).mono (List.subset_append_right _ _)

/-- What steps add to a class is in the class. -/
theorem outside_classOf {p : Plan} {b : Bodies} {c : ClassDef} (h : classOf e p b = some c) :
    b.outside ⊆ c.outside := by
  rw [classOf] at h
  obtain ⟨doc, -, h⟩ := Option.bind_eq_some_iff.mp h
  obtain ⟨numbers, -, h⟩ := Option.bind_eq_some_iff.mp h
  obtain rfl := Option.some.inj h
  intro x hx
  simp only [Bodies.outside, List.mem_append] at hx
  simp only [ClassDef.outside, List.flatMap_append, List.flatMap_cons, Method.outside,
    Stmt.outside_append, List.mem_append]
  tauto

mutual

/-- **Every note of the classes of a plan is borne out** by one of the classes. -/
theorem borneOut_classes : ∀ {p : Plan} {notes : List Note} {cs : List ClassDef},
    (p.classes e).Emits notes cs → ∀ n ∈ notes, n.BorneOut (cs.flatMap ClassDef.outside)
  | ⟨typeName, kind, blockLength, isExtensible, token, steps, consumed⟩, notes, cs, h => by
    rw [classes] at h
    obtain ⟨_, hbodies, rfl⟩ := emits_note_bind.mp h
    obtain ⟨bodies, own, _, hsteps, hdemand, rfl⟩ := emits_bind.mp hbodies
    obtain ⟨_, -, hclass⟩ := (emits_quiet_bind (notesOnly_demandClass e _).notes_eq_nil).mp hdemand
    obtain ⟨c, hc, hinner⟩ := emits_ofOption_bind.mp hclass
    obtain ⟨inner, others, _, hothers, hlast, rfl⟩ := emits_bind.mp hinner
    obtain ⟨rfl, rfl⟩ := emits_pure.mp hlast
    have hown : ∀ n ∈ own, n.BorneOut c.outside := by
      intro n hn
      obtain ⟨s, -, b, hb, noted, hs, hn⟩ := exists_of_emits_mapM hsteps hn
      refine (Step.borneOut_bodies hs n hn).mono fun x hx => ?_
      exact outside_classOf hc (Bodies.outside_join hb hx)
    rw [List.append_nil, List.flatMap_cons]
    refine List.forall_mem_cons.mpr ⟨trivial, List.forall_mem_append.mpr ⟨fun n hn => ?_, fun n hn => ?_⟩⟩
    · exact (hown n hn).mono (List.subset_append_left _ _)
    · exact (borneOut_innerClasses hothers n hn).mono (List.subset_append_right _ _)

theorem borneOut_innerClasses : ∀ {steps : List Step} {notes : List Note} {cs : List ClassDef},
    (innerClasses e steps).Emits notes cs → ∀ n ∈ notes, n.BorneOut (cs.flatMap ClassDef.outside)
  | [], notes, cs, h => by
    rw [innerClasses] at h
    obtain ⟨-, rfl⟩ := emits_pure.mp h
    simp
  | .typed _ _ _ _ (some nested) :: rest, notes, cs, h => by
    rw [innerClasses] at h
    exact borneOut_both (fun h' => borneOut_classes h') (fun h' => borneOut_innerClasses h') h
  | .group _ _ _ element :: rest, notes, cs, h => by
    rw [innerClasses] at h
    exact borneOut_both (fun h' => borneOut_classes h') (fun h' => borneOut_innerClasses h') h
  | .typed _ _ _ _ none :: rest, notes, cs, h | .gap .. :: rest, notes, cs, h
  | .primitive .. :: rest, notes, cs, h | .extensionSkip _ :: rest, notes, cs, h
  | .varData .. :: rest, notes, cs, h | .encodeValidation :: rest, notes, cs, h
  | .decodeValidation :: rest, notes, cs, h => by
    rw [innerClasses] at h
    · exact borneOut_innerClasses h
    all_goals simp

end

end Plan

namespace Codec

/-- Reading the value of an enumeration or a set. -/
theorem uses_packedOf (type : Primitive) (t : Token) :
    Uses (Expr.partsAll Expr.isTemplate (packedOf type t)) Helper.readExact.name := by
  simp [packedOf, Expr.partsAll, uses_readExact]

end Codec

/-- The notes of an enumeration are borne out by its class. -/
theorem Enumeration.borneOut_ofTokens {tokens : List Token} {notes : List Note} {e : Enumeration}
    (h : (ofTokens tokens).Emits notes e) : ∀ n ∈ notes, n.BorneOut e.toClass.outside := by
  rw [ofTokens] at h
  simp only [emits_ofExcept_bind, emits_note_bind, emits_demand_bind, emits_pure] at h
  obtain ⟨token, -, name, -, wire, -, null, -, _, ⟨_, ⟨_, ⟨_, ⟨values, -, checked, -, -, he, rfl⟩, rfl⟩,
    rfl⟩, rfl⟩, rfl⟩ := h
  have hstruct : Uses e.encodeMethod.outside "struct" := by
    simp [encodeMethod, Method.outside, Codec.uses_writePacked]
  have hread : Uses e.decodeMethod.outside Helper.readExact.name := by
    simp [decodeMethod, Method.outside, Codec.unpack, Codec.uses_packedOf]
  have herror : Uses e.rangeCheckMethod.outside Helper.rangeCheckError.name := by
    simp [rangeCheckMethod, Method.outside, Codec.uses_complain]
  simp [Note.BorneOut, ClassDef.outside, toClass, hstruct, hread, herror]

/-- The notes of a choice set are borne out by its class. -/
theorem ChoiceSet.borneOut_ofTokens {tokens : List Token} {notes : List Note} {s : ChoiceSet}
    (h : (ofTokens tokens).Emits notes s) : ∀ n ∈ notes, n.BorneOut s.toClass.outside := by
  rw [ofTokens] at h
  simp only [emits_ofExcept_bind, emits_note_bind, emits_demand_bind, emits_pure] at h
  obtain ⟨token, -, name, -, wire, -, width, -, choices, -, _, ⟨_, ⟨_, ⟨-, hs, rfl⟩, rfl⟩, rfl⟩, rfl⟩ := h
  have hstruct : Uses s.encodeMethod.outside "struct" := by
    simp [encodeMethod, Method.outside, Codec.uses_writePacked]
  have hread : Uses s.decodeMethod.outside Helper.readExact.name := by
    simp [decodeMethod, Method.outside, Codec.unpack, Codec.uses_packedOf]
  simp [Note.BorneOut, ClassDef.outside, toClass, hstruct, hread]

end SimpleBinary

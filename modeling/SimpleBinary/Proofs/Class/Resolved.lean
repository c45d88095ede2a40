import SimpleBinary.Proofs.Class.Methods
import SimpleBinary.Proofs.Class.Requirements
import SimpleBinary.Proofs.Class.Scope
import SimpleBinary.Proofs.Results

/-!
Names in the bodies of steps.

Whatever a step adds to the methods of a class uses only names that are parameters, that the step binds
itself, that are ambient, or that the step notes (`Step.resolved_bodies`). The numbers in the source
are part of it: those without a literal are taken from `math`, and are noted, except for the limit on the
number of elements of a group or variable data, which is no such number unless the type of the count is a
floating-point type.
-/

set_option autoImplicit false

namespace SimpleBinary

open Code Emission

/-- The names that are neither modules that a class takes its source from, nor helpers, nor classes:
built-in functions and types, the parameters that only some methods have, and what the values of a schema
are spelled with that are given as anything but texts. -/
abbrev Code.ambient : List String :=
  ["bool", "bytes", "classmethod", "enumerate", "int", "len", "list", "property", "range",
    "staticmethod", "type", "vars", "False", "block_length", "do_range_check"] ++ Datum.names

/-- Whether all noted names are known, and the ambient ones. -/
structure Covers (notes : List Note) (known : String → Prop) : Prop where
  ambient : ∀ name ∈ ambient, known name
  noted : ∀ name, Noted notes name → known name

namespace Covers

variable {notes : List Note} {known : String → Prop}

theorem module (h : Covers notes known) {name : String} (hname : .module name ∈ notes) : known name :=
  h.noted _ (.module hname)

theorem helper (h : Covers notes known) {helper : Helper} (hhelper : .helper helper ∈ notes) :
    known helper.name :=
  h.noted _ (.helper helper hhelper)

/-- More names known do not matter. -/
theorem or_left (h : Covers notes known) (more : String → Prop) :
    Covers notes fun name => more name ∨ known name :=
  ⟨fun name hname => .inr (h.ambient name hname), fun name hname => .inr (h.noted name hname)⟩

end Covers

/-- Whether all names in statements are known, with parameters and notes. -/
def Code.Stmt.Resolved (notes : List Note) (params : List String) (stmts : List Stmt) : Prop :=
  ∀ known, Covers notes known → (∀ name ∈ params, known name) →
    (∀ name ∈ Stmt.bindsAll stmts, known name) → Stmt.AllInScope known stmts

/-- Whether all names in a method are known, with notes. -/
def Code.Method.Resolved (notes : List Note) (m : Method) : Prop :=
  ∀ known, Covers notes known → m.HeadInScope known ∧ m.BodyInScope known

/-- Whether all names in bodies are known, with the parameters of their methods and notes. -/
structure Bodies.Resolved (notes : List Note) (b : Bodies) : Prop where
  zero : Stmt.Resolved notes ["self"] b.zero
  encode : Stmt.Resolved notes ["self", "writer", "order"] b.encode
  decode : Stmt.Resolved notes ["self", "reader", "order", "acting_version"] b.decode
  rangeCheck : Stmt.Resolved notes ["self", "acting_version", "schema_version"] b.rangeCheck
  init : Stmt.Resolved notes ["self"] b.init
  accessors : ∀ m ∈ b.accessors, m.Resolved notes

/-! ## Pieces of source -/

namespace Codec

section

variable {known : String → Prop}

@[simp] theorem inScope_ordered (f : Format) : (ordered f).InScope known ↔ known "order" := by
  simp [ordered]

@[simp] theorem inScope_pack : pack.InScope known ↔ known "struct" := by
  simp [pack]

@[simp] theorem inScope_unpack : unpack.InScope known ↔ known "struct" := by
  simp [unpack]

@[simp] theorem inScope_write (value : Expr) :
    (write value).InScope known ↔ known "writer" ∧ value.InScope known := by
  simp [write]

@[simp] theorem inScope_writePacked (f : Format) (values : List Expr) :
    (writePacked f values).InScope known ↔
      known "writer" ∧ known "struct" ∧ known "order" ∧ Expr.AllInScope known values := by
  simp [writePacked]

@[simp] theorem inScope_readExact (size : Expr) :
    (readExact size).InScope known ↔ known "read_exact" ∧ known "reader" ∧ size.InScope known := by
  simp [readExact, Helper.name]

@[simp] theorem allInScope_packedArguments (f : Format) (size : Int) :
    Expr.AllInScope known (packedArguments f size) ↔
      known "order" ∧ known "read_exact" ∧ known "reader" := by
  simp [packedArguments]

@[simp] theorem inScope_isPresent (property : String) :
    (isPresent property).InScope known ↔ known "self" ∧ known "acting_version" := by
  simp [isPresent]

@[simp] theorem inScope_complain (pieces : List Piece) :
    (complain pieces).InScope known ↔ known "RangeCheckError" ∧ Expr.PiecesInScope known pieces := by
  simp [complain, Helper.name]

@[simp] theorem inScope_checkOwn (value : Expr) :
    (checkOwn value).InScope known ↔
      value.InScope known ∧ known "acting_version" ∧ known "schema_version" := by
  simp [checkOwn]

end

variable {notes : List Note} {owner property : String} {b : Bodies}

/-! ## Accessors -/

theorem resolved_static {name : String} {params : List String} {value : Expr}
    (h : ∀ known, Covers notes known → (∀ p ∈ params, known p) → value.InScope known) :
    (Method.static name params value).Resolved notes := by
  intro known hk
  have hparams : (Param.ofNames params).map Param.name = params := by
    simp [Param.ofNames, Function.comp_def]
  constructor
  · simp [Method.static, Method.HeadInScope, Param.ofNames, hk.ambient]
  · rw [Method.BodyInScope]
    simp only [Method.static, hparams, Stmt.AllInScope, Stmt.InScope, and_true]
    refine h _ ?_ fun p hp => .inl hp
    exact (hk.or_left _).or_left _

theorem inScope_shown {known : String → Prop} (hk : Covers notes known) (d : Datum) :
    (shown d).InScope known := by
  simp [shown, hk.ambient]

theorem resolved_idAccessor (t : Token) : (idAccessor property t).Resolved notes :=
  resolved_static fun _ _ _ => trivial

theorem resolved_characterEncodingAccessor (e : Encoding) :
    (characterEncodingAccessor property e).Resolved notes :=
  resolved_static fun _ hk _ => inScope_shown hk _

theorem resolved_metaAccessor (e : Encoding) : (metaAccessor property e).Resolved notes :=
  resolved_static fun _ hk hparams => by simp [inScope_shown hk, hparams]

theorem resolved_versionAccessors (t : Token) :
    ∀ m ∈ versionAccessors property t, m.Resolved notes := by
  rw [versionAccessors]
  simp only [List.forall_mem_cons, List.not_mem_nil, false_imp_iff, implies_true, and_true]
  refine ⟨resolved_static fun _ _ _ => trivial, fun known hk => ?_, resolved_static fun _ _ _ => trivial⟩
  simp [Method.HeadInScope, Method.BodyInScope, Param.ofNames, hk.ambient]

theorem Extent.inScope_zero {known : String → Prop} {type : Primitive} (extent : Extent)
    (hbytes : known "bytes") (hmath : type.isReal = true → known "math") :
    (extent.zero type).InScope known := by
  have hvalue : (zeroValue type).InScope known := by
    rw [zeroValue]
    split
    · next hreal =>
      intro name hname
      rw [Number.eq_math_of_mem_names hname]
      exact hmath hreal
    · trivial
  cases extent with
  | text count => simp [Extent.zero, hbytes]
  | array count => simpa [Extent.zero] using hvalue
  | single => exact hvalue

theorem inScope_validation {known : String → Prop} {validation : List Stmt} {label : String}
    (hk : Covers notes known) (hself : known "self")
    (h : validation = [] ∨ ∃ validator : Helper, .helper validator ∈ notes ∧
      validation = [.run (.apply validator.name [.label label, .own property])]) :
    Stmt.AllInScope known validation := by
  rcases h with rfl | ⟨validator, hvalidator, rfl⟩
  · trivial
  · simp [hk.helper hvalidator, hself]

theorem inScope_outOfRange {known : String → Prop} {type : Primitive} {value : Expr}
    (hself : known "self") (hmath : type.isReal = true → known "math") (hvalue : value.InScope known) :
    (outOfRange type property value).InScope known := by
  rw [outOfRange]
  split
  · next hreal => simp [hself, hvalue, hmath hreal]
  · simp [hself, hvalue]

theorem inScope_complainOutside {known : String → Prop} {name : List Piece} {value : Expr}
    (hself : known "self") (herror : known "RangeCheckError") (hname : Expr.PiecesInScope known name)
    (hvalue : value.InScope known) : (complainOutside name property value).InScope known := by
  simp [complainOutside, Expr.piecesInScope_append, hself, herror, hname, hvalue]

theorem inScope_rangeCheckStmts {known : String → Prop} {type : Primitive} {extent : Extent}
    (hk : Covers notes known) (hself : known "self") (herror : known "RangeCheckError")
    (hmath : type.isReal = true → known "math")
    (hbinds : ∀ name ∈ Stmt.bindsAll (rangeCheckStmts type owner property extent), known name) :
    Stmt.AllInScope known (rangeCheckStmts type owner property extent) := by
  cases extent with
  | single =>
    have htest : (outOfRange type property (.own property)).InScope known :=
      inScope_outOfRange hself hmath hself
    have hcomplain : (complainOutside [.text s!"Range check failed on {owner}.{property}"] property
        (.own property)).InScope known :=
      inScope_complainOutside hself herror trivial hself
    exact ⟨⟨htest, ⟨hcomplain, trivial⟩, trivial⟩, trivial⟩
  | text count | array count =>
    have hidx : known "idx" := hbinds _ (by simp [rangeCheckStmts])
    have hvalue : known "value" := hbinds _ (by simp [rangeCheckStmts])
    have htest : (outOfRange type property (.name "value")).InScope known :=
      inScope_outOfRange hself hmath hvalue
    have hcomplain : (complainOutside [.text s!"Range check failed on {owner}.{property}[",
        .value (.name "idx"), .text "]"] property (.name "value")).InScope known :=
      inScope_complainOutside hself herror ⟨hidx, trivial⟩ hvalue
    simp [rangeCheckStmts, htest, hcomplain, hself, herror, hk.ambient]

theorem ValueBodies.resolved {type : Primitive} {count : Int}
    (h : ValueBodies notes owner property type count b) : b.Resolved notes where
  zero := by
    intro known hk hparams _
    rw [h.zero]
    refine ⟨⟨?_, ?_⟩, trivial⟩
    · simp [hparams]
    · exact Extent.inScope_zero _ (hk.ambient _ (by simp)) fun hreal => hk.module (h.math hreal)
  encode := by
    intro known hk hparams _
    have hstruct := hk.module h.struct
    rw [h.encode]
    cases Extent.of type count <;> simp [Extent.packedValue, hparams, hstruct]
  decode := by
    intro known hk hparams _
    have hstruct := hk.module h.struct
    have hread : known "read_exact" := hk.helper h.readExact
    rw [h.decode]
    cases Extent.of type count <;>
      simp [whenPresent, Extent.read, Extent.absent, hparams, hk.ambient, hstruct, hread]
  rangeCheck := by
    intro known hk hparams hbinds
    obtain ⟨validation, hcheck, hvalidation⟩ := h.rangeCheck
    have herror : known "RangeCheckError" := hk.helper h.rangeCheckError
    rw [hcheck] at hbinds ⊢
    refine ⟨⟨?_, ?_, trivial⟩, trivial⟩
    · simp [hparams]
    · refine Stmt.allInScope_append.mpr ⟨?_, inScope_validation hk (hparams _ (by simp)) hvalidation⟩
      -- What the checks bind is among what the body binds.
      refine inScope_rangeCheckStmts hk (hparams _ (by simp)) herror
        (fun hreal => hk.module (h.math hreal)) fun name hname => hbinds name ?_
      simp [Stmt.bindsAll_append, hname]
  init := by
    intro known _ _ _
    rw [h.init]
    trivial
  accessors := by
    rw [h.accessors]
    simp

/-- Statements that are not there use no names. -/
theorem resolved_nil (params : List String) : Stmt.Resolved notes params [] :=
  fun _ _ _ _ => trivial

theorem inScope_lengthCheck {known : String → Prop} {bounds : Bounds} (hk : Covers notes known)
    (hself : known "self") (herror : known "RangeCheckError") (hmax : bounds.max.names = []) :
    (lengthCheck owner property bounds).InScope known := by
  simp [lengthCheck, hself, herror, hmax, hk.ambient]

theorem GroupBodies.resolved {element : String} {token : Token}
    {blockLengthType numInGroupType : Primitive} {bounds : Bounds}
    (h : GroupBodies notes owner element token blockLengthType numInGroupType bounds b)
    (helement : Noted notes element) (hmax : bounds.max.names = []) : b.Resolved notes where
  zero := by
    intro known hk hparams _
    rw [h.zero]
    simp [hparams]
  encode := by
    intro known hk hparams hbinds
    have hstruct := hk.module h.struct
    rw [h.encode] at hbinds ⊢
    have heach : known "element" := hbinds _ (by simp)
    simp [hparams, hstruct, heach, hk.ambient]
  decode := by
    intro known hk hparams hbinds
    have hstruct := hk.module h.struct
    have hread : known "read_exact" := hk.helper h.readExact
    rw [h.decode] at hbinds ⊢
    have heach : known "element" := hbinds _ (by simp [whenPresent])
    -- The numbers of the header are names that the unpacking binds.
    have hlength := hbinds (Identifier.propertyName token.name ++ "_block_length") (by simp [whenPresent])
    have hcount := hbinds (Identifier.propertyName token.name ++ "_num_in_group") (by simp [whenPresent])
    simp [whenPresent, hparams, hstruct, hread, heach, hlength, hcount, hk.noted _ helement, hk.ambient]
  rangeCheck := by
    intro known hk hparams hbinds
    have herror : known "RangeCheckError" := hk.helper h.rangeCheckError
    rw [h.rangeCheck] at hbinds ⊢
    have heach : known "element" := hbinds _ (by simp)
    refine ⟨inScope_lengthCheck hk (hparams _ (by simp)) herror hmax, ?_, trivial⟩
    simp [hparams, heach]
  init := by
    rw [h.init]
    exact resolved_nil _
  accessors := by
    rw [h.accessors]
    exact List.forall_mem_cons.mpr ⟨resolved_idAccessor _, resolved_versionAccessors _⟩

theorem VarDataBodies.resolved {token data : Token} {lengthType dataType : Primitive} {bounds : Bounds}
    (h : VarDataBodies notes owner token data lengthType dataType bounds b)
    (hmax : bounds.max.names = []) : b.Resolved notes where
  zero := by
    intro known hk hparams _
    rw [h.zero]
    rcases dataStmts_cases (Identifier.propertyName token.name) dataType with hdata | hdata <;>
      simp [hdata, bytesData, valuesData, hparams]
  encode := by
    intro known hk hparams _
    have hstruct := hk.module h.struct
    rw [h.encode]
    rcases dataStmts_cases (Identifier.propertyName token.name) dataType with hdata | hdata <;>
      simp [hdata, bytesData, valuesData, hparams, hstruct, hk.ambient]
  decode := by
    intro known hk hparams hbinds
    have hstruct := hk.module h.struct
    have hread : known "read_exact" := hk.helper h.readExact
    rw [h.decode] at hbinds ⊢
    -- The length is a name of the method itself, which it binds before it reads the data.
    have hlength := hbinds (Identifier.propertyName token.name ++ "_length") (by simp [whenPresent])
    rcases dataStmts_cases (Identifier.propertyName token.name) dataType with hdata | hdata <;>
      simp [whenPresent, hdata, bytesData, valuesData, hparams, hstruct, hread, hlength, hk.ambient]
  rangeCheck := by
    intro known hk hparams _
    obtain ⟨validation, hcheck, hvalidation⟩ := h.rangeCheck
    have hself := hparams "self" (by simp)
    have herror : known "RangeCheckError" := hk.helper h.rangeCheckError
    rw [hcheck]
    refine ⟨⟨?_, ⟨?_, ?_⟩, trivial⟩, trivial⟩
    · simp [hparams]
    · exact inScope_lengthCheck hk hself herror hmax
    · exact inScope_validation hk hself hvalidation
  init := by
    rw [h.init]
    exact resolved_nil _
  accessors := by
    rw [h.accessors]
    refine List.forall_mem_cons.mpr
      ⟨resolved_idAccessor _, List.forall_mem_append.mpr ⟨resolved_versionAccessors _, ?_⟩⟩
    simp only [List.forall_mem_cons, List.not_mem_nil, false_imp_iff, implies_true, and_true]
    exact ⟨resolved_metaAccessor _, resolved_characterEncodingAccessor _,
      resolved_static fun _ _ _ => trivial⟩

end Codec

/-! ## Steps -/

theorem Bodies.Resolved.withAccessors {notes : List Note} {b : Bodies} (h : b.Resolved notes)
    {methods : List Method} (hmethods : ∀ m ∈ methods, m.Resolved notes) :
    { b with accessors := methods }.Resolved notes :=
  ⟨h.zero, h.encode, h.decode, h.rangeCheck, h.init, hmethods⟩

end SimpleBinary

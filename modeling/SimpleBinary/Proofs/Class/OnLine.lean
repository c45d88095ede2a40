import SimpleBinary.Proofs.Class.Lines
import SimpleBinary.Proofs.Class.Names

/-!
Emitted classes are made of lines.

Every identifier and every text in the class of a walked plan, of an enumeration or of a choice set is a
line (`Plan.onLine_classes`, `Enumeration.onLine_toClass`, `ChoiceSet.onLine_toClass`): identifiers are, and
what else comes from the schema stands there by its spelling. The sentence about a class is left aside. It
shows the name of a message or a group as it is, and is a line where that name is one
(`Plan.not_mem_sentence`).
-/

set_option autoImplicit false

namespace SimpleBinary

open Code Emission

/-! ## Sentences -/

theorem Text.not_mem_ofString {s : String} : CodePoint.char '\n' ∉ Text.ofString s ↔ IsLine s := by
  simp [Text.ofString, Text.ofChars, IsLine]

/-- The sentence about a class is a line, if the name that it shows is. -/
theorem Plan.not_mem_sentence {e : Edition} {p : Plan} {doc : Text} (h : p.sentence e = some doc)
    (hname : IsLine p.typeName) (htoken : p.kind ≠ .composite → ∀ t ∈ p.token, CodePoint.char '\n' ∉ t.name) :
    CodePoint.char '\n' ∉ doc := by
  rw [sentence.eq_def] at h
  dsimp only at h
  split at h
  · rename_i hkind
    obtain ⟨token, ht, h⟩ := Option.bind_eq_some_iff.mp h
    obtain ⟨types, htypes, h⟩ := Option.bind_eq_some_iff.mp h
    obtain rfl := Option.some.inj h
    -- The types of the header are shown by their names.
    have hline : IsLine types := by
      obtain ⟨a, -, htypes⟩ := Option.bind_eq_some_iff.mp htypes
      obtain ⟨b, -, htypes⟩ := Option.bind_eq_some_iff.mp htypes
      obtain ⟨c, -, htypes⟩ := Option.bind_eq_some_iff.mp htypes
      obtain ⟨d, -, htypes⟩ := Option.bind_eq_some_iff.mp htypes
      obtain rfl := Option.some.inj htypes
      have hprimitive (type : Primitive) : IsLine type.name := by cases type <;> decide
      simp +decide [hprimitive]
    have hshown := htoken (by simp [hkind]) token ht
    simp +decide [Text.not_mem_ofString, hshown, hline]
  · rename_i hkind
    obtain ⟨token, ht, h⟩ := Option.bind_eq_some_iff.mp h
    obtain rfl := Option.some.inj h
    have hshown := htoken (by simp [hkind]) token ht
    simp +decide [Text.not_mem_ofString, hshown]
  · obtain rfl := Option.some.inj h
    simp +decide [Text.not_mem_ofString, hname]

/-! ## Methods -/

namespace Code

@[simp] theorem forall_mem_ofNames {names : List String} :
    (∀ p ∈ Param.ofNames names, IsLine p.name ∧ ∀ value, p.default = some value → value.OnLine) ↔
      ∀ name ∈ names, IsLine name := by
  simp [Param.ofNames]

/-- A method of the class itself is made of lines if its name, its parameters and its value are. -/
theorem Method.onLine_static {name : String} {parameters : List String} {value : Expr} (hname : IsLine name)
    (hparameters : ∀ p ∈ parameters, IsLine p) (hvalue : value.OnLine) :
    (static name parameters value).OnLine where
  decorators := by simp +decide [static]
  name := hname
  params := forall_mem_ofNames.mpr hparameters
  body := by simpa [static] using hvalue

end Code

/-! ## Bodies -/

/-- Whether what a step adds to the methods of a class is made of lines. -/
structure Bodies.OnLine (b : Bodies) : Prop where
  zero : Stmt.AllOnLine b.zero
  encode : Stmt.AllOnLine b.encode
  decode : Stmt.AllOnLine b.decode
  rangeCheck : Stmt.AllOnLine b.rangeCheck
  init : Stmt.AllOnLine b.init
  accessors : ∀ m ∈ b.accessors, m.OnLine

namespace Bodies.OnLine

theorem empty : ({} : Bodies).OnLine :=
  ⟨trivial, trivial, trivial, trivial, trivial, by simp⟩

theorem append {a b : Bodies} (ha : a.OnLine) (hb : b.OnLine) : (a ++ b).OnLine where
  zero := Stmt.allOnLine_append.mpr ⟨ha.zero, hb.zero⟩
  encode := Stmt.allOnLine_append.mpr ⟨ha.encode, hb.encode⟩
  decode := Stmt.allOnLine_append.mpr ⟨ha.decode, hb.decode⟩
  rangeCheck := Stmt.allOnLine_append.mpr ⟨ha.rangeCheck, hb.rangeCheck⟩
  init := Stmt.allOnLine_append.mpr ⟨ha.init, hb.init⟩
  accessors := List.forall_mem_append.mpr ⟨ha.accessors, hb.accessors⟩

theorem join {bodies : List Bodies} (h : ∀ b ∈ bodies, b.OnLine) : (Bodies.join bodies).OnLine := by
  induction bodies with
  | nil => exact empty
  | cons b rest ih =>
    obtain ⟨hb, hrest⟩ := List.forall_mem_cons.mp h
    exact hb.append (ih hrest)

/-- Accessors in addition to what a step adds otherwise. -/
theorem withAccessors {b : Bodies} (h : b.OnLine) {methods : List Method}
    (hmethods : ∀ m ∈ methods, m.OnLine) :
    { b with accessors := methods }.OnLine :=
  ⟨h.zero, h.encode, h.decode, h.rangeCheck, h.init, hmethods⟩

end Bodies.OnLine

namespace Codec

variable {notes : List Note} {owner property : String} {b : Bodies}

/-! ### Accessors -/

section

variable (hproperty : IsLine property)

include hproperty

theorem onLine_versionAccessors (t : Token) : ∀ m ∈ versionAccessors property t, m.OnLine := by
  refine List.forall_mem_cons.mpr ⟨?_, List.forall_mem_cons.mpr ⟨⟨?_, ?_, ?_, ?_⟩,
    List.forall_mem_singleton.mpr ?_⟩⟩
  · exact Method.onLine_static (by simp +decide [hproperty]) (by simp) trivial
  · simp +decide
  · simp +decide [hproperty]
  · simp +decide
  · simp +decide [hproperty]
  · exact Method.onLine_static (by simp +decide [hproperty]) (by simp) trivial

theorem onLine_idAccessor (t : Token) : (idAccessor property t).OnLine :=
  Method.onLine_static (by simp +decide [hproperty]) (by simp) trivial

theorem onLine_metaAccessor (e : Encoding) : (metaAccessor property e).OnLine :=
  Method.onLine_static (by simp +decide [hproperty]) (by simp +decide) (by simp +decide [shown])

theorem onLine_characterEncodingAccessor (e : Encoding) : (characterEncodingAccessor property e).OnLine :=
  Method.onLine_static (by simp +decide [hproperty]) (by simp) trivial

theorem onLine_boundAccessors (bounds : Bounds) : ∀ m ∈ boundAccessors property bounds, m.OnLine := by
  refine List.forall_mem_cons.mpr ⟨?_, List.forall_mem_cons.mpr ⟨?_, List.forall_mem_singleton.mpr ?_⟩⟩
  all_goals exact Method.onLine_static (by simp +decide [hproperty]) (by simp) trivial

theorem onLine_fieldAccessors (field : Token) : ∀ m ∈ fieldAccessors property field, m.OnLine := by
  unfold fieldAccessors
  split
  · exact List.forall_mem_cons.mpr ⟨onLine_idAccessor hproperty field, List.forall_mem_append.mpr
      ⟨onLine_versionAccessors hproperty field,
        List.forall_mem_singleton.mpr (onLine_metaAccessor hproperty field.encoding)⟩⟩
  · exact onLine_versionAccessors hproperty field

end

/-! ### Parts of statements -/

@[simp] theorem onLine_helper (helper : Helper) : IsLine helper.name := by
  cases helper <;> decide

@[simp] theorem onLine_pack : pack.OnLine := by
  simp +decide [pack]

@[simp] theorem onLine_unpack : unpack.OnLine := by
  simp +decide [unpack]

@[simp] theorem onLine_ordered (f : Format) : (ordered f).OnLine := by
  simp +decide [ordered]

@[simp] theorem onLine_write {value : Expr} : (write value).OnLine ↔ value.OnLine := by
  simp +decide [write]

@[simp] theorem onLine_writePacked {f : Format} {values : List Expr} :
    (writePacked f values).OnLine ↔ Expr.AllOnLine values := by
  simp [writePacked]

@[simp] theorem onLine_readExact {size : Expr} : (readExact size).OnLine ↔ size.OnLine := by
  simp +decide [readExact]

@[simp] theorem onLine_packedArguments (f : Format) (size : Int) :
    Expr.AllOnLine (packedArguments f size) := by
  simp [packedArguments]

@[simp] theorem onLine_complain {pieces : List Piece} :
    (complain pieces).OnLine ↔ Expr.PiecesOnLine pieces := by
  simp [complain]

@[simp] theorem onLine_isPresent : (isPresent property).OnLine ↔ IsLine property := by
  simp +decide [isPresent]

@[simp] theorem onLine_whenPresent {yes no : List Stmt} : (whenPresent property yes no).OnLine ↔
    IsLine property ∧ Stmt.AllOnLine yes ∧ Stmt.AllOnLine no := by
  simp [whenPresent]

@[simp] theorem onLine_checkOwn {value : Expr} : (checkOwn value).OnLine ↔ value.OnLine := by
  simp +decide [checkOwn]

@[simp] theorem onLine_discard {size : Expr} : (discard size).OnLine ↔ size.OnLine := by
  simp +decide [discard]

@[simp] theorem onLine_isSince (version : Int) : (isSince version).OnLine := by
  simp +decide [isSince]

theorem onLine_extent (type : Primitive) (extent : Extent) (size : Int) (hproperty : IsLine property) :
    (extent.zero type).OnLine ∧ (extent.packedValue (.own property)).OnLine ∧
      (extent.read type (.own property) size).OnLine ∧
      (extent.absent (.call (.own (property ++ "_null_value")) [])).OnLine := by
  cases extent <;> cases hreal : type.isReal <;>
    simp +decide [Extent.zero, Extent.zeroValue, Extent.packedValue, Extent.read, Extent.absent, hproperty,
      hreal]

theorem onLine_outOfRange (type : Primitive) {value : Expr} (hproperty : IsLine property)
    (hvalue : value.OnLine) : (outOfRange type property value).OnLine := by
  unfold outOfRange
  split <;> simp +decide [hproperty, hvalue]

theorem onLine_complainOutside {name : List Piece} {value : Expr} (hname : Expr.PiecesOnLine name)
    (hproperty : IsLine property) (hvalue : value.OnLine) :
    (complainOutside name property value).OnLine := by
  simp +decide [complainOutside, Expr.piecesOnLine_append, hname, hproperty, hvalue]

theorem onLine_rangeCheckStmts {type : Primitive} {extent : Extent} (howner : IsLine owner)
    (hproperty : IsLine property) : Stmt.AllOnLine (rangeCheckStmts type owner property extent) := by
  have hown : (Expr.own property).OnLine := by simp +decide [hproperty]
  have hitem : (Expr.name "value").OnLine := by simp +decide
  -- Values of a fixed number are checked for their number first, and then one by one.
  have hvalues (count : Int) : Stmt.AllOnLine [
      .branch (.binary .differs (.length (.own property)) (.count count))
        [complain [.text s!"Range check failed on {owner}.{property}: length ",
          .value (.length (.own property)), .text s!" is not {count}"]] [],
      .loop ["idx", "value"] (.apply "enumerate" [.own property])
        [.branch (outOfRange type property (.name "value"))
          [complainOutside
            [.text s!"Range check failed on {owner}.{property}[", .value (.name "idx"), .text "]"]
            property (.name "value")] []]] := by
    have hoff := onLine_outOfRange type hproperty hitem
    have hlabel : Expr.PiecesOnLine
        [.text s!"Range check failed on {owner}.{property}[", .value (.name "idx"), .text "]"] := by
      simp +decide [howner, hproperty]
    have hcomplain := onLine_complainOutside hlabel hproperty hitem
    simp +decide [hown, howner, hproperty, hoff, hcomplain]
  cases extent with
  | single =>
    have hoff := onLine_outOfRange type hproperty hown
    have hlabel : Expr.PiecesOnLine [.text s!"Range check failed on {owner}.{property}"] := by
      simp +decide [howner, hproperty]
    have hcomplain := onLine_complainOutside hlabel hproperty hown
    exact ⟨⟨hoff, ⟨hcomplain, trivial⟩, trivial⟩, trivial⟩
  | text count => exact hvalues count
  | array count => exact hvalues count

theorem onLine_lengthCheck {bounds : Bounds} (howner : IsLine owner) (hproperty : IsLine property) :
    (lengthCheck owner property bounds).OnLine := by
  simp +decide [lengthCheck, howner, hproperty]

/-- The check of a character encoding, if there is one. -/
theorem onLine_validation {validation : List Stmt} (howner : IsLine owner) (hproperty : IsLine property)
    (h : validation = [] ∨ ∃ validator : Helper, .helper validator ∈ notes ∧
      validation = [.run (.apply validator.name [.label s!"{owner}.{property}", .own property])]) :
    Stmt.AllOnLine validation := by
  rcases h with rfl | ⟨validator, -, rfl⟩
  · trivial
  · simp +decide [howner, hproperty]

/-! ### Bodies of steps -/

theorem ValueBodies.onLine {type : Primitive} {count : Int}
    (h : ValueBodies notes owner property type count b) (howner : IsLine owner)
    (hproperty : IsLine property) : b.OnLine := by
  obtain ⟨hzero, hpacked, hread, habsent⟩ :=
    onLine_extent type (Extent.of type count) (type.size * count) hproperty
  have hown : (Expr.own property).OnLine := by simp +decide [hproperty]
  have hpresent := onLine_isPresent.mpr hproperty
  obtain ⟨validation, hcheck, hvalidation⟩ := h.rangeCheck
  constructor
  · rw [h.zero]
    exact ⟨⟨hown, hzero⟩, trivial⟩
  · rw [h.encode]
    simp +decide [hpacked]
  · rw [h.decode]
    exact ⟨⟨hpresent, ⟨hread, trivial⟩, ⟨hown, habsent⟩, trivial⟩, trivial⟩
  · rw [hcheck]
    exact ⟨⟨hpresent, Stmt.allOnLine_append.mpr
      ⟨onLine_rangeCheckStmts howner hproperty, onLine_validation howner hproperty hvalidation⟩, trivial⟩,
      trivial⟩
  · rw [h.init]
    trivial
  · rw [h.accessors]
    simp

theorem onLine_settingBodies {value : Expr} (hproperty : IsLine property) (hvalue : value.OnLine) :
    (settingBodies property value).OnLine := by
  have hset : Stmt.AllOnLine [.assign (.own property) value] := by
    simp +decide [hproperty, hvalue]
  exact ⟨trivial, trivial, hset, trivial, hset, by simp [settingBodies]⟩

theorem onLine_constantValue {type : Primitive} {text : Text} {value : Expr}
    (h : constantValue type text = .ok value) : value.OnLine := by
  rcases constantValue_ok h with ⟨data, rfl⟩ | ⟨number, rfl⟩ <;> trivial

theorem onLine_primitiveBodies {field encoding : Token} (howner : IsLine owner)
    (h : (primitiveBodies owner field encoding).Yields notes b) : b.OnLine := by
  obtain ⟨type, bounds, texts, inner, -, -, -, htexts, rfl, hinner⟩ := yields_primitiveBodies h
  have hproperty := Identifier.isLine_propertyName field.name
  have hline : inner.OnLine := by
    split at hinner
    · obtain ⟨value, hvalue, -, rfl⟩ := yields_constantBodies hinner
      exact onLine_settingBodies hproperty (onLine_constantValue hvalue)
    · obtain ⟨count, -, hvalues⟩ := yields_valueBodies hinner
      exact hvalues.onLine howner hproperty
  refine hline.withAccessors (List.forall_mem_append.mpr ⟨List.forall_mem_append.mpr
    ⟨onLine_fieldAccessors hproperty field, onLine_boundAccessors hproperty bounds⟩, ?_⟩)
  rcases htexts with rfl | rfl
  · simp
  · exact List.forall_mem_singleton.mpr (onLine_characterEncodingAccessor hproperty encoding.encoding)

theorem onLine_valueOfTypeBodies {construct : Construct} {type : String} {field : Token}
    (htype : IsLine type) (hproperty : IsLine property)
    (h : valueOfTypeBodies construct type property field = .ok b) : b.OnLine := by
  have hpresent := onLine_isPresent.mpr hproperty
  have hobject : (objectBodies type property).OnLine := by
    constructor <;> simp +decide [objectBodies, hproperty, htype]
  unfold valueOfTypeBodies at h
  split at h
  · split at h
    · obtain ⟨value, hvalue, h⟩ := except_bind_ok h
      obtain rfl := Except.ok.inj h
      refine onLine_settingBodies hproperty ?_
      rcases enumerationConstant_ok hvalue with ⟨name, rfl⟩ | ⟨n, rfl⟩
      · exact ⟨htype, by simp⟩
      · exact ⟨htype, trivial, trivial⟩
    · obtain rfl := Except.ok.inj h
      constructor <;> simp +decide [enumerationBodies, hproperty, htype]
  · obtain rfl := Except.ok.inj h
    refine ⟨hobject.zero, hobject.encode, hobject.decode, ?_, hobject.init, hobject.accessors⟩
    simp +decide [hproperty]
  · obtain rfl := Except.ok.inj h
    exact hobject

theorem GroupBodies.onLine {element : String} {token : Token} {blockLengthType numInGroupType : Primitive}
    {bounds : Bounds} (h : GroupBodies notes owner element token blockLengthType numInGroupType bounds b)
    (howner : IsLine owner) (helement : IsLine element) : b.OnLine := by
  have hproperty := Identifier.isLine_propertyName token.name
  have hpresent := onLine_isPresent.mpr hproperty
  constructor
  · rw [h.zero]
    simp +decide
  · rw [h.encode]
    simp +decide
  · rw [h.decode]
    simp +decide [helement]
  · rw [h.rangeCheck]
    simp +decide [onLine_lengthCheck howner hproperty]
  · rw [h.init]
    trivial
  · rw [h.accessors]
    exact List.forall_mem_cons.mpr
      ⟨onLine_idAccessor hproperty token, onLine_versionAccessors hproperty token⟩

theorem onLine_dataStmts (type : Primitive) (hproperty : IsLine property) :
    (dataStmts property type).write.OnLine ∧ (dataStmts property type).read.OnLine ∧
      (dataStmts property type).empty.OnLine := by
  have hcode : IsLine (String.singleton type.code) := by cases type <;> decide
  rcases dataStmts_cases property type with h | h
  all_goals
    rw [h]
    simp +decide [bytesData, valuesData, hproperty, hcode]

theorem VarDataBodies.onLine {token data : Token} {lengthType dataType : Primitive} {bounds : Bounds}
    (h : VarDataBodies notes owner token data lengthType dataType bounds b) (howner : IsLine owner) :
    b.OnLine := by
  have hproperty := Identifier.isLine_propertyName token.name
  have hpresent := onLine_isPresent.mpr hproperty
  obtain ⟨hwrite, hread, hempty⟩ := onLine_dataStmts dataType hproperty
  obtain ⟨validation, hcheck, hvalidation⟩ := h.rangeCheck
  constructor
  · rw [h.zero]
    simp +decide [hempty]
  · rw [h.encode]
    simp +decide [hwrite]
  · rw [h.decode]
    simp +decide [hread, hempty]
  · rw [hcheck]
    exact ⟨⟨hpresent, ⟨onLine_lengthCheck howner hproperty, onLine_validation howner hproperty hvalidation⟩,
      trivial⟩, trivial⟩
  · rw [h.init]
    trivial
  · rw [h.accessors]
    refine List.forall_mem_cons.mpr ⟨onLine_idAccessor hproperty token, List.forall_mem_append.mpr
      ⟨onLine_versionAccessors hproperty token, List.forall_mem_cons.mpr
        ⟨onLine_metaAccessor hproperty token.encoding, List.forall_mem_cons.mpr
          ⟨onLine_characterEncodingAccessor hproperty data.encoding, List.forall_mem_singleton.mpr ?_⟩⟩⟩⟩
    exact Method.onLine_static (by simp +decide) (by simp) trivial

theorem onLine_gapBodies {isExtensible : Bool} {size : Int} {since : Option Int} {trailing : Bool}
    (h : (gapBodies isExtensible size since trailing).Yields notes b) : b.OnLine := by
  have hpad : Stmt.AllOnLine [pad size] := by simp +decide [pad]
  have hdiscard : Stmt.AllOnLine [discardSince since size] := by
    unfold discardSince
    split <;> simp +decide
  rcases (yields_gapBodies h).2 with rfl | ⟨-, rfl⟩
  · exact ⟨trivial, hpad, trivial, trivial, trivial, by simp⟩
  · exact ⟨trivial, hpad, hdiscard, trivial, trivial, by simp⟩

theorem onLine_knownLength (first : Int) (later : List (Int × Int)) : (knownLength first later).OnLine := by
  have hfirst : (Expr.count first).OnLine := trivial
  unfold knownLength
  generalize Expr.count first = before at hfirst ⊢
  induction later generalizing before with
  | nil => exact hfirst
  | cons entry rest ih =>
    refine ih _ ?_
    simp +decide [hfirst]

theorem onLine_skipBodies {known : List (Int × Int)} (h : (skipBodies known).Yields notes b) : b.OnLine := by
  have hbeyond (length : Expr) (hlength : length.OnLine) : (discardBeyond length).OnLine := by
    simp +decide [discardBeyond, hlength]
  have hname : (Expr.name "known_length").OnLine := by simp +decide
  rcases (yields_skipBodies h).2 with ⟨length, rfl⟩ | ⟨first, later, rfl⟩
  · exact ⟨trivial, trivial, ⟨hbeyond (.count length) trivial, trivial⟩, trivial, trivial, by simp⟩
  · exact ⟨trivial, trivial, ⟨⟨hname, onLine_knownLength first later⟩, hbeyond _ hname, trivial⟩, trivial,
      trivial, by simp⟩

end Codec

/-- **What a step adds to the methods of a class is made of lines**, if the names of the class and of the
plan that the step holds are. -/
theorem Step.onLine_bodies {notes : List Note} {owner : String} {isExtensible : Bool} {s : Step} {b : Bodies}
    (h : (s.bodies owner isExtensible).Yields notes b) (howner : IsLine owner)
    (hinner : ∀ q ∈ s.inner?, IsLine q.typeName) : b.OnLine := by
  cases s with
  | gap => exact Codec.onLine_gapBodies h
  | primitive => exact Codec.onLine_primitiveBodies howner h
  | typed construct typeName field type nested =>
    obtain ⟨name, inner, hname, hinner', rfl⟩ := Codec.yields_typedBodies h
    have hproperty := Identifier.isLine_propertyName field.name
    have hline : IsLine name := by
      rcases hname with hnested | ⟨-, -, text, rfl⟩
      · obtain ⟨q, hq, rfl⟩ := Option.map_eq_some_iff.mp hnested
        exact hinner q hq
      · exact Identifier.isLine_typeName text
    exact (Codec.onLine_valueOfTypeBodies hline hproperty hinner').withAccessors
      (Codec.onLine_fieldAccessors hproperty field)
  | extensionSkip => exact Codec.onLine_skipBodies h
  | group token blockLength numInGroup element =>
    obtain ⟨_, _, _, -, -, -, hbodies⟩ := Codec.yields_groupBodies h
    exact hbodies.onLine howner (hinner element rfl)
  | varData =>
    obtain ⟨_, _, _, -, -, -, hbodies⟩ := Codec.yields_varDataBodies h
    exact hbodies.onLine howner
  | encodeValidation =>
    obtain rfl := yields_pure.mp h
    constructor <;> simp +decide [Codec.encodeValidationBodies]
  | decodeValidation =>
    obtain rfl := yields_pure.mp h
    constructor <;> simp +decide [Codec.decodeValidationBodies]

/-! ## Classes -/

namespace Plan

variable {e : Edition} {p : Plan} {c : ClassDef} {b : Bodies}

theorem onLine_objectMethods : ∀ m ∈ objectMethods, m.OnLine := by
  refine List.forall_mem_cons.mpr ⟨⟨?_, ?_, ?_, ?_⟩, List.forall_mem_singleton.mpr ⟨?_, ?_, ?_, ?_⟩⟩
  all_goals simp +decide

theorem onLine_numberMethods {numbers : List Method} (h : p.numberMethods e = some numbers) :
    ∀ m ∈ numbers, m.OnLine := by
  have hlines : ∀ name ∈ numberNames, IsLine name := by decide
  exact forall_numberMethods
    (fun name hname _ => Method.onLine_static (hlines name hname) (by simp) trivial)
    (fun name hname _ => Method.onLine_static (hlines name hname) (by simp) trivial) h

/-- A class is made of lines if what its steps add is, its sentence left aside. -/
theorem onLine_classOf (h : classOf e p b = some c) (hname : IsLine p.typeName) (hb : b.OnLine) :
    c.OnLine := by
  rw [classOf] at h
  obtain ⟨doc, -, h⟩ := Option.bind_eq_some_iff.mp h
  obtain ⟨numbers, hnumbers, h⟩ := Option.bind_eq_some_iff.mp h
  obtain rfl := Option.some.inj h
  refine ⟨hname, by simp, trivial, ?_, trivial⟩
  -- Two parameters are there for messages, and for classes that can be extended, only.
  have hcheck (q : Prop) [Decidable q] : ∀ param ∈ (if q then [rangeCheckParam] else []),
      IsLine param.name ∧ ∀ value, param.default = some value → value.OnLine := by
    split <;> simp +decide [rangeCheckParam]
  have hlength (q : Prop) [Decidable q] : ∀ param ∈
      (if q then [{ name := "block_length", default := some (.int p.blockLength) : Param }] else []),
      IsLine param.name ∧ ∀ value, param.default = some value → value.OnLine := by
    split <;> simp +decide
  have hzero : Stmt.AllOnLine (b.zero ++ [.run (.call (.own "init") [])]) :=
    Stmt.allOnLine_append.mpr ⟨hb.zero, by simp +decide⟩
  simp only [List.forall_mem_append, List.forall_mem_cons, List.not_mem_nil, false_imp_iff, implies_true,
    and_true]
  refine ⟨⟨⟨⟨?init, onLine_objectMethods⟩, ?encode, ?decode, ?check, ?constants, ?length⟩,
    onLine_numberMethods hnumbers⟩, hb.accessors⟩
  case init => exact ⟨trivial, (by decide : IsLine "__init__"), by simp +decide, hzero⟩
  case encode =>
    refine ⟨trivial, (by decide : IsLine "encode"), ?_, hb.encode⟩
    exact List.forall_mem_append.mpr ⟨by simp +decide, hcheck _⟩
  case decode =>
    refine ⟨trivial, (by decide : IsLine "decode"), ?_, hb.decode⟩
    exact List.forall_mem_append.mpr ⟨List.forall_mem_append.mpr ⟨by simp +decide, hlength _⟩, hcheck _⟩
  case check => exact ⟨trivial, (by decide : IsLine "range_check"), by simp +decide, hb.rangeCheck⟩
  case constants => exact ⟨trivial, (by decide : IsLine "init"), by simp +decide, hb.init⟩
  case length => exact Method.onLine_static (by decide) (by simp) trivial

/-- **The classes of a walked plan are made of lines**, their sentences left aside. -/
theorem onLine_classes {cs : List ClassDef} (hwalked : p.Walked) (hname : IsLine p.typeName)
    (h : (p.classes e).outcome = .ok cs) : ∀ c ∈ cs, c.OnLine := by
  intro c hc
  obtain ⟨q, hq, bodies, hemitted⟩ := exists_of_forall₂_right (emitted_classes (yields_self h)) hc
  have hnames := hwalked.isLine_typeName hname
  refine onLine_classOf hemitted.classOf (hnames q hq) (Bodies.OnLine.join fun b hb => ?_)
  obtain ⟨s, hs, hb⟩ := exists_of_forall₂_right hemitted.steps hb
  exact s.onLine_bodies hb (hnames q hq) fun r hr => hnames r (inner_mem_plans hq s hs r hr)

end Plan

/-- The name of a class that is defined comes from the name of its type. -/
theorem Codec.eq_typeName_of_definedName {t : Token} {name : String} (h : definedName t = .ok name) :
    ∃ text, t.typeName = .text text ∧ name = Identifier.typeName text := by
  unfold definedName at h
  split at h
  · rename_i text htext
    exact ⟨text, htext, (Except.ok.inj h).symm⟩
  · cases h

theorem Codec.isLine_of_definedName {t : Token} {name : String} (h : definedName t = .ok name) :
    IsLine name := by
  obtain ⟨text, -, rfl⟩ := eq_typeName_of_definedName h
  exact Identifier.isLine_typeName text

@[simp] theorem Codec.onLine_packedOf (type : Primitive) (t : Token) : Expr.AllOnLine (packedOf type t) := by
  simp [packedOf]

namespace Enumeration

/-- The class of an enumeration has the name that its first token defines, and is noted as defined. -/
theorem defined_of_ofTokens {tokens : List Token} {e : Enumeration} (h : (ofTokens tokens).outcome = .ok e) :
    ∃ first ∈ tokens.head?, Codec.definedName first = .ok e.name ∧
      .defined e.name ∈ (ofTokens tokens).notes := by
  have hdefined := isDefinedBy_of_yields (yields_self h)
  exact ⟨e.token, hdefined.first, hdefined.name, hdefined.defined⟩

/-- A value comes from its token, and is called like the constant of the name of the token. -/
theorem of_enumerator {type : Primitive} {t : Token} {v : Enumerator} (h : enumerator type t = .ok v) :
    v.token = t ∧ v.name = Identifier.constantName t.name := by
  rw [enumerator] at h
  obtain ⟨_, -, h⟩ := except_bind_ok h
  obtain ⟨_, -, h⟩ := except_bind_ok h
  obtain rfl := Except.ok.inj h
  exact ⟨rfl, rfl⟩

/-- The names of the values of an enumeration are those of constants. -/
theorem names_of_ofTokens {tokens : List Token} {e : Enumeration} (h : (ofTokens tokens).outcome = .ok e) :
    ∀ v ∈ e.values, ∃ text, v.name = Identifier.constantName text := by
  intro v hv
  obtain ⟨t, -, ht⟩ := exists_of_mem_mapM (isDefinedBy_of_yields (yields_self h)).values hv
  exact ⟨t.name, (of_enumerator ht).2⟩

/-- The class of an enumeration is made of lines. -/
theorem onLine_toClass {tokens : List Token} {e : Enumeration} (h : (ofTokens tokens).outcome = .ok e) :
    e.toClass.OnLine := by
  obtain ⟨first, -, hdefined, -⟩ := defined_of_ofTokens h
  have hvalues := names_of_ofTokens h
  have hline := Codec.isLine_of_definedName hdefined
  have hvalue : ∀ v ∈ e.values, IsLine v.name := by
    intro v hv
    obtain ⟨name, hv⟩ := hvalues v hv
    exact hv ▸ Identifier.isLine_constantName name
  have hnames : e.names.OnLine := ⟨hline, (by decide : IsLine "_NAMES")⟩
  have hself : selfNumber.OnLine := by simp +decide [selfNumber]
  have hmember {member : String} (hmember : IsLine member) (value : Number) :
      (e.setMember member value).OnLine := by
    simp [setMember, hline, hmember]
  -- What is left are the methods, and the trailer that sets the members.
  refine ⟨hline, by simp +decide [toClass], by simp +decide [toClass], ?_, ?_⟩
  · simp only [toClass, List.forall_mem_append, List.forall_mem_cons, List.not_mem_nil, false_imp_iff,
      implies_true, and_true]
    refine ⟨⟨⟨trivial, (by decide : IsLine "__repr__"), by simp +decide [showMethod], ?_⟩,
      ⟨trivial, (by decide : IsLine "encode"), by simp +decide [encodeMethod], by simp [encodeMethod]⟩,
      ⟨?_, (by decide : IsLine "decode"), by simp +decide [decodeMethod], by simp +decide [decodeMethod]⟩,
      ⟨trivial, (by decide : IsLine "range_check"), by simp +decide [rangeCheckMethod], ?_⟩,
      Method.onLine_static (by decide) (by simp) trivial⟩, ?_⟩
    · simp +decide [showMethod, hnames, hself, hline]
    · simp +decide [decodeMethod]
    · simp +decide [rangeCheckMethod, hnames, hself, hline]
    · intro m hm
      obtain ⟨v, -, hm⟩ := List.mem_flatMap.mp hm
      exact Codec.onLine_versionAccessors (Identifier.isLine_propertyName _) _ m hm
  · refine Stmt.allOnLine_append.mpr ⟨?_, hmember (by decide) _, ⟨hnames, ?_⟩, trivial⟩
    · refine Stmt.allOnLine_iff.mpr fun stmt hstmt => ?_
      obtain ⟨v, hv, rfl⟩ := List.mem_map.mp hstmt
      exact hmember (hvalue v hv) v.value
    · refine Expr.entriesOnLine_iff.mpr fun entry hentry => ?_
      obtain ⟨v, hv, rfl⟩ := List.mem_map.mp hentry
      exact ⟨trivial, hvalue v hv⟩

end Enumeration

namespace ChoiceSet

/-- The class of a choice set has the name that its first token defines, and is noted as defined. -/
theorem defined_of_ofTokens {tokens : List Token} {s : ChoiceSet} (h : (ofTokens tokens).outcome = .ok s) :
    ∃ first ∈ tokens.head?, Codec.definedName first = .ok s.name ∧
      .defined s.name ∈ (ofTokens tokens).notes := by
  have hdefined := isDefinedBy_of_yields (yields_self h)
  exact ⟨s.token, hdefined.first, hdefined.name, hdefined.defined⟩

/-- The names of the choices of a set are those of attributes and constants. -/
theorem names_of_ofTokens {tokens : List Token} {s : ChoiceSet} (h : (ofTokens tokens).outcome = .ok s) :
    ∀ c ∈ s.choices, ∃ text,
      c.property = Identifier.propertyName text ∧ c.constant = Identifier.constantName text := by
  intro c hc
  obtain ⟨t, ht⟩ := (isDefinedBy_of_yields (yields_self h)).choices c hc
  obtain ⟨_, -, ht⟩ := except_bind_ok ht
  split at ht
  · obtain rfl := Except.ok.inj ht
    exact ⟨t.name, rfl, rfl⟩
  · cases ht

theorem onLine_choiceMethods {c : Choice} (h : IsLine c.property) : ∀ m ∈ choiceMethods c, m.OnLine := by
  refine List.forall_mem_append.mpr ⟨List.forall_mem_cons.mpr ⟨⟨?_, h, ?_, ?_⟩,
    List.forall_mem_singleton.mpr ⟨?_, h, ?_, ?_⟩⟩, Codec.onLine_versionAccessors h c.token⟩
  all_goals simp +decide [bits, h]

/-- The class of a choice set is made of lines. -/
theorem onLine_toClass {tokens : List Token} {s : ChoiceSet} (h : (ofTokens tokens).outcome = .ok s) :
    s.toClass.OnLine := by
  obtain ⟨first, -, hdefined, -⟩ := defined_of_ofTokens h
  have hchoices := names_of_ofTokens h
  have hline := Codec.isLine_of_definedName hdefined
  have hproperty : ∀ c ∈ s.choices, IsLine c.property ∧ IsLine c.constant := by
    intro c hc
    obtain ⟨name, hproperty, hconstant⟩ := hchoices c hc
    rw [hproperty, hconstant]
    exact ⟨Identifier.isLine_propertyName name, Identifier.isLine_constantName name⟩
  refine ⟨hline, by simp [toClass], ?_, ?_, trivial⟩
  · refine Stmt.allOnLine_append.mpr ⟨Stmt.allOnLine_iff.mpr fun stmt hstmt => ?_,
      ⟨(by decide : IsLine "_CHOICES"), Expr.allOnLine_iff.mpr fun item hitem => ?_⟩, trivial⟩
    · obtain ⟨c, hc, rfl⟩ := List.mem_map.mp hstmt
      exact ⟨(hproperty c hc).2, trivial⟩
    · obtain ⟨c, hc, rfl⟩ := List.mem_map.mp hitem
      exact ⟨(hproperty c hc).1, trivial, trivial⟩
  · simp only [toClass, List.forall_mem_append, List.forall_mem_cons, List.not_mem_nil, false_imp_iff,
      implies_true, and_true]
    refine ⟨⟨⟨trivial, (by decide : IsLine "__init__"), by simp +decide [initMethod], ?_⟩,
      ⟨trivial, (by decide : IsLine "__eq__"), by simp +decide [equalMethod], ?_⟩,
      ⟨trivial, (by decide : IsLine "__repr__"), by simp +decide [showMethod], ?_⟩,
      ⟨trivial, (by decide : IsLine "encode"), by simp +decide [encodeMethod], ?_⟩,
      ⟨trivial, (by decide : IsLine "decode"), by simp +decide [decodeMethod], ?_⟩,
      Method.onLine_static (by decide) (by simp) trivial⟩, ?_⟩
    · simp +decide [initMethod, bits]
    · simp +decide [equalMethod, bits]
    · simp +decide [showMethod, bits, hline]
    · simp +decide [encodeMethod, bits, wireValue]
    · simp +decide [decodeMethod, bits, wireValue]
    · intro m hm
      obtain ⟨c, hc, hm⟩ := List.mem_flatMap.mp hm
      exact onLine_choiceMethods (hproperty c hc).1 m hm

end ChoiceSet

/-! ## Printed classes -/

/-- Whether a line does not begin with a small letter. -/
def Code.BeginsApart (line : String) : Prop :=
  ∀ first ∈ line.toList.head?, first.isLower = false

/-- Whether the lines of a class are lines of the printed text, of which only the first begins with a small
letter. -/
structure Code.ClassDef.Printed (c : ClassDef) : Prop where
  head : IsLine c.headLine
  doc : CodePoint.char '\n' ∉ c.doc
  body : ∀ line ∈ c.bodyLines, IsLine line ∧ BeginsApart line

theorem Code.IsInside.beginsApart {line : String} (h : IsInside line) : BeginsApart line := by
  intro first hfirst
  rcases h with rfl | h
  · cases hfirst
  · rw [h] at hfirst
    rw [← Option.some.inj hfirst]
    rfl

/-- A class of lines is printed as such, if what follows it keeps apart. -/
theorem Code.ClassDef.OnLine.printed {c : ClassDef} (h : c.OnLine) (hdoc : CodePoint.char '\n' ∉ c.doc)
    (htrailer : ∀ line ∈ Stmt.blockLines 0 c.trailer, BeginsApart line) : c.Printed where
  head := isLine_headLine h
  doc := hdoc
  body line hline := by
    refine ⟨isLine_of_mem_bodyLines h line hline, ?_⟩
    rcases isInside_of_mem_bodyLines line hline with hinside | hline
    · exact hinside.beginsApart
    · exact htrailer line hline

/-- **The classes of a walked plan are printed on lines**, if the names of its messages and groups are
lines. -/
theorem Plan.printed_classes {e : Edition} {p : Plan} {cs : List ClassDef} (hwalked : p.Walked)
    (hname : IsLine p.typeName)
    (hshown : ∀ q ∈ p.plans, q.kind ≠ .composite → ∀ t ∈ q.token, CodePoint.char '\n' ∉ t.name)
    (h : (p.classes e).outcome = .ok cs) : ∀ c ∈ cs, c.Printed := by
  intro c hc
  have hline := onLine_classes hwalked hname h c hc
  obtain ⟨q, hq, bodies, hemitted⟩ := exists_of_forall₂_right (emitted_classes (yields_self h)) hc
  have hclass := hemitted.classOf
  rw [classOf] at hclass
  obtain ⟨doc, hdoc, hclass⟩ := Option.bind_eq_some_iff.mp hclass
  obtain ⟨numbers, -, hclass⟩ := Option.bind_eq_some_iff.mp hclass
  obtain rfl := Option.some.inj hclass
  refine hline.printed ?_ (by simp [Stmt.blockLines])
  exact not_mem_sentence hdoc (hwalked.isLine_typeName hname q hq) (hshown q hq)

/-- The line of a class that sets an attribute begins with the name of the class. -/
theorem Identifier.beginsApart_typeName (name : Text) (rest : String) :
    BeginsApart (typeName name ++ ("." ++ rest)) := by
  intro first hfirst
  rw [typeName, String.toList_append, String.toList_append, String.toList_ofList] at hfirst
  cases hname : sanitize name with
  | nil =>
    rw [hname] at hfirst
    obtain rfl := Option.some.inj hfirst
    rfl
  | cons c others =>
    rw [hname] at hfirst
    obtain rfl := Option.some.inj hfirst
    exact Char.isLower_toUpper_eq_false c

theorem Enumeration.isLine_doc {e : Enumeration} (h : ∀ v ∈ e.values, IsLine v.name) : IsLine e.doc := by
  have htype : IsLine e.type.name := by cases e.type <;> decide
  have hnames : IsLine (", ".intercalate (e.values.map Enumerator.name)) := by
    refine isLine_intercalate (by decide) fun name hname => ?_
    obtain ⟨v, hv, rfl⟩ := List.mem_map.mp hname
    exact h v hv
  unfold doc
  dsimp only
  rw [isLine_append, isLine_append]
  refine ⟨⟨?_, ?_⟩, by decide⟩
  · simp +decide [htype]
  · split
    · decide
    · exact hnames

/-- What follows the class of an enumeration sets attributes of the class. -/
theorem Enumeration.beginsApart_trailer {e : Enumeration} {text : Text}
    (h : e.name = Identifier.typeName text) :
    ∀ line ∈ Stmt.blockLines 0 e.toClass.trailer, BeginsApart line := by
  have hset (member : String) (value : Expr) :
      ∀ line ∈ (Stmt.assign (.member (.name e.name) member) value).lines 0, BeginsApart line := by
    rw [Stmt.lines]
    refine List.forall_mem_singleton.mpr ?_
    have hindent : indent 0 = "" := rfl
    rw [hindent, String.empty_append, Expr.text, Expr.text, h]
    simp only [String.append_assoc]
    exact Identifier.beginsApart_typeName text _
  -- The attribute may be a constant, the null value or the dictionary of the names.
  have hall : ∀ s ∈ e.toClass.trailer, ∀ line ∈ s.lines 0, BeginsApart line := by
    refine List.forall_mem_append.mpr ⟨?_, List.forall_mem_cons.mpr ⟨hset _ _,
      List.forall_mem_singleton.mpr (hset _ _)⟩⟩
    intro s hs
    obtain ⟨v, -, rfl⟩ := List.mem_map.mp hs
    exact hset v.name _
  intro line hline
  obtain ⟨s, hs, hline⟩ := Stmt.exists_of_mem_blockLines hline
  exact hall s hs line hline

/-- The class of an enumeration is printed on lines. -/
theorem Enumeration.printed_toClass {tokens : List Token} {e : Enumeration}
    (h : (ofTokens tokens).outcome = .ok e) : e.toClass.Printed := by
  obtain ⟨first, -, hdefined, -⟩ := defined_of_ofTokens h
  obtain ⟨text, -, hname⟩ := Codec.eq_typeName_of_definedName hdefined
  have hvalues := names_of_ofTokens h
  refine (onLine_toClass h).printed (Text.not_mem_ofString.mpr (isLine_doc fun v hv => ?_))
    (beginsApart_trailer hname)
  obtain ⟨name, hv⟩ := hvalues v hv
  exact hv ▸ Identifier.isLine_constantName name

/-- The class of a choice set is printed on lines. -/
theorem ChoiceSet.printed_toClass {tokens : List Token} {s : ChoiceSet}
    (h : (ofTokens tokens).outcome = .ok s) : s.toClass.Printed := by
  refine (onLine_toClass h).printed ?_ (by simp [toClass, Stmt.blockLines])
  refine Text.not_mem_ofString.mpr ?_
  simp +decide

end SimpleBinary

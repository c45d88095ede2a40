import SimpleBinary.Codec.ChoiceSet
import SimpleBinary.Codec.Entity
import SimpleBinary.Codec.Enumeration
import SimpleBinary.Proofs.Results
import Mathlib

/-!
What emissions yield.

An emission that succeeds has a result, and notes on the way to it. `Yields` says both at once: the
result, and a list that holds all the notes. It takes an emission apart at every bind, so each function
that renders a step has one lemma here that says what is rendered and what is noted for it, and nothing
else needs to look into these functions.
-/

set_option autoImplicit false

namespace SimpleBinary

/-! ## Lists side by side -/

theorem exists_of_forall₂_left {α β : Type} {R : α → β → Prop} {as : List α} {bs : List β}
    (h : List.Forall₂ R as bs) {a : α} (ha : a ∈ as) : ∃ b ∈ bs, R a b := by
  induction h with
  | nil => cases ha
  | @cons _ b _ _ hab _ ih =>
    rcases List.mem_cons.mp ha with rfl | ha
    · exact ⟨b, List.mem_cons_self .., hab⟩
    · obtain ⟨b, hb, hab⟩ := ih ha
      exact ⟨b, List.mem_cons_of_mem _ hb, hab⟩

theorem exists_of_forall₂_right {α β : Type} {R : α → β → Prop} {as : List α} {bs : List β}
    (h : List.Forall₂ R as bs) {b : β} (hb : b ∈ bs) : ∃ a ∈ as, R a b :=
  exists_of_forall₂_left (List.Forall₂.flip h) hb

/-! ## Results with notes -/

namespace Emission

/-- Without the notes, emissions follow each other like results. -/
theorem outcome_bind {α β : Type} (x : Emission α) (f : α → Emission β) :
    (x >>= f).outcome = x.outcome >>= fun a => (f a).outcome := by
  cases h : x.outcome with
  | ok a =>
    rw [bind_of_ok f h]
    rfl
  | error fault =>
    rw [bind_of_error f h]
    rfl

/-- Whether an emission succeeds with a result, and all its notes are among the given ones. -/
def Yields {α : Type} (x : Emission α) (notes : List Note) (a : α) : Prop :=
  x.outcome = .ok a ∧ x.notes ⊆ notes

section

variable {α β : Type} {notes : List Note}

theorem yields_self {x : Emission α} {a : α} (h : x.outcome = .ok a) : x.Yields x.notes a :=
  ⟨h, fun _ => id⟩

theorem yields_bind {x : Emission α} {f : α → Emission β} {b : β} :
    (x >>= f).Yields notes b ↔ ∃ a, x.Yields notes a ∧ (f a).Yields notes b := by
  cases h : x.outcome with
  | ok a => simp [Yields, bind_of_ok f h, h, and_assoc, and_left_comm]
  | error fault => simp [Yields, bind_of_error f h, h]

theorem yields_pure {a b : α} : (pure a : Emission α).Yields notes b ↔ a = b := by
  simp [Yields]

theorem yields_note {n : Note} {u : Unit} : (note n).Yields notes u ↔ n ∈ notes := by
  simp [Yields, note]

theorem yields_fail {fault : Fault} {a : α} : (fail fault : Emission α).Yields notes a ↔ False := by
  simp [Yields, fail]

theorem yields_demand {areWritable : Bool} {u : Unit} :
    (demand areWritable).Yields notes u ↔ areWritable = true := by
  cases areWritable <;> simp [demand, Yields, fail]

theorem yields_ofExcept {outcome : Except Fault α} {a : α} :
    (ofExcept outcome).Yields notes a ↔ outcome = .ok a := by
  simp [Yields, ofExcept]

theorem yields_ofOption {part : String} {o : Option α} {a : α} :
    (ofOption part o).Yields notes a ↔ o = some a := by
  cases o with
  | some b => simp [ofOption, yields_pure]
  | none => simp [ofOption, yields_fail]

theorem yields_noteModules {names : List String} {u : Unit} :
    (noteModules names).Yields notes u ↔ ∀ name ∈ names, .module name ∈ notes := by
  simp [Yields, noteModules, List.subset_def]

theorem resolve_of_bounds {type : Primitive} {e : Encoding} {b : Bounds}
    (h : (bounds type e).Yields notes b) : Bounds.resolve type e = .ok b := by
  rw [bounds] at h
  obtain ⟨b', hb, h⟩ := yields_bind.mp h
  have hresult : b' = b := by
    dsimp only at h
    split at h
    · obtain ⟨_, _, h⟩ := yields_bind.mp h
      exact yields_pure.mp h
    · exact yields_pure.mp h
  rw [← hresult]
  exact yields_ofExcept.mp hb

/-- An emission that is made under a condition. -/
theorem yields_when {c : Prop} [Decidable c] {x : Emission Unit} {f : Unit → Emission α} {a : α} :
    (if c then x >>= f else f ()).Yields notes a ↔
      (c → x.Yields notes ()) ∧ (f ()).Yields notes a := by
  split
  · rename_i hc
    rw [yields_bind]
    exact ⟨fun ⟨_, hx, h⟩ => ⟨fun _ => hx, h⟩, fun ⟨hx, h⟩ => ⟨(), hx hc, h⟩⟩
  · rename_i hc
    simp [hc]

/-- One of two emissions, whichever a condition says. -/
theorem yields_ite_bind {c : Prop} [Decidable c] {x y : Emission α} {f : α → Emission β} {b : β} :
    (if c then x >>= f else y >>= f).Yields notes b ↔
      ∃ a, (if c then x else y).Yields notes a ∧ (f a).Yields notes b := by
  split <;> exact yields_bind

/-- The emissions of a list yield their results one by one. -/
theorem yields_mapM {f : α → Emission β} {as : List α} {bs : List β} :
    (as.mapM f).Yields notes bs ↔ List.Forall₂ (fun a b => (f a).Yields notes b) as bs := by
  induction as generalizing bs with
  | nil =>
    rw [List.mapM_nil, yields_pure, List.forall₂_nil_left_iff]
    exact eq_comm
  | cons a as ih =>
    rw [List.mapM_cons, yields_bind, List.forall₂_cons_left_iff]
    constructor
    · rintro ⟨b, hb, h⟩
      obtain ⟨rest, hrest, h⟩ := yields_bind.mp h
      exact ⟨b, rest, hb, ih.mp hrest, (yields_pure.mp h).symm⟩
    · rintro ⟨b, rest, hb, hrest, rfl⟩
      exact ⟨b, hb, yields_bind.mpr ⟨rest, ih.mpr hrest, yields_pure.mpr rfl⟩⟩

end

end Emission

open Code Emission

namespace Codec

variable {notes : List Note} {owner property : String} {b : Bodies}

theorem yields_countOf {encoding : Token} {fault : Fault} {n : Int} :
    (countOf encoding fault).Yields notes n ↔ encoding.arrayLength = some n := by
  rw [countOf]
  cases encoding.arrayLength with
  | some count => simp [yields_pure]
  | none => simp [yields_fail]

/-- The statements that check a character encoding: none, or a call of a helper that is noted. -/
theorem yields_validatorStmts {characterEncoding : Datum} {stmts : List Stmt}
    (h : (validatorStmts owner property characterEncoding).Yields notes stmts) :
    stmts = [] ∨ ∃ validator : Helper, .helper validator ∈ notes ∧
      stmts = [.run (.apply validator.name [.label s!"{owner}.{property}", .own property])] := by
  rw [validatorStmts] at h
  obtain ⟨found, -, h⟩ := yields_bind.mp h
  cases found with
  | none => exact .inl (yields_pure.mp h).symm
  | some validator =>
    obtain ⟨_, hnote, h⟩ := yields_bind.mp h
    exact .inr ⟨validator, yields_note.mp hnote, (yields_pure.mp h).symm⟩

/-- The accessors that a text of characters has on top of the others. -/
theorem yields_textAccessors {type : Primitive} {encoding : Token} {methods : List Method}
    (h : (textAccessors type property encoding).Yields notes methods) :
    methods = [] ∨ methods = [characterEncodingAccessor property encoding.encoding] := by
  rw [textAccessors] at h
  split at h
  · obtain ⟨count, -, h⟩ := yields_bind.mp h
    split at h
    · obtain ⟨_, -, h⟩ := yields_bind.mp h
      exact .inr (yields_pure.mp h).symm
    · exact .inl (yields_pure.mp h).symm
  · exact .inl (yields_pure.mp h).symm

/-- The bodies of a field whose values are on the wire. -/
structure ValueBodies (notes : List Note) (owner property : String) (type : Primitive) (count : Int)
    (b : Bodies) : Prop where
  zero : b.zero = [.assign (.own property) ((Extent.of type count).zero type)]
  encode : b.encode = [writePacked ((Extent.of type count).format type)
    [(Extent.of type count).packedValue (.own property)]]
  decode : b.decode = [whenPresent property
    [(Extent.of type count).read type (.own property) (type.size * count)]
    [.assign (.own property)
      ((Extent.of type count).absent (.call (.own (property ++ "_null_value")) []))]]
  rangeCheck : ∃ validation, b.rangeCheck = [.branch (isPresent property)
      (rangeCheckStmts type owner property (Extent.of type count) ++ validation) []] ∧
    (validation = [] ∨ ∃ validator : Helper, .helper validator ∈ notes ∧
      validation = [.run (.apply validator.name [.label s!"{owner}.{property}", .own property])])
  init : b.init = []
  accessors : b.accessors = []
  struct : .module "struct" ∈ notes
  readExact : .helper .readExact ∈ notes
  rangeCheckError : .helper .rangeCheckError ∈ notes
  math : type.isReal = true → .module "math" ∈ notes

theorem yields_valueBodies {type : Primitive} {encoding : Token}
    (h : (valueBodies owner property type encoding).Yields notes b) :
    ∃ count, encoding.arrayLength = some count ∧ ValueBodies notes owner property type count b := by
  rw [valueBodies] at h
  obtain ⟨_, hstruct, h⟩ := yields_bind.mp h
  obtain ⟨_, hread, h⟩ := yields_bind.mp h
  obtain ⟨_, herror, h⟩ := yields_bind.mp h
  obtain ⟨count, hcount, h⟩ := yields_bind.mp h
  obtain ⟨_, -, h⟩ := yields_bind.mp h
  obtain ⟨hmath, h⟩ := yields_when.mp h
  obtain ⟨validation, hvalidation, h⟩ := yields_ite_bind.mp h
  obtain rfl := yields_pure.mp h
  refine ⟨count, yields_countOf.mp hcount, rfl, rfl, rfl, ⟨validation, rfl, ?_⟩, rfl, rfl,
    yields_note.mp hstruct, yields_note.mp hread, yields_note.mp herror,
    fun hreal => yields_note.mp (hmath hreal)⟩
  split at hvalidation
  · exact yields_validatorStmts hvalidation
  · exact .inl (yields_pure.mp hvalidation).symm

/-- The bodies of a constant that is set to a value. -/
def settingBodies (property : String) (value : Expr) : Bodies where
  decode := [.assign (.own property) value]
  init := [.assign (.own property) value]

/-- The value of a constant is a bytes literal or a number. -/
theorem constantValue_ok {type : Primitive} {text : Text} {value : Expr}
    (h : constantValue type text = .ok value) :
    (∃ data, value = .bytes data) ∨ ∃ number, value = .number number := by
  rw [constantValue] at h
  split at h
  · cases hencode : text.encode with
    | error fault =>
      rw [hencode] at h
      cases h
    | ok data =>
      rw [hencode] at h
      exact .inl ⟨data, (Except.ok.inj h).symm⟩
  · obtain ⟨number, -, h⟩ := except_bind_ok h
    obtain ⟨checked, -, h⟩ := except_bind_ok h
    exact .inr ⟨checked, (Except.ok.inj h).symm⟩

theorem yields_constantBodies {type : Primitive} {field encoding : Token}
    (h : (constantBodies property type field encoding).Yields notes b) :
    ∃ value, constantValue type (constantText field encoding) = .ok value ∧
      (∀ name ∈ literalModules value.text, .module name ∈ notes) ∧ b = settingBodies property value := by
  rw [constantBodies] at h
  obtain ⟨value, hvalue, h⟩ := yields_bind.mp h
  obtain ⟨_, hmodules, h⟩ := yields_bind.mp h
  exact ⟨value, yields_ofExcept.mp hvalue, yields_noteModules.mp hmodules, (yields_pure.mp h).symm⟩

/-- The bodies of a field of a primitive type: those of its values or of a constant, with accessors. -/
theorem yields_primitiveBodies {field encoding : Token}
    (h : (primitiveBodies owner field encoding).Yields notes b) :
    ∃ type bounds texts inner, encoding.primitive = some type ∧
      Bounds.resolve type encoding.encoding = .ok bounds ∧
      (∀ name ∈ bounds.modules, .module name ∈ notes) ∧
      (texts = [] ∨ texts =
        [characterEncodingAccessor (Identifier.propertyName field.name) encoding.encoding]) ∧
      b = { inner with
        accessors := fieldAccessors (Identifier.propertyName field.name) field ++
          boundAccessors (Identifier.propertyName field.name) bounds ++ texts } ∧
      (if encoding.isConstant || field.isConstant then
        constantBodies (Identifier.propertyName field.name) type field encoding
      else
        valueBodies owner (Identifier.propertyName field.name) type encoding).Yields notes inner := by
  rw [primitiveBodies] at h
  obtain ⟨_, -, h⟩ := yields_bind.mp h
  obtain ⟨type, htype, h⟩ := yields_bind.mp h
  obtain ⟨bounds, hbounds, h⟩ := yields_bind.mp h
  obtain ⟨_, hmodules, h⟩ := yields_bind.mp h
  obtain ⟨texts, htexts, h⟩ := yields_bind.mp h
  obtain ⟨inner, hinner, h⟩ := yields_ite_bind.mp h
  exact ⟨type, bounds, texts, inner, yields_ofOption.mp htype, resolve_of_bounds hbounds,
    yields_noteModules.mp hmodules, yields_textAccessors htexts, (yields_pure.mp h).symm, hinner⟩

/-- A constant of an enumeration is a member of its class, or made from a number. -/
theorem enumerationConstant_ok {type : String} {field : Token} {value : Expr}
    (h : enumerationConstant type field = .ok value) :
    (∃ name, value = enumerationMember type name) ∨ ∃ n, value = .apply type [.count n] := by
  rw [enumerationConstant] at h
  split at h
  · exact .inl ⟨_, (Except.ok.inj h).symm⟩
  · split at h
    · exact .inr ⟨0, (Except.ok.inj h).symm⟩
    · split at h
      · obtain ⟨n, -, h⟩ := except_bind_ok h
        exact .inr ⟨n, (Except.ok.inj h).symm⟩
      · exact .inl ⟨_, (Except.ok.inj h).symm⟩

/-- The class of a field: that of a nested plan, or one that is noted. -/
theorem yields_typeOf {typeName : Datum} {nested : Option String} {type : String}
    (h : (typeOf typeName nested).Yields notes type) :
    nested = some type ∨
      nested = none ∧ .type type ∈ notes ∧ ∃ name, type = Identifier.typeName name := by
  rw [typeOf.eq_def] at h
  split at h
  · rw [yields_pure.mp h]
    exact .inl rfl
  · obtain ⟨_, hnote, h⟩ := yields_bind.mp h
    obtain rfl := yields_pure.mp h
    exact .inr ⟨rfl, yields_note.mp hnote, _, rfl⟩
  · exact (yields_fail.mp h).elim

theorem yields_typedBodies {construct : Construct} {typeName : Datum} {field : Token}
    {nested : Option String} (h : (typedBodies construct typeName field nested).Yields notes b) :
    ∃ type inner, (nested = some type ∨
        nested = none ∧ .type type ∈ notes ∧ ∃ name, type = Identifier.typeName name) ∧
      valueOfTypeBodies construct type (Identifier.propertyName field.name) field = .ok inner ∧
      b = { inner with accessors := fieldAccessors (Identifier.propertyName field.name) field } := by
  rw [typedBodies] at h
  obtain ⟨type, htype, h⟩ := yields_bind.mp h
  obtain ⟨_, -, h⟩ := yields_bind.mp h
  obtain ⟨inner, hinner, h⟩ := yields_bind.mp h
  exact ⟨type, inner, yields_typeOf htype, yields_ofExcept.mp hinner, (yields_pure.mp h).symm⟩

/-- The bodies of a group whose elements have a class. -/
structure GroupBodies (notes : List Note) (owner element : String) (token : Token)
    (blockLengthType numInGroupType : Primitive) (bounds : Bounds) (b : Bodies) : Prop where
  zero : b.zero = [.assign (.own (Identifier.propertyName token.name)) (.list [])]
  encode : b.encode = [
    writePacked [{ type := blockLengthType }, { type := numInGroupType }]
      [.int token.encodedLength, .length (.own (Identifier.propertyName token.name))],
    .loop ["element"] (.own (Identifier.propertyName token.name))
      [.run (.send (.name "element") "encode" [.name "writer", .name "order"])]]
  decode : b.decode = [whenPresent (Identifier.propertyName token.name)
    [.unpack [.name (Identifier.propertyName token.name ++ "_block_length"),
          .name (Identifier.propertyName token.name ++ "_num_in_group")]
        unpack (packedArguments [{ type := blockLengthType }, { type := numInGroupType }]
          (blockLengthType.size + numInGroupType.size)),
      .assign (.own (Identifier.propertyName token.name)) (.list [.each (.apply element []) ["_"]
        (.apply "range" [.name (Identifier.propertyName token.name ++ "_num_in_group")]) none]),
      .loop ["element"] (.own (Identifier.propertyName token.name))
        [.run (.send (.name "element") "decode" [.name "reader", .name "order",
          .name "acting_version", .name (Identifier.propertyName token.name ++ "_block_length")])]]
    [.assign (.own (Identifier.propertyName token.name)) (.list [])]]
  rangeCheck : b.rangeCheck = [lengthCheck owner (Identifier.propertyName token.name) bounds,
    .loop ["element"] (.own (Identifier.propertyName token.name)) [checkOwn (.name "element")]]
  init : b.init = []
  accessors : b.accessors = idAccessor (Identifier.propertyName token.name) token ::
    versionAccessors (Identifier.propertyName token.name) token
  struct : .module "struct" ∈ notes
  readExact : .helper .readExact ∈ notes
  rangeCheckError : .helper .rangeCheckError ∈ notes

theorem yields_groupBodies {token blockLength numInGroup : Token} {element : String}
    (h : (groupBodies owner token blockLength numInGroup element).Yields notes b) :
    ∃ blockLengthType numInGroupType bounds, blockLength.primitive = some blockLengthType ∧
      numInGroup.primitive = some numInGroupType ∧
      Bounds.resolve numInGroupType numInGroup.encoding = .ok bounds ∧
      GroupBodies notes owner element token blockLengthType numInGroupType bounds b := by
  rw [groupBodies] at h
  obtain ⟨blockLengthType, hblock, h⟩ := yields_bind.mp h
  obtain ⟨numInGroupType, hnum, h⟩ := yields_bind.mp h
  obtain ⟨_, hstruct, h⟩ := yields_bind.mp h
  obtain ⟨_, hread, h⟩ := yields_bind.mp h
  obtain ⟨_, -, h⟩ := yields_bind.mp h
  obtain ⟨bounds, hbounds, h⟩ := yields_bind.mp h
  obtain ⟨_, herror, h⟩ := yields_bind.mp h
  obtain rfl := yields_pure.mp h
  exact ⟨blockLengthType, numInGroupType, bounds, yields_ofOption.mp hblock, yields_ofOption.mp hnum,
    resolve_of_bounds hbounds, rfl, rfl, rfl, rfl, rfl, rfl, yields_note.mp hstruct,
    yields_note.mp hread, yields_note.mp herror⟩

/-- Data is bytes, or values of its type. -/
theorem dataStmts_cases (property : String) (type : Primitive) :
    dataStmts property type = bytesData property ∨ dataStmts property type = valuesData property type := by
  rw [dataStmts]
  split
  · exact .inl rfl
  · exact .inr rfl

/-- The bodies of variable data. -/
structure VarDataBodies (notes : List Note) (owner : String) (token data : Token)
    (lengthType dataType : Primitive) (bounds : Bounds) (b : Bodies) : Prop where
  zero : b.zero = [.assign (.own (Identifier.propertyName token.name))
    (dataStmts (Identifier.propertyName token.name) dataType).empty]
  encode : b.encode = [
    writePacked (.one lengthType) [.length (.own (Identifier.propertyName token.name))],
    (dataStmts (Identifier.propertyName token.name) dataType).write]
  decode : b.decode = [whenPresent (Identifier.propertyName token.name)
    [.unpack [.name (Identifier.propertyName token.name ++ "_length")] unpack
        (packedArguments (.one lengthType) lengthType.size),
      (dataStmts (Identifier.propertyName token.name) dataType).read]
    [.assign (.own (Identifier.propertyName token.name))
      (dataStmts (Identifier.propertyName token.name) dataType).empty]]
  rangeCheck : ∃ validation, b.rangeCheck = [.branch (isPresent (Identifier.propertyName token.name))
      (lengthCheck owner (Identifier.propertyName token.name) bounds :: validation) []] ∧
    (validation = [] ∨ ∃ validator : Helper, .helper validator ∈ notes ∧
      validation = [.run (.apply validator.name
        [.label s!"{owner}.{Identifier.propertyName token.name}",
          .own (Identifier.propertyName token.name)])])
  init : b.init = []
  accessors : b.accessors = idAccessor (Identifier.propertyName token.name) token ::
    (versionAccessors (Identifier.propertyName token.name) token ++
      [metaAccessor (Identifier.propertyName token.name) token.encoding,
        characterEncodingAccessor (Identifier.propertyName token.name) data.encoding,
        .static (Identifier.propertyName token.name ++ "_header_length") [] (.count lengthType.size)])
  struct : .module "struct" ∈ notes
  readExact : .helper .readExact ∈ notes
  rangeCheckError : .helper .rangeCheckError ∈ notes

theorem yields_varDataBodies {token length data : Token}
    (h : (varDataBodies owner token length data).Yields notes b) :
    ∃ lengthType dataType bounds, length.primitive = some lengthType ∧
      data.primitive = some dataType ∧ Bounds.resolve lengthType length.encoding = .ok bounds ∧
      VarDataBodies notes owner token data lengthType dataType bounds b := by
  rw [varDataBodies] at h
  obtain ⟨lengthType, hlength, h⟩ := yields_bind.mp h
  obtain ⟨_, hstruct, h⟩ := yields_bind.mp h
  obtain ⟨_, hread, h⟩ := yields_bind.mp h
  obtain ⟨_, -, h⟩ := yields_bind.mp h
  obtain ⟨dataType, hdata, h⟩ := yields_bind.mp h
  obtain ⟨bounds, hbounds, h⟩ := yields_bind.mp h
  obtain ⟨_, herror, h⟩ := yields_bind.mp h
  obtain ⟨validation, hvalidation, h⟩ := yields_ite_bind.mp h
  obtain rfl := yields_pure.mp h
  refine ⟨lengthType, dataType, bounds, yields_ofOption.mp hlength, yields_ofOption.mp hdata,
    resolve_of_bounds hbounds, rfl, rfl, rfl, ⟨validation, rfl, ?_⟩, rfl, rfl,
    yields_note.mp hstruct, yields_note.mp hread, yields_note.mp herror⟩
  split at hvalidation
  · exact yields_validatorStmts hvalidation
  · exact .inl (yields_pure.mp hvalidation).symm

/-- A gap only writes padding, and throws bytes away where the block does not end with it. -/
theorem yields_gapBodies {isExtensible : Bool} {size : Int} {since : Option Int} {trailing : Bool}
    (h : (gapBodies isExtensible size since trailing).Yields notes b) :
    .helper .writePadding ∈ notes ∧ (b = { encode := [pad size] } ∨
      .helper .discard ∈ notes ∧ b = { encode := [pad size], decode := [discardSince since size] }) := by
  rw [gapBodies] at h
  obtain ⟨_, hpadding, h⟩ := yields_bind.mp h
  obtain ⟨_, -, h⟩ := yields_bind.mp h
  refine ⟨yields_note.mp hpadding, ?_⟩
  dsimp only at h
  split at h
  · exact .inl (yields_pure.mp h).symm
  · obtain ⟨_, hdiscard, h⟩ := yields_bind.mp h
    obtain ⟨_, -, h⟩ := yields_bind.mp h
    exact .inr ⟨yields_note.mp hdiscard, (yields_pure.mp h).symm⟩

/-- The extension skip only throws bytes away. -/
theorem yields_skipBodies {known : List (Int × Int)} (h : (skipBodies known).Yields notes b) :
    .helper .discard ∈ notes ∧
      ((∃ length, b = { decode := [discardBeyond (.count length)] }) ∨
        ∃ first later, b = { decode := [.assign (.name "known_length") (knownLength first later),
          discardBeyond (.name "known_length")] }) := by
  rw [skipBodies.eq_def] at h
  obtain ⟨_, hdiscard, h⟩ := yields_bind.mp h
  obtain ⟨_, -, h⟩ := yields_bind.mp h
  refine ⟨yields_note.mp hdiscard, ?_⟩
  split at h
  · exact (yields_fail.mp h).elim
  · exact .inl ⟨_, (yields_pure.mp h).symm⟩
  · obtain ⟨_, -, h⟩ := yields_bind.mp h
    exact .inr ⟨_, _, (yields_pure.mp h).symm⟩

end Codec

/-! ## Enumerations and choice sets -/

theorem Codec.head?_of_opening {construct : Construct} {tokens : List Token} {token : Token}
    (h : opening construct tokens = .ok token) : tokens.head? = some token := by
  unfold opening at h
  split at h
  · cases h
  · split at h
    · rw [← Except.ok.inj h]
      rfl
    · cases h

theorem Number.eq_of_checked {n m : Number} (h : n.checked = .ok m) : m = n := by
  rw [Number.checked] at h
  split at h
  · exact (Except.ok.inj h).symm
  · cases h

namespace Enumeration

/-- What the tokens of an enumeration say about it. -/
structure Describes (tokens : List Token) (e : Enumeration) : Prop where
  first : tokens.head? = some e.token
  type : e.type = e.token.primitive.getD .uint8
  wire : Codec.integerType e.token = .ok e.wire
  null : nullOf e.type e.token.encoding = .ok e.null
  values : (tokens.filter (·.signal == .validValue)).mapM (enumerator e.type) = .ok e.values

/-- What the tokens of an enumeration say about it and its values, and what is noted for its class. -/
structure IsDefinedBy (tokens : List Token) (notes : List Note) (e : Enumeration) : Prop
    extends Describes tokens e where
  name : Codec.definedName e.token = .ok e.name
  versions : ∀ v ∈ e.values, Codec.versionsWritable v.token = true
  defined : .defined e.name ∈ notes
  struct : .module "struct" ∈ notes
  readExact : .helper .readExact ∈ notes
  rangeCheckError : .helper .rangeCheckError ∈ notes

theorem isDefinedBy_of_yields {tokens : List Token} {notes : List Note} {e : Enumeration}
    (h : (ofTokens tokens).Yields notes e) : e.IsDefinedBy tokens notes := by
  rw [ofTokens] at h
  obtain ⟨token, htoken, h⟩ := yields_bind.mp h
  obtain ⟨name, hname, h⟩ := yields_bind.mp h
  obtain ⟨wire, hwire, h⟩ := yields_bind.mp h
  obtain ⟨null, hnull, h⟩ := yields_bind.mp h
  obtain ⟨_, hdefined, h⟩ := yields_bind.mp h
  obtain ⟨_, hstruct, h⟩ := yields_bind.mp h
  obtain ⟨_, hread, h⟩ := yields_bind.mp h
  obtain ⟨_, herror, h⟩ := yields_bind.mp h
  obtain ⟨values, hvalues, h⟩ := yields_bind.mp h
  obtain ⟨null', hchecked, h⟩ := yields_bind.mp h
  obtain ⟨_, hdemand, h⟩ := yields_bind.mp h
  obtain rfl := yields_pure.mp h
  obtain rfl := Number.eq_of_checked (yields_ofExcept.mp hchecked)
  have hwritable := (Bool.and_eq_true_iff.mp (yields_demand.mp hdemand)).2
  exact {
    first := Codec.head?_of_opening (yields_ofExcept.mp htoken)
    type := rfl
    wire := yields_ofExcept.mp hwire
    null := yields_ofExcept.mp hnull
    values := yields_ofExcept.mp hvalues
    name := yields_ofExcept.mp hname
    versions := List.all_eq_true.mp hwritable
    defined := yields_note.mp hdefined
    struct := yields_note.mp hstruct
    readExact := yields_note.mp hread
    rangeCheckError := yields_note.mp herror }

end Enumeration

namespace ChoiceSet

/-- What the tokens of a set say about it. -/
structure Describes (tokens : List Token) (s : ChoiceSet) : Prop where
  first : tokens.head? = some s.token
  wire : Codec.integerType s.token = .ok s.wire
  width : s.token.encodedLength.map (· * 8) = some s.width
  choices : ∀ c ∈ s.choices, ∃ t, choice s.name s.width t = .ok c

/-- What the tokens of a set say about it, and what is noted for its class. -/
structure IsDefinedBy (tokens : List Token) (notes : List Note) (s : ChoiceSet) : Prop
    extends Describes tokens s where
  name : Codec.definedName s.token = .ok s.name
  defined : .defined s.name ∈ notes
  struct : .module "struct" ∈ notes
  readExact : .helper .readExact ∈ notes

theorem width_of_widthOf {t : Token} {width : Int} (h : widthOf t = .ok width) :
    t.encodedLength.map (· * 8) = some width := by
  rw [widthOf] at h
  split at h
  · rename_i length hlength
    rw [hlength, ← Except.ok.inj h]
    rfl
  · cases h

theorem isDefinedBy_of_yields {tokens : List Token} {notes : List Note} {s : ChoiceSet}
    (h : (ofTokens tokens).Yields notes s) : s.IsDefinedBy tokens notes := by
  rw [ofTokens] at h
  obtain ⟨token, htoken, h⟩ := yields_bind.mp h
  obtain ⟨name, hname, h⟩ := yields_bind.mp h
  obtain ⟨wire, hwire, h⟩ := yields_bind.mp h
  obtain ⟨width, hwidth, h⟩ := yields_bind.mp h
  obtain ⟨choices, hchoices, h⟩ := yields_bind.mp h
  obtain ⟨_, hdefined, h⟩ := yields_bind.mp h
  obtain ⟨_, hstruct, h⟩ := yields_bind.mp h
  obtain ⟨_, hread, h⟩ := yields_bind.mp h
  obtain ⟨_, -, h⟩ := yields_bind.mp h
  obtain rfl := yields_pure.mp h
  refine {
    first := Codec.head?_of_opening (yields_ofExcept.mp htoken)
    wire := yields_ofExcept.mp hwire
    width := width_of_widthOf (yields_ofExcept.mp hwidth)
    choices := fun c hc => ?_
    name := yields_ofExcept.mp hname
    defined := yields_note.mp hdefined
    struct := yields_note.mp hstruct
    readExact := yields_note.mp hread }
  obtain ⟨t, -, ht⟩ := exists_of_mem_mapM (yields_ofExcept.mp hchoices) hc
  exact ⟨t, ht⟩

end ChoiceSet

end SimpleBinary

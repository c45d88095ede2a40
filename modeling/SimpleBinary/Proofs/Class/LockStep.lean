import SimpleBinary.Proofs.Class.Attributes
import SimpleBinary.Proofs.Class.Methods
import SimpleBinary.Proofs.Results

/-!
The five methods in lock step.

`__init__`, `encode`, `decode`, `range_check` and `init` are written side by side, each from its own
statements, and a class is only right if they go through the same attributes in the same order. For one
step this is a case for each kind of field (`Step.lockStepWith`), and for a class the steps follow each
other.
-/

set_option autoImplicit false

namespace SimpleBinary

open Code Emission

/-! ## Bodies in lock step -/

/-- Whether bodies go through attributes in lock step: all of them are read, those on the wire are there
from the start and are written, those with a range are checked, and the constants are set as they are
where the others are read. -/
structure Bodies.LockStep (b : Bodies) (all wire ranged constants : List String) : Prop where
  decode : Stmt.Sets b.decode all
  zero : Stmt.Sets b.zero wire
  encode : Stmt.attributes Expr.isLength b.encode = wire
  rangeCheck : Stmt.checked b.rangeCheck = ranged
  init : Stmt.Sets b.init constants
  literals : b.init = b.decode.filter Stmt.isSetting
  reads : ∀ a ∈ Stmt.attributes Expr.never (b.encode ++ b.rangeCheck), a ∈ wire
  /-- The first values are set and nothing else is done. -/
  onlySets : b.zero.all Stmt.isSetting = true
  /-- The checks begin with no loop, which would belong to a limit before it. -/
  limited : ∀ targets source body rest, b.rangeCheck ≠ .loop targets source body :: rest

namespace Bodies.LockStep

theorem empty : ({} : Bodies).LockStep [] [] [] [] where
  decode := Stmt.sets_nil
  zero := Stmt.sets_nil
  encode := rfl
  rangeCheck := rfl
  init := Stmt.sets_nil
  literals := rfl
  reads := by simp [Stmt.attributes, Stmt.partsAll]
  onlySets := rfl
  limited := nofun

/-- Bodies in lock step that follow each other are in lock step. -/
theorem append {a b : Bodies} {all wire ranged constants all' wire' ranged' constants' : List String}
    (ha : a.LockStep all wire ranged constants) (hb : b.LockStep all' wire' ranged' constants') :
    (a ++ b).LockStep (all ++ all') (wire ++ wire') (ranged ++ ranged') (constants ++ constants') where
  decode := ha.decode.append hb.decode
  zero := ha.zero.append hb.zero
  encode := by
    rw [← ha.encode, ← hb.encode]
    exact Stmt.attributes_append ..
  rangeCheck := by
    rw [← ha.rangeCheck, ← hb.rangeCheck]
    exact Stmt.checked_append _ hb.limited
  init := ha.init.append hb.init
  literals := by
    show a.init ++ b.init = (a.decode ++ b.decode).filter Stmt.isSetting
    rw [List.filter_append, ha.literals, hb.literals]
  reads := by
    intro name hname
    have ha' := ha.reads name
    have hb' := hb.reads name
    change name ∈ Stmt.attributes Expr.never
      ((a.encode ++ b.encode) ++ (a.rangeCheck ++ b.rangeCheck)) at hname
    simp only [Stmt.attributes_append, List.mem_append] at ha' hb' hname ⊢
    tauto
  onlySets := by
    show (a.zero ++ b.zero).all Stmt.isSetting = true
    rw [List.all_append, ha.onlySets, hb.onlySets]
    rfl
  limited := by
    -- The checks begin with those of the first bodies, or else with those of the second.
    intro targets source body rest h
    change a.rangeCheck ++ b.rangeCheck = _ at h
    cases hcheck : a.rangeCheck with
    | nil =>
      rw [hcheck] at h
      exact hb.limited _ _ _ _ h
    | cons first others =>
      rw [hcheck, List.cons_append] at h
      obtain ⟨rfl, -⟩ := List.cons.inj h
      exact ha.limited _ _ _ _ hcheck

end Bodies.LockStep

/-! ## The bodies of each kind of step -/

namespace Codec

variable {notes : List Note} {owner property : String} {b : Bodies}

/-- A character encoding is checked for the attribute that it is given for, behind the other checks of the
attribute and only where the attribute is there. -/
theorem attributes_presentCheck {checks validation : List Stmt} {label : String} (n : Nat)
    (hchecks : Stmt.attributes Expr.never checks = List.replicate (n + 1) property)
    (hvalidation : validation = [] ∨ ∃ validator : Helper, .helper validator ∈ notes ∧
      validation = [.run (.apply validator.name [.label label, .own property])]) :
    ∃ m, Stmt.attributes Expr.never [.branch (isPresent property) (checks ++ validation) []] =
      List.replicate (m + 1) property := by
  -- The test reads a version and no attribute.
  have htest : ((isPresent property).parts Expr.never).filterMap Expr.own? = [] := rfl
  have hno : Stmt.attributes Expr.never [] = [] := rfl
  rw [Stmt.attributes_branch, Stmt.attributes_append, htest, hchecks, hno, List.nil_append, List.append_nil]
  rcases hvalidation with rfl | ⟨validator, -, rfl⟩
  · exact ⟨n, List.append_nil _⟩
  · exact ⟨n + 1, List.replicate_succ'.symm⟩

/-- All values of a field are checked. -/
theorem attributes_rangeCheckStmts (type : Primitive) (owner property : String) (extent : Extent) :
    ∃ n, Stmt.attributes Expr.never (rangeCheckStmts type owner property extent) =
      List.replicate (n + 1) property := by
  cases extent with
  | single =>
    -- A real is first asked whether it is a number at all.
    rw [rangeCheckStmts, outOfRange]
    cases type.isReal
    · exact ⟨2, rfl⟩
    · exact ⟨3, rfl⟩
  | _ =>
    rw [rangeCheckStmts, outOfRange]
    cases type.isReal <;> exact ⟨2, rfl⟩

/-- A field of a primitive type that is on the wire. -/
theorem ValueBodies.lockStep {type : Primitive} {count : Int}
    (h : ValueBodies notes owner property type count b) :
    b.LockStep [property] [property] [property] [] := by
  obtain ⟨validation, hcheck, hvalidation⟩ := h.rangeCheck
  have hencode : Stmt.attributes Expr.never b.encode = [property] := by
    rw [h.encode]
    cases Extent.of type count <;> rfl
  -- The checks read the attribute, some of them more than once, and no other one.
  have hchecked : ∃ n, Stmt.attributes Expr.never b.rangeCheck = List.replicate (n + 1) property := by
    obtain ⟨n, hn⟩ := attributes_rangeCheckStmts type owner property (Extent.of type count)
    rw [hcheck]
    exact attributes_presentCheck n hn hvalidation
  constructor
  case decode =>
    rw [h.decode]
    refine Stmt.sets_of_replicate 1 ?_
    cases Extent.of type count <;> rfl
  case zero =>
    rw [h.zero]
    exact Stmt.sets_of_replicate 0 rfl
  case encode =>
    rw [h.encode]
    cases Extent.of type count <;> rfl
  case rangeCheck =>
    obtain ⟨n, hn⟩ := hchecked
    rw [hcheck] at hn ⊢
    exact Stmt.checked_of_replicate n hn
  case init =>
    rw [h.init]
    exact Stmt.sets_nil
  case literals =>
    rw [h.init, h.decode]
    rfl
  case reads =>
    obtain ⟨n, hn⟩ := hchecked
    refine Stmt.mem_attributes_of_replicate (n + 2) ?_
    rw [Stmt.attributes_append, hencode, hn]
    rfl
  case onlySets =>
    rw [h.zero]
    rfl
  case limited =>
    rw [hcheck]
    nofun

/-- A constant is set to the same value where the others are read. -/
theorem lockStep_settingBodies (property : String) (value : Expr) :
    (settingBodies property value).LockStep [property] [] [] [property] where
  decode := Stmt.sets_of_replicate 0 rfl
  zero := Stmt.sets_nil
  encode := rfl
  rangeCheck := rfl
  init := Stmt.sets_of_replicate 0 rfl
  literals := rfl
  reads := by simp [settingBodies, Stmt.attributes, Stmt.partsAll]
  onlySets := rfl
  limited := nofun

/-- The name of a class does not begin with a small letter. -/
theorem typeName_ne (name : Text) {c : Char} (rest : List Char) (hc : c.isLower = true) :
    Identifier.typeName name ≠ String.ofList (c :: rest) := by
  intro h
  replace h := String.ofList_inj.mp h
  cases hname : Identifier.sanitize name with
  | nil => simp [hname, Identifier.capitalize] at h
  | cons first others =>
    rw [hname, Identifier.capitalize, List.cons.injEq] at h
    rw [← h.1, Char.isLower_toUpper_eq_false] at hc
    cases hc

/-- A field whose value is a member of an enumeration. -/
theorem lockStep_enumerationBodies (property : String) {type : String} (htype : type ≠ "len") :
    (enumerationBodies type property).LockStep [property] [property] [property] [] where
  decode := Stmt.sets_of_replicate 1 rfl
  zero := Stmt.sets_of_replicate 0 rfl
  encode := by
    have hparts : (Expr.apply type [.own property]).parts Expr.isLength =
        [.apply type [.own property], .name type, .own property, .self] := by
      simp [Expr.parts, Expr.partsAll, Expr.apply, Expr.own, Expr.self, Expr.isLength, htype]
    show (Expr.send (.apply type [.own property]) "encode" [Expr.name "writer", Expr.name "order"] ::
      ((Expr.apply type [.own property]).parts Expr.isLength ++
        [Expr.name "writer", Expr.name "order"]) ++ []).filterMap Expr.own? = [property]
    rw [hparts]
    rfl
  rangeCheck := Stmt.checked_of_replicate 0 rfl
  init := Stmt.sets_nil
  literals := rfl
  reads := Stmt.mem_attributes_of_replicate 2 rfl
  onlySets := rfl
  limited := nofun

/-- A field whose value is a set, which has no range. -/
theorem lockStep_objectBodies (type property : String) :
    (objectBodies type property).LockStep [property] [property] [] [] where
  decode := Stmt.sets_of_replicate 1 rfl
  zero := Stmt.sets_of_replicate 0 rfl
  encode := rfl
  rangeCheck := rfl
  init := Stmt.sets_nil
  literals := rfl
  reads := Stmt.mem_attributes_of_replicate 1 rfl
  onlySets := rfl
  limited := nofun

/-- A field whose value is a composite, which checks itself. -/
theorem lockStep_compositeBodies (type property : String) :
    { objectBodies type property with
      rangeCheck := [.branch (isPresent property) [checkOwn (.own property)] []] }.LockStep
      [property] [property] [property] [] where
  decode := Stmt.sets_of_replicate 1 rfl
  zero := Stmt.sets_of_replicate 0 rfl
  encode := rfl
  rangeCheck := Stmt.checked_of_replicate 0 rfl
  init := Stmt.sets_nil
  literals := rfl
  reads := Stmt.mem_attributes_of_replicate 2 rfl
  onlySets := rfl
  limited := nofun

/-- A group. -/
theorem GroupBodies.lockStep {element : String} {token : Token} {blockLengthType numInGroupType : Primitive}
    {bounds : Bounds} (h : GroupBodies notes owner element token blockLengthType numInGroupType bounds b) :
    b.LockStep [Identifier.propertyName token.name] [Identifier.propertyName token.name]
      [Identifier.propertyName token.name] [] where
  decode := by
    rw [h.decode]
    exact Stmt.sets_of_replicate 2 rfl
  zero := by
    rw [h.zero]
    exact Stmt.sets_of_replicate 0 rfl
  encode := by
    rw [h.encode]
    rfl
  rangeCheck := by
    rw [h.rangeCheck]
    exact Stmt.checked_group 2 rfl
  init := by
    rw [h.init]
    exact Stmt.sets_nil
  literals := by
    rw [h.init, h.decode]
    rfl
  reads := by
    rw [h.encode, h.rangeCheck]
    exact Stmt.mem_attributes_of_replicate 5 rfl
  onlySets := by
    rw [h.zero]
    rfl
  limited := by
    rw [h.rangeCheck]
    nofun

/-- Variable data. -/
theorem VarDataBodies.lockStep {token data : Token} {lengthType dataType : Primitive} {bounds : Bounds}
    (h : VarDataBodies notes owner token data lengthType dataType bounds b) :
    b.LockStep [Identifier.propertyName token.name] [Identifier.propertyName token.name]
      [Identifier.propertyName token.name] [] := by
  obtain ⟨validation, hcheck, hvalidation⟩ := h.rangeCheck
  have hdata := dataStmts_cases (Identifier.propertyName token.name) dataType
  have hchecked : ∃ n, Stmt.attributes Expr.never b.rangeCheck =
      List.replicate (n + 1) (Identifier.propertyName token.name) := by
    -- The limit reads the attribute twice: where it is compared and where a complaint shows it.
    have hlimit : Stmt.attributes Expr.never [lengthCheck owner (Identifier.propertyName token.name) bounds] =
        List.replicate 2 (Identifier.propertyName token.name) := rfl
    rw [hcheck]
    exact attributes_presentCheck 1 hlimit hvalidation
  have hencode : ∃ n, Stmt.attributes Expr.never b.encode =
      List.replicate n (Identifier.propertyName token.name) := by
    rw [h.encode]
    rcases hdata with hdata | hdata <;> rw [hdata]
    · exact ⟨2, rfl⟩
    · exact ⟨3, rfl⟩
  constructor
  case decode =>
    rw [h.decode]
    refine Stmt.sets_of_replicate 1 ?_
    rcases hdata with hdata | hdata <;> rw [hdata] <;> rfl
  case zero =>
    rw [h.zero]
    exact Stmt.sets_of_replicate 0 rfl
  case encode =>
    rw [h.encode]
    rcases hdata with hdata | hdata <;> rw [hdata] <;> rfl
  case rangeCheck =>
    obtain ⟨n, hn⟩ := hchecked
    rw [hcheck] at hn ⊢
    exact Stmt.checked_of_replicate n hn
  case init =>
    rw [h.init]
    exact Stmt.sets_nil
  case literals =>
    rw [h.init, h.decode]
    rfl
  case reads =>
    obtain ⟨n, hn⟩ := hchecked
    obtain ⟨m, hm⟩ := hencode
    refine Stmt.mem_attributes_of_replicate (m + (n + 1)) ?_
    rw [Stmt.attributes_append, hm, hn, ← List.replicate_add]
  case onlySets =>
    rw [h.zero]
    rfl
  case limited =>
    rw [hcheck]
    nofun

/-- Statements that set nothing, and write and check nothing. -/
theorem lockStep_silent (hzero : b.zero = []) (hinit : b.init = []) (hcheck : b.rangeCheck = [])
    (hdecode : Stmt.Sets b.decode []) (hsetting : b.decode.filter Stmt.isSetting = [])
    (hencode : Stmt.attributes Expr.isLength b.encode = [])
    (hreads : Stmt.attributes Expr.never b.encode = []) : b.LockStep [] [] [] [] where
  decode := hdecode
  zero := by
    rw [hzero]
    exact Stmt.sets_nil
  encode := hencode
  rangeCheck := by
    rw [hcheck]
    rfl
  init := by
    rw [hinit]
    exact Stmt.sets_nil
  literals := by rw [hinit, hsetting]
  reads := by
    rw [hcheck, List.append_nil, hreads]
    simp
  onlySets := by
    rw [hzero]
    rfl
  limited := by
    rw [hcheck]
    nofun

end Codec

/-! ## Steps -/

namespace Step

/-- Whether a step is a constant: of a primitive type, or of an enumeration. -/
def isConstant : Step → Bool
  | .primitive field encoding => encoding.isConstant || field.isConstant
  | .typed .enumeration _ field _ _ => field.isConstant
  | _ => false

/-- Whether a step is a bit set. -/
def isBitSet : Step → Bool
  | .typed .choiceSet .. => true
  | _ => false

/-- The attributes of some steps. -/
def attributes (steps : List Step) : List String :=
  steps.filterMap attribute?

/-- The attributes of the steps that are no constants. -/
def wireAttributes (steps : List Step) : List String :=
  attributes (steps.filter fun s => !s.isConstant)

/-- The attributes of the steps that are neither constants nor bit sets. -/
def rangedAttributes (steps : List Step) : List String :=
  attributes ((steps.filter fun s => !s.isConstant).filter fun s => !s.isBitSet)

/-- The attributes of the constants. -/
def constantAttributes (steps : List Step) : List String :=
  attributes (steps.filter isConstant)

theorem attributes_filter_cons (p : Step → Bool) (s : Step) (rest : List Step) :
    attributes ((s :: rest).filter p) = attributes ([s].filter p) ++ attributes (rest.filter p) := by
  rw [← List.singleton_append, List.filter_append, attributes, List.filterMap_append]
  rfl

end Step

/-- Whether bodies go through the attributes of some steps in lock step. -/
def Bodies.LockStepWith (b : Bodies) (steps : List Step) : Prop :=
  b.LockStep (Step.attributes steps) (Step.wireAttributes steps) (Step.rangedAttributes steps)
    (Step.constantAttributes steps)

namespace Bodies.LockStep

variable {b : Bodies} {all wire ranged constants : List String}

/-- Accessors do not matter. -/
theorem withAccessors (h : b.LockStep all wire ranged constants) (methods : List Method) :
    { b with accessors := methods }.LockStep all wire ranged constants :=
  ⟨h.decode, h.zero, h.encode, h.rangeCheck, h.init, h.literals, h.reads, h.onlySets, h.limited⟩

end Bodies.LockStep

namespace Step

variable {s : Step} {owner : String} {isExtensible : Bool} {notes : List Note} {b : Bodies}

theorem lockStepWith_constant {name : String} (hname : s.attribute? = some name)
    (hconstant : s.isConstant = true) (h : b.LockStep [name] [] [] [name]) : b.LockStepWith [s] := by
  simpa [Bodies.LockStepWith, attributes, wireAttributes, rangedAttributes, constantAttributes, hname,
    hconstant] using h

theorem lockStepWith_ranged {name : String} (hname : s.attribute? = some name)
    (hconstant : s.isConstant = false) (hset : s.isBitSet = false)
    (h : b.LockStep [name] [name] [name] []) : b.LockStepWith [s] := by
  simpa [Bodies.LockStepWith, attributes, wireAttributes, rangedAttributes, constantAttributes, hname,
    hconstant, hset] using h

/-- What a field with a class adds, the accessors left aside. -/
theorem lockStepWith_typed {construct : Construct} {typeName : Datum} {field type : Token}
    {nested : Option Plan} {name : String} (hs : (typed construct typeName field type nested).Recorded)
    (hname : nested = none → name ≠ "len")
    (h : Codec.valueOfTypeBodies construct name (Identifier.propertyName field.name) field = .ok b) :
    b.LockStepWith [typed construct typeName field type nested] := by
  -- A member composite has a plan of its own and the class of that plan; no other class has one.
  have hconstruct : construct = .enumeration ∧ nested = none ∨ construct = .choiceSet ∨
      construct = .composite := by
    cases nested with
    | none => exact hs.imp_left fun hs => ⟨hs, rfl⟩
    | some plan => exact .inr (.inr hs.1)
  rcases hconstruct with ⟨rfl, rfl⟩ | rfl | rfl
  · cases hconstant : field.isConstant with
    | true =>
      rw [Codec.valueOfTypeBodies, if_pos hconstant, Codec.enumerationConstantBodies] at h
      obtain ⟨value, -, h⟩ := except_bind_ok h
      obtain rfl := Except.ok.inj h
      exact lockStepWith_constant rfl hconstant (Codec.lockStep_settingBodies _ value)
    | false =>
      rw [Codec.valueOfTypeBodies, hconstant] at h
      obtain rfl := Except.ok.inj h
      exact lockStepWith_ranged rfl hconstant rfl (Codec.lockStep_enumerationBodies _ (hname rfl))
  · obtain rfl := Except.ok.inj h
    exact Codec.lockStep_objectBodies name _
  · obtain rfl := Except.ok.inj h
    exact Codec.lockStep_compositeBodies name _

/-- **What one step adds to the methods is in lock step.** -/
theorem lockStepWith (hs : s.Recorded) (h : (s.bodies owner isExtensible).Yields notes b) :
    b.LockStepWith [s] := by
  cases s with
  | gap size since trailing =>
    -- A trailing gap of an extensible block is not read, any other may have come with a version.
    obtain ⟨-, rfl | ⟨-, rfl⟩⟩ := Codec.yields_gapBodies h
    · exact Codec.lockStep_silent rfl rfl rfl Stmt.sets_nil rfl rfl rfl
    · rw [Codec.discardSince]
      split
      · exact Codec.lockStep_silent rfl rfl rfl (Stmt.sets_of_replicate 1 rfl) rfl rfl rfl
      · exact Codec.lockStep_silent rfl rfl rfl (Stmt.sets_of_replicate 0 rfl) rfl rfl rfl
  | primitive field encoding =>
    obtain ⟨type, bounds, texts, inner, -, -, -, -, rfl, hinner⟩ := Codec.yields_primitiveBodies h
    refine Bodies.LockStep.withAccessors ?_ _
    split at hinner
    · rename_i hconstant
      obtain ⟨value, -, -, rfl⟩ := Codec.yields_constantBodies hinner
      exact lockStepWith_constant rfl hconstant (Codec.lockStep_settingBodies _ value)
    · rename_i hconstant
      obtain ⟨count, -, hvalues⟩ := Codec.yields_valueBodies hinner
      exact lockStepWith_ranged rfl (Bool.eq_false_iff.mpr hconstant) rfl hvalues.lockStep
  | typed construct typeName field type nested =>
    obtain ⟨name, inner, htype, hinner, rfl⟩ := Codec.yields_typedBodies h
    refine Bodies.LockStep.withAccessors (lockStepWith_typed hs ?_ hinner) _
    -- A class of the name `len` would make a call of it look like the number of some items.
    rintro rfl
    obtain htype | ⟨-, -, text, rfl⟩ := htype
    · cases htype
    · exact Codec.typeName_ne text ['e', 'n'] rfl
  | extensionSkip known =>
    obtain ⟨-, ⟨_, rfl⟩ | ⟨_, _, rfl⟩⟩ := Codec.yields_skipBodies h
    · exact Codec.lockStep_silent rfl rfl rfl (Stmt.sets_of_replicate 1 rfl) rfl rfl rfl
    · exact Codec.lockStep_silent rfl rfl rfl (Stmt.sets_of_replicate 1 rfl) rfl rfl rfl
  | group token blockLength numInGroup element =>
    obtain ⟨_, _, _, -, -, -, hb⟩ := Codec.yields_groupBodies h
    exact hb.lockStep
  | varData token length data =>
    obtain ⟨_, _, _, -, -, -, hb⟩ := Codec.yields_varDataBodies h
    exact hb.lockStep
  | encodeValidation =>
    rw [← yields_pure.mp h]
    exact Codec.lockStep_silent rfl rfl rfl Stmt.sets_nil rfl rfl rfl
  | decodeValidation =>
    rw [← yields_pure.mp h]
    exact Codec.lockStep_silent rfl rfl rfl (Stmt.sets_of_replicate 1 rfl) rfl rfl rfl

/-- What the steps of a plan add is in lock step. -/
theorem lockStepWith_join {steps : List Step} {bodies : List Bodies} (hsteps : ∀ s ∈ steps, s.Recorded)
    (h : List.Forall₂ (fun s b => (s.bodies owner isExtensible).Yields notes b) steps bodies) :
    (Bodies.join bodies).LockStepWith steps := by
  induction h with
  | nil => exact Bodies.LockStep.empty
  | @cons s b steps bodies hb _ ih =>
    obtain ⟨hs, hsteps⟩ := List.forall_mem_cons.mp hsteps
    have happend := Bodies.LockStep.append (lockStepWith hs hb) (ih hsteps)
    have hall : attributes (s :: steps) = attributes [s] ++ attributes steps := by
      rw [attributes, ← List.singleton_append, List.filterMap_append]
      rfl
    have hranged : rangedAttributes (s :: steps) = rangedAttributes [s] ++ rangedAttributes steps := by
      simp only [rangedAttributes, List.filter_filter]
      exact attributes_filter_cons ..
    rw [Bodies.LockStepWith, hall, hranged, wireAttributes, constantAttributes, attributes_filter_cons,
      attributes_filter_cons isConstant]
    exact happend

end Step

/-! ## Classes -/

/-- The bodies of the methods of a class. What the first one does ends where the constants are set. -/
def Code.ClassDef.bodies (c : ClassDef) : Bodies where
  zero := (c.bodyOf "__init__").takeWhile fun s => !s.callsInit
  encode := c.bodyOf "encode"
  decode := c.bodyOf "decode"
  rangeCheck := c.bodyOf "range_check"
  init := c.bodyOf "init"

theorem Code.Stmt.callsInit_of_isSetting {s : Stmt} (h : s.isSetting = true) : s.callsInit = false := by
  cases s with
  | assign target value => rfl
  | _ => cases h

namespace Plan

/-- A class that is written from bodies in lock step is in lock step. -/
theorem Written.lockStepWith {c : ClassDef} {bodies : List Bodies} {steps : List Step}
    (hc : Written c bodies) (h : (Bodies.join bodies).LockStepWith steps) :
    c.bodies.LockStepWith steps := by
  have hzero : c.bodies.zero = (Bodies.join bodies).zero := by
    rw [ClassDef.bodies, hc.zero, ← Bodies.zero_join]
    dsimp only
    -- No first value lets the object set its constants, so the bodies end just where this is done.
    rw [List.takeWhile_append_of_pos]
    · exact List.append_nil _
    · intro s hs
      rw [Stmt.callsInit_of_isSetting (List.all_eq_true.mp h.onlySets s hs)]
      rfl
  have hbodies : c.bodies = { Bodies.join bodies with accessors := [] } := by
    rw [Bodies.mk.injEq]
    exact ⟨hzero, hc.encode.trans (Bodies.encode_join _).symm, hc.decode.trans (Bodies.decode_join _).symm,
      hc.rangeCheck.trans (Bodies.rangeCheck_join _).symm, hc.init.trans (Bodies.init_join _).symm, rfl⟩
  rw [hbodies]
  exact Bodies.LockStep.withAccessors h []

end Plan

end SimpleBinary

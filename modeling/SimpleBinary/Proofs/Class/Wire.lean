import SimpleBinary.Proofs.Block.Advance
import SimpleBinary.Proofs.Class.Methods
import SimpleBinary.Proofs.Class.Source

/-!
Constants and the wire.

Whether a field is a constant is decided twice: by the walk, which then neither pads nor advances, and by
what the field is rendered to. What a class writes and reads is told by its calls: those of a method of the
writer or the reader, and those that one of them is passed to. The two agree on every field of a primitive
type or an enumeration, and on all that is on the wire (`Step.WireAgrees`). They do not agree on constants
that are sets or composites: the walk counts no bytes for them, and the class writes and reads them as if
they were on the wire.
-/

set_option autoImplicit false

namespace SimpleBinary

open Code Emission

/-! ## Calls in the source -/

namespace Code

/-- Whether an expression is a name. -/
def Expr.isName (name : String) : Expr → Bool
  | .name other => other == name
  | _ => false

/-- Whether an expression is a call that a name is passed to, or one of a method of the name. -/
def Expr.callsWith (name : String) : Expr → Bool
  | .call (.member (.name object) _) arguments => arguments.any (Expr.isName name) || object == name
  | .call _ arguments => arguments.any (Expr.isName name)
  | _ => false

/-- How many calls with a name there are in statements. -/
def Stmt.calls (name : String) (stmts : List Stmt) : Nat :=
  (Stmt.partsAll Expr.never stmts).countP (Expr.callsWith name)

end Code

/-- Whether nothing is written and nothing is read. -/
structure Bodies.IsSilent (b : Bodies) : Prop where
  encode : Stmt.calls "writer" b.encode = 0
  decode : Stmt.calls "reader" b.decode = 0

/-- Whether one thing is written, in whatever state the object is. -/
def Bodies.WritesOnce (b : Bodies) : Prop :=
  ∃ value, b.encode = [.run value] ∧ Stmt.calls "writer" b.encode = 1

/-! ## What a step does on the wire -/

namespace Step

/-- Whether a field has an object as its value, which reads and writes itself: a set or a composite. -/
def isObject : Step → Bool
  | .typed .enumeration .. => false
  | .typed .. => true
  | _ => false

/-- Whether a step of a walk over tokens and what it is rendered to are at one about the wire. -/
structure WireAgrees (blank : Plan) (ts : List Token) (s : Step) (b : Bodies) : Prop where
  /-- The walk stays where it is over a constant, and nothing is written or read for it unless it is an
  object. -/
  constant {field type : Token} : s.fieldTokens? = some (field, type) →
    Walk.isConstant field type = true →
      Walk.Stays blank ts s ∧ (b.IsSilent ↔ s.isObject = false)
  /-- The walk passes over any other field by its encoded length, and it is written and read once. -/
  onWire {field type : Token} : s.fieldTokens? = some (field, type) →
    Walk.isConstant field type = false →
      (∃ length, type.encodedLength = some length ∧ Walk.PassesOver blank ts field type s length) ∧
        b.WritesOnce ∧ Stmt.calls "reader" b.decode = 1
  /-- The gap in front of a field is written. -/
  gap {size : Int} {since : Option Int} {trailing : Bool} : s = .gap size since trailing → b.WritesOnce

end Step

namespace Codec

variable {notes : List Note} {owner property : String} {b : Bodies}

theorem ValueBodies.writesOnce {type : Primitive} {count : Int}
    (h : ValueBodies notes owner property type count b) : b.WritesOnce := by
  refine ⟨_, h.encode, ?_⟩
  rw [h.encode]
  cases Extent.of type count <;> rfl

theorem ValueBodies.reads {type : Primitive} {count : Int}
    (h : ValueBodies notes owner property type count b) : Stmt.calls "reader" b.decode = 1 := by
  rw [h.decode]
  cases Extent.of type count <;> rfl

/-- What is set to a value that calls nothing is silent. -/
theorem isSilent_settingBodies {value : Expr}
    (hvalue : (value.parts Expr.never).countP (Expr.callsWith "reader") = 0) :
    (settingBodies property value).IsSilent where
  encode := rfl
  decode := by
    have hparts : Stmt.partsAll Expr.never [.assign (.own property) value] =
        .self :: value.parts Expr.never := by
      simp [Stmt.partsAll, Stmt.parts, Expr.targetParts, Expr.own, Expr.self, Expr.parts, Expr.never]
    rw [settingBodies, Stmt.calls, hparts, List.countP_cons_of_neg (by simp [Expr.self, Expr.callsWith])]
    exact hvalue

/-- A constant of a primitive type is a literal. -/
theorem callsWith_constantValue {type : Primitive} {text : Text} {value : Expr}
    (h : constantValue type text = .ok value) :
    (value.parts Expr.never).countP (Expr.callsWith "reader") = 0 := by
  rcases constantValue_ok h with ⟨data, rfl⟩ | ⟨number, rfl⟩ <;> rfl

/-- A constant of an enumeration reads nothing. -/
theorem callsWith_enumerationConstant {type : String} {field : Token} {value : Expr}
    (h : enumerationConstant type field = .ok value) :
    (value.parts Expr.never).countP (Expr.callsWith "reader") = 0 := by
  rcases enumerationConstant_ok h with ⟨name, rfl⟩ | ⟨n, rfl⟩ <;> rfl

/-- A field whose value is a member of an enumeration. -/
theorem wire_enumerationBodies (type property : String) :
    (enumerationBodies type property).WritesOnce ∧
      Stmt.calls "reader" (enumerationBodies type property).decode = 1 :=
  ⟨⟨_, rfl, rfl⟩, rfl⟩

/-- An object writes and reads itself. -/
theorem wire_objectBodies (type property : String) :
    (objectBodies type property).WritesOnce ∧
      Stmt.calls "reader" (objectBodies type property).decode = 1 :=
  ⟨⟨_, rfl, rfl⟩, rfl⟩

end Codec

namespace Step

variable {blank p : Plan} {ts : List Token} {notes : List Note} {b : Bodies} {field type : Token}

/-- What is written is not silent. -/
theorem not_isSilent (h : b.WritesOnce) : ¬ b.IsSilent := by
  intro hsilent
  obtain ⟨value, -, hwrites⟩ := h
  rw [hsilent.encode] at hwrites
  cases hwrites

/-- What the value of a field of an enumeration, a set or a composite is rendered to: a constant of an
enumeration is set, another member of it is read and written, and an object does so itself. -/
theorem cases_valueOfType {construct : Construct} {typeName : Datum} {nested : Option Plan} {name : String}
    (hs : (typed construct typeName field type nested).Recorded)
    (h : Codec.valueOfTypeBodies construct name (Identifier.propertyName field.name) field = .ok b) :
    (construct = .enumeration ∧ field.isConstant = true ∧ ∃ value,
      Codec.enumerationConstant name field = .ok value ∧
      b = Codec.settingBodies (Identifier.propertyName field.name) value) ∨
    (construct = .enumeration ∧ field.isConstant = false ∧
      b = Codec.enumerationBodies name (Identifier.propertyName field.name)) ∨
    (construct ≠ .enumeration ∧
      b.encode = (Codec.objectBodies name (Identifier.propertyName field.name)).encode ∧
      b.decode = (Codec.objectBodies name (Identifier.propertyName field.name)).decode) := by
  have hconstruct : construct = .enumeration ∨ construct = .choiceSet ∨ construct = .composite := by
    cases nested with
    | none => exact hs
    | some plan => exact .inr (.inr hs.1)
  rcases hconstruct with rfl | rfl | rfl
  · cases hconstant : field.isConstant with
    | true =>
      rw [Codec.valueOfTypeBodies, if_pos hconstant, Codec.enumerationConstantBodies] at h
      obtain ⟨value, hvalue, h⟩ := except_bind_ok h
      exact .inl ⟨rfl, rfl, value, hvalue, (Except.ok.inj h).symm⟩
    | false =>
      rw [Codec.valueOfTypeBodies, hconstant] at h
      exact .inr (.inl ⟨rfl, rfl, (Except.ok.inj h).symm⟩)
  · obtain rfl := Except.ok.inj h
    exact .inr (.inr ⟨by decide, rfl, rfl⟩)
  · obtain rfl := Except.ok.inj h
    exact .inr (.inr ⟨by decide, rfl, rfl⟩)

/-- The bodies of a field of an enumeration, a set or a composite: a constant of an enumeration is silent,
and all others write and read. -/
theorem wire_typed {construct : Construct} {typeName : Datum} {nested : Option Plan} {name : String}
    (hs : (typed construct typeName field type nested).Recorded)
    (h : Codec.valueOfTypeBodies construct name (Identifier.propertyName field.name) field = .ok b) :
    (construct = .enumeration ∧ field.isConstant = true ∧ b.IsSilent) ∨
      ((construct = .enumeration → field.isConstant = false) ∧ b.WritesOnce ∧
        Stmt.calls "reader" b.decode = 1) := by
  rcases cases_valueOfType hs h with ⟨rfl, hfield, value, hvalue, rfl⟩ | ⟨rfl, hfield, rfl⟩ |
    ⟨hobject, hencode, hdecode⟩
  · have hcalls := Codec.callsWith_enumerationConstant hvalue
    exact .inl ⟨rfl, hfield, Codec.isSilent_settingBodies hcalls⟩
  · exact .inr ⟨fun _ => hfield, Codec.wire_enumerationBodies name _⟩
  · refine .inr ⟨fun henumeration => absurd henumeration hobject, ?_⟩
    rw [Bodies.WritesOnce, hencode, hdecode]
    exact Codec.wire_objectBodies name _

/-- For a field of an enumeration, a set or a composite the walk asks the token of the field alone. -/
theorem isConstant_of_typed {construct : Construct} {typeName : Datum} {nested : Option Plan} {w : Walker}
    (h : w.Records field type (.typed construct typeName field type nested)) :
    Walk.isConstant field type = field.isConstant := by
  have hsignal : type.signal ≠ .encoding := by
    cases h <;> simp_all
  simp [Walk.isConstant, hsignal]

/-- **Each step of a walk is rendered to source that is at one with the walk about the wire.** -/
theorem wireAgrees {s : Step} (hblank : blank.steps = []) (hwalk : blank.ofTokens ts = .ok p)
    (hs : s ∈ p.steps) (h : (s.bodies p.typeName p.isExtensible).Yields notes b) :
    s.WireAgrees blank ts b := by
  have hrecorded := Plan.Walked.recorded ⟨blank, ts, hblank, hwalk⟩ s hs
  -- What the walk does over a field is known of all fields, so what is left is what they are rendered to.
  have hagrees (hconstant : ∀ {field type}, s.fieldTokens? = some (field, type) →
        Walk.isConstant field type = true → (b.IsSilent ↔ s.isObject = false))
      (hwire : ∀ {field type}, s.fieldTokens? = some (field, type) →
        Walk.isConstant field type = false → b.WritesOnce ∧ Stmt.calls "reader" b.decode = 1)
      (hgap : ∀ {size since trailing}, s = .gap size since trailing → b.WritesOnce) :
      s.WireAgrees blank ts b := by
    constructor
    case constant =>
      intro field type htokens hc
      obtain ⟨w, u, hplaced⟩ := Plan.ofTokens_placed hblank hwalk hs htokens
      exact ⟨hplaced.stays hc, hconstant htokens hc⟩
    case onWire =>
      intro field type htokens hc
      exact ⟨Plan.ofTokens_passesOver hblank hwalk hs htokens hc, hwire htokens hc⟩
    case gap => exact hgap
  cases s with
  | gap size since trailing =>
    refine hagrees nofun nofun fun _ => ?_
    obtain ⟨-, rfl | ⟨-, rfl⟩⟩ := Codec.yields_gapBodies h
    · exact ⟨_, rfl, rfl⟩
    · exact ⟨_, rfl, rfl⟩
  | primitive field encoding =>
    obtain ⟨type, bounds, texts, inner, -, -, -, -, rfl, hinner⟩ := Codec.yields_primitiveBodies h
    rw [hrecorded.isConstant_eq] at hinner
    refine hagrees ?_ ?_ nofun
    · rintro _ _ ⟨⟩ hc
      rw [hc, if_pos rfl] at hinner
      obtain ⟨value, hvalue, -, rfl⟩ := Codec.yields_constantBodies hinner
      have hsilent : (Codec.settingBodies (Identifier.propertyName field.name) value).IsSilent :=
        Codec.isSilent_settingBodies (Codec.callsWith_constantValue hvalue)
      exact ⟨fun _ => rfl, fun _ => ⟨hsilent.encode, hsilent.decode⟩⟩
    · rintro _ _ ⟨⟩ hc
      rw [hc, if_neg (by simp)] at hinner
      obtain ⟨count, -, hvalues⟩ := Codec.yields_valueBodies hinner
      exact ⟨hvalues.writesOnce, hvalues.reads⟩
  | typed construct typeName field type nested =>
    obtain ⟨name, inner, -, hinner, rfl⟩ := Codec.yields_typedBodies h
    obtain ⟨w, u, -, -, -, -, -, hrecords, -⟩ := Plan.ofTokens_placed hblank hwalk hs rfl
    have hsame := isConstant_of_typed hrecords
    rcases wire_typed hrecorded hinner with ⟨rfl, hfield, hsilent⟩ | ⟨hno, hwrites, hreads⟩
    · refine hagrees ?_ ?_ nofun
      · rintro _ _ ⟨⟩ _
        exact ⟨fun _ => rfl, fun _ => ⟨hsilent.encode, hsilent.decode⟩⟩
      · rintro _ _ ⟨⟩ hc
        rw [hsame, hfield] at hc
        cases hc
    · refine hagrees ?_ (fun _ _ => ⟨hwrites, hreads⟩) nofun
      -- A constant that writes is none of an enumeration, so it is an object.
      rintro _ _ ⟨⟩ hc
      have hobject : (typed construct typeName field type nested).isObject = true := by
        cases construct with
        | enumeration =>
          rw [hsame, hno rfl] at hc
          cases hc
        | _ => rfl
      rw [hobject]
      exact ⟨fun hsilent => absurd ⟨hsilent.encode, hsilent.decode⟩ (not_isSilent hwrites), nofun⟩
  | _ => exact hagrees nofun nofun nofun

end Step

namespace Plan

/-- **Constants and the wire.** Whatever a walk records, in the plan of the entity or in one inside it, the
classes are written from bodies that are at one with the walk: where it stays, nothing is written or read,
unless the field is a set or a composite; and what it passes over is written once, in any case, and read. -/
theorem classes_wireAgrees {e : Edition} {p : Plan} {cs : List ClassDef} (hwalked : p.Walked)
    (h : (p.classes e).outcome = .ok cs) :
    List.Forall₂ (fun q c => ∃ blank ts bodies, blank.steps = [] ∧ blank.ofTokens ts = .ok q ∧
      Written c bodies ∧ List.Forall₂ (fun s b => s.WireAgrees blank ts b) q.steps bodies) p.plans cs :=
  hwalked.classes_of_steps (fun hblank hwalk hs hb => Step.wireAgrees hblank hwalk hs hb) h

/-- The classes of a report and of its legs are at one with the walk over its tokens. -/
theorem reportPlan_classes_wireAgrees : ∃ p cs, Plan.ofMessage "Report" reportTokens = .ok p ∧ p.Walked ∧
    (p.classes reportEdition).outcome = .ok cs ∧ cs.length = 2 ∧
    List.Forall₂ (fun q c => ∃ blank ts bodies, blank.steps = [] ∧ blank.ofTokens ts = .ok q ∧
      Written c bodies ∧ List.Forall₂ (fun s b => s.WireAgrees blank ts b) q.steps bodies) p.plans cs := by
  obtain ⟨p, cs, hp, hcs, hlength, -⟩ := exists_reportPlan
  have hwalked := walked_ofMessage hp
  exact ⟨p, cs, hp, hwalked, hcs, hlength, classes_wireAgrees hwalked hcs⟩

/-- The tokens of a composite without bytes, whose only member is a set that is a constant. -/
def boxTokens : List Token := [
  { signal := .opens .composite, name := "Box", encodedLength := some 0, tokenCount := some 4 },
  { signal := .opens .choiceSet, name := "flags", encodedLength := some 1, tokenCount := some 2
    encoding := { primitive := some .uint8, presence := some .constant } },
  { signal := .closes .choiceSet, name := "flags", tokenCount := some 2 },
  { signal := .closes .composite, name := "Box", tokenCount := some 4 }]

/-- **A constant set is written and read.** The walk counts it as a constant and its block stays empty, but
the class of the composite calls the writer and the reader for it. -/
theorem boxPlan_writes_constant : ∃ p c field type, Plan.ofComposite "Box" boxTokens = .ok p ∧
    p.steps.map Step.fieldTokens? = [some (field, type)] ∧ Walk.isConstant field type = true ∧
    p.consumed = 0 ∧ p.blockLength = some 0 ∧ (p.classes reportEdition).outcome = .ok [c] ∧
    Stmt.calls "writer" (c.bodyOf "encode") = 1 ∧ Stmt.calls "reader" (c.bodyOf "decode") = 1 := by
  have h : ∃ p field type, Plan.ofComposite "Box" boxTokens = .ok p ∧
      p.steps.map Step.fieldTokens? = [some (field, type)] ∧ Walk.isConstant field type = true ∧
      p.consumed = 0 ∧ p.blockLength = some 0 ∧
      ((p.classes reportEdition).outcome.map fun cs => cs.map fun c =>
        (Stmt.calls "writer" (c.bodyOf "encode"), Stmt.calls "reader" (c.bodyOf "decode"))).toOption =
        some [(1, 1)] := by
    -- The walk computes the plan, and what is asked of the plan is then decided.
    refine ⟨?plan, ?field, ?type, ?walk, ?fields, ?constant, ?consumed, ?length, ?calls⟩
    case walk =>
      cbv
      rfl
    case fields => rfl
    all_goals decide +kernel
  obtain ⟨p, field, type, hp, hfields, hconstant, hconsumed, hlength, hcalls⟩ := h
  obtain ⟨cs, hcs, hcalls⟩ := exists_of_computed hcalls
  obtain ⟨c, rfl, hc⟩ := List.map_eq_singleton_iff.mp hcalls
  obtain ⟨hencode, hdecode⟩ := Prod.mk.inj hc
  exact ⟨p, c, field, type, hp, hfields, hconstant, hconsumed, hlength, hcs, hencode, hdecode⟩

end Plan

end SimpleBinary

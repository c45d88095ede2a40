import SimpleBinary.Proofs.Class.Completeness
import SimpleBinary.Proofs.Class.LockStep
import SimpleBinary.Proofs.Class.WireRange

/-!
The names that the members of a class bring.

A member of a class has an attribute or a constant, and accessors that are named for it by an end. Names are
brought into one case and accessors are many, so a name may be made twice, and the last one made hides the
others. Which names can meet is settled here: an accessor never meets another one unless the attributes do
(`Codec.append_accessorEnd_inj`), a constant never meets an accessor, and constants meet only where attributes
do (`Identifier.propertyName_eq_of_constantName`). What is left are conditions on the attributes alone, and
members are apart exactly if these hold.
-/

set_option autoImplicit false

namespace SimpleBinary

open Code Emission

/-! ## Cases -/

namespace Identifier

/-- An identifier in small letters. -/
def lower (s : String) : String :=
  String.ofList (s.toList.map Char.toLower)

theorem lower_append (s t : String) : lower (s ++ t) = lower s ++ lower t := by
  simp [lower, String.ofList_append]

theorem lower_moduleName (name : Text) : lower (moduleName name) = moduleName name := by
  simp [lower, moduleName, Function.comp_def]

/-- A constant in small letters is the name of a module. -/
theorem lower_constantName (name : Text) : lower (constantName name) = moduleName name := by
  simp [lower, moduleName, constantName, Function.comp_def]

theorem lower_propertyName (name : Text) : lower (propertyName name) = propertyName name := by
  rw [propertyName]
  split
  · rw [lower_append, lower_moduleName]
    rfl
  · exact lower_moduleName name

/-- An attribute is never called like a reserved word. -/
theorem propertyName_not_keyword (name : Text) : keywords.contains (propertyName name) = false := by
  rw [propertyName]
  split
  · rename_i hkeyword
    have hnone : ∀ word ∈ keywords, keywords.contains (word ++ "_") = false := by decide +kernel
    exact hnone _ (List.contains_iff_mem.mp hkeyword)
  · rename_i hword
    exact Bool.eq_false_iff.mpr hword

theorem propertyName_eq_of_moduleName {a b : Text} (h : moduleName a = moduleName b) :
    propertyName a = propertyName b := by
  rw [propertyName, propertyName, h]

/-- Names with one constant have one attribute. -/
theorem propertyName_eq_of_constantName {a b : Text} (h : constantName a = constantName b) :
    propertyName a = propertyName b := by
  refine propertyName_eq_of_moduleName ?_
  rw [← lower_constantName a, h, lower_constantName]

/-- An attribute that is called like the constant of another name has no letters, so it is the attribute of
that name too. -/
theorem propertyName_eq_of_eq_constantName {a b : Text} (h : propertyName a = constantName b) :
    propertyName a = propertyName b := by
  have hmodule : propertyName a = moduleName b := by
    rw [← lower_propertyName a, h, lower_constantName]
  have hkeyword := propertyName_not_keyword a
  rw [hmodule] at hkeyword ⊢
  rw [propertyName]
  simp only [hkeyword, Bool.false_eq_true, if_false]

theorem isLower_constantName (name : Text) : ∀ c ∈ (constantName name).toList, c.isLower = false := by
  simp [constantName]

/-- A constant is no name with a small letter. -/
theorem constantName_ne {name : Text} {s : String} (h : s.toList.any Char.isLower = true) :
    constantName name ≠ s := by
  rintro rfl
  obtain ⟨c, hc, hlower⟩ := List.any_eq_true.mp h
  rw [isLower_constantName name c hc] at hlower
  cases hlower

/-- Among some names, a constant can only be one of those without small letters. -/
theorem constantName_mem_iff {name : Text} {names : List String} :
    constantName name ∈ names ↔ constantName name ∈ names.filter fun s => !s.toList.any Char.isLower := by
  rw [List.mem_filter, and_iff_left]
  rw [Bool.not_eq_true', Bool.eq_false_iff]
  exact fun hlower => constantName_ne hlower rfl

/-- Among some names, an attribute can only be one of those without capitals. -/
theorem propertyName_mem_iff {name : Text} {names : List String} :
    propertyName name ∈ names ↔ propertyName name ∈ names.filter fun s => lower s == s := by
  rw [List.mem_filter, and_iff_left]
  rw [lower_propertyName, beq_self_eq_true]

end Identifier

/-! ## Accessors -/

namespace Codec

theorem ne_append_accessorEnd {p s : String} (hs : s ∈ accessorEnds) : p ≠ p ++ s := by
  intro h
  have hlength := congrArg (fun t : String => t.toList.length) h
  have hpos : ∀ s ∈ accessorEnds, 0 < s.toList.length := by decide +kernel
  have := hpos s hs
  simp only [String.toList_append, List.length_append] at hlength
  omega

end Codec

/-! ## Members -/

/-- The names that a member of a class brings: those of its own, and those of its accessors, which are the name
of an attribute with an end. -/
structure Member where
  own : List String
  property : String
  ends : List String

namespace Member

def accessors (m : Member) : List String :=
  m.ends.map (m.property ++ ·)

def names (m : Member) : List String :=
  m.own ++ m.accessors

/-- Whether members are apart: different ones have no name in common, and none has a name that the class relies
on. -/
structure Apart (reserved : List String) (members : List Member) : Prop where
  pairwise : members.Pairwise fun a b => a.names.Disjoint b.names
  reserved : ∀ m ∈ members, m.names.Disjoint reserved

/-- Whether a member is made of one name, and has the accessors that all have and none but known ones. -/
structure Regular (m : Member) : Prop where
  named : ∃ name, m.property = Identifier.propertyName name ∧
    ∀ x ∈ m.own, x = Identifier.propertyName name ∨ x = Identifier.constantName name
  since : "_since_version" ∈ m.ends
  known : ∀ s ∈ m.ends, s ∈ Codec.accessorEnds

theorem Regular.property_not_mem {m : Member} (h : m.Regular) : m.property ∉ m.accessors := by
  intro hm
  obtain ⟨s, hs, heq⟩ := List.mem_map.mp hm
  exact Codec.ne_append_accessorEnd (h.known s hs) heq.symm

theorem disjoint_accessors_iff {a b : Member} (ha : a.Regular) (hb : b.Regular) :
    a.accessors.Disjoint b.accessors ↔ a.property ≠ b.property := by
  constructor
  · intro hdisjoint hproperty
    refine hdisjoint (List.mem_map_of_mem ha.since) ?_
    rw [hproperty]
    exact List.mem_map_of_mem hb.since
  · intro hproperty x hxa hxb
    obtain ⟨s, hs, rfl⟩ := List.mem_map.mp hxa
    obtain ⟨t, ht, heq⟩ := List.mem_map.mp hxb
    exact hproperty (Codec.append_accessorEnd_inj (ha.known s hs) (hb.known t ht) heq.symm).1

/-- Members with different attributes have nothing of their own in common. -/
theorem disjoint_own {a b : Member} (ha : a.Regular) (hb : b.Regular) (h : a.property ≠ b.property) :
    a.own.Disjoint b.own := by
  obtain ⟨name, hproperty, hown⟩ := ha.named
  obtain ⟨name', hproperty', hown'⟩ := hb.named
  rw [hproperty, hproperty'] at h
  intro x hx hx'
  -- A common name is the attribute or the constant of both, and each way it gives both one attribute.
  rcases hown x hx with rfl | rfl <;> rcases hown' _ hx' with heq | heq
  · exact h heq
  · exact h (Identifier.propertyName_eq_of_eq_constantName heq)
  · exact h (Identifier.propertyName_eq_of_eq_constantName heq.symm).symm
  · exact h (Identifier.propertyName_eq_of_constantName heq)

/-- Whether the attribute of a member, if it has one, is not called like an accessor of another one. -/
def Spares (a b : Member) : Prop :=
  a.property ∈ a.own → a.property ∉ b.accessors

instance (a b : Member) : Decidable (a.Spares b) :=
  inferInstanceAs (Decidable (_ → _))

/-- Only the attribute of a member can be called like an accessor: a constant has no small letters. -/
theorem disjoint_own_accessors_iff {a b : Member} (ha : a.Regular) (hb : b.Regular) :
    a.own.Disjoint b.accessors ↔ a.Spares b := by
  constructor
  · exact fun hdisjoint hown => hdisjoint hown
  · intro hproperty x hx haccessor
    obtain ⟨name, hname, hown⟩ := ha.named
    rcases hown x hx with hx' | rfl
    · rw [← hname] at hx'
      subst hx'
      exact hproperty hx haccessor
    · obtain ⟨s, hs, heq⟩ := List.mem_map.mp haccessor
      have hsmall : ∀ s ∈ Codec.accessorEnds, s.toList.any Char.isLower = true := by decide +kernel
      refine Identifier.constantName_ne ?_ heq.symm
      rw [String.toList_append, List.any_append, hsmall s (hb.known s hs), Bool.or_true]

theorem disjoint_names_iff {a b : Member} (ha : a.Regular) (hb : b.Regular) :
    a.names.Disjoint b.names ↔ a.property ≠ b.property ∧ a.Spares b ∧ b.Spares a := by
  rw [names, names, List.disjoint_append_left, List.disjoint_append_right, List.disjoint_append_right,
    disjoint_accessors_iff ha hb, disjoint_own_accessors_iff ha hb]
  have hba : a.accessors.Disjoint b.own ↔ b.Spares a :=
    List.disjoint_comm.trans (disjoint_own_accessors_iff hb ha)
  rw [hba]
  -- Nothing is asked of what the members have of their own: it differs where the attributes do.
  constructor
  · rintro ⟨⟨-, hab⟩, hba, hproperty⟩
    exact ⟨hproperty, hab, hba⟩
  · rintro ⟨hproperty, hab, hba⟩
    exact ⟨⟨disjoint_own ha hb hproperty, hab⟩, hba, hproperty⟩

/-- Whether no two members have one attribute, and no attribute is called like an accessor. -/
structure PropertiesApart (members : List Member) : Prop where
  nodup : (members.map property).Nodup
  accessors : ∀ a ∈ members, ∀ b ∈ members, a.Spares b

instance (members : List Member) : Decidable (PropertiesApart members) :=
  decidable_of_iff ((members.map property).Nodup ∧ ∀ a ∈ members, ∀ b ∈ members, a.Spares b)
    ⟨fun ⟨hnodup, haccessors⟩ => ⟨hnodup, haccessors⟩, fun h => ⟨h.nodup, h.accessors⟩⟩

/-- Different members have no name in common exactly if their attributes are apart. -/
theorem pairwise_iff {members : List Member} (hregular : ∀ m ∈ members, m.Regular) :
    (members.Pairwise fun a b => a.names.Disjoint b.names) ↔ PropertiesApart members := by
  have hnames : (members.Pairwise fun a b => a.names.Disjoint b.names) ↔
      members.Pairwise fun a b => a.property ≠ b.property ∧ a.Spares b ∧ b.Spares a :=
    List.Pairwise.iff_of_mem fun ha hb => disjoint_names_iff (hregular _ ha) (hregular _ hb)
  rw [hnames, List.pairwise_and_iff]
  -- A member spares itself, so sparing among different members is sparing among all.
  have hself : ∀ m ∈ members, m.Spares m ∧ m.Spares m := fun m hm =>
    ⟨fun _ => (hregular m hm).property_not_mem, fun _ => (hregular m hm).property_not_mem⟩
  have hsymm : Std.Symm fun a b : Member => a.Spares b ∧ b.Spares a := ⟨fun _ _ h => h.symm⟩
  constructor
  · rintro ⟨hnodup, hspares⟩
    exact ⟨List.pairwise_map.mpr hnodup, fun a ha b hb => (hspares.forall_of_forall hself ha hb).1⟩
  · rintro ⟨hnodup, hspares⟩
    exact ⟨List.pairwise_map.mp hnodup,
      List.pairwise_of_forall_mem_list fun a ha b hb => ⟨hspares a ha b hb, hspares b hb a ha⟩⟩

theorem names_disjoint_iff {m : Member} {reserved : List String} :
    m.names.Disjoint reserved ↔ m.own.Disjoint reserved ∧ m.accessors.Disjoint reserved :=
  List.disjoint_append_left

/-- Where no name of the class ends like an accessor, members are apart if their attributes are and nothing of
their own is called like a name of the class. -/
theorem apart_iff {reserved : List String} {members : List Member} (hregular : ∀ m ∈ members, m.Regular)
    (hends : ∀ suffix ∈ Codec.accessorEnds, ∀ name ∈ reserved, ¬ suffix.toList <:+ name.toList) :
    Apart reserved members ↔ PropertiesApart members ∧ ∀ m ∈ members, m.own.Disjoint reserved := by
  have haccessors : ∀ m ∈ members, m.accessors.Disjoint reserved := by
    intro m hm name haccessor hname
    obtain ⟨suffix, hsuffix, rfl⟩ := List.mem_map.mp haccessor
    refine hends suffix ((hregular m hm).known suffix hsuffix) _ hname ?_
    rw [String.toList_append]
    exact List.suffix_append ..
  constructor
  · rintro ⟨hpairwise, hreserved⟩
    exact ⟨(pairwise_iff hregular).mp hpairwise, fun m hm => (names_disjoint_iff.mp (hreserved m hm)).1⟩
  · rintro ⟨hproperties, hown⟩
    exact ⟨(pairwise_iff hregular).mpr hproperties,
      fun m hm => names_disjoint_iff.mpr ⟨hown m hm, haccessors m hm⟩⟩

theorem mem_names_iff {members : List Member} {name : String} : (∃ m ∈ members, name ∈ m.names) ↔
    (∃ m ∈ members, name ∈ m.own) ∨ ∃ m ∈ members, name ∈ m.accessors := by
  simp only [names, List.mem_append, and_or_left, exists_or]

end Member

/-! ## Names of a class -/

/-- The name that a statement of a class body binds. -/
def Code.Stmt.bound? : Stmt → Option String
  | .assign (.name name) _ => some name
  | _ => none

/-- The name that a statement binds in a class. -/
def Code.Stmt.boundIn? (owner : String) : Stmt → Option String
  | .assign (.member (.name target) name) _ => if target = owner then some name else none
  | _ => none

/-- The names that a class binds: its constants, its methods, and what is set in it after it. -/
def Code.ClassDef.bound (c : ClassDef) : List String :=
  c.constants.filterMap Stmt.bound? ++ c.methods.map Method.name ++ c.trailer.filterMap (Stmt.boundIn? c.name)

/-- Whether a class binds a name, or its objects have an attribute of that name, which is set when they are
read. -/
def Code.ClassDef.Has (c : ClassDef) (name : String) : Prop :=
  name ∈ c.bound ∨ ∃ m ∈ c.methods, m.name = "decode" ∧ ∃ sequence ∈ Stmt.setsAll m.body, name ∈ sequence

/-- Whether the names of a class are those that it relies on and those of its members. -/
def Code.ClassDef.HasNames (c : ClassDef) (reserved : List String) (members : List Member) : Prop :=
  ∀ name, c.Has name ↔ name ∈ reserved ∨ ∃ m ∈ members, name ∈ m.names

/-! ## Classes of plans -/

namespace Codec

/-- The ends of the accessors of versions. -/
def versionEnds : List String :=
  ["_since_version", "_in_acting_version", "_deprecated"]

theorem versionEnds_regular :
    "_since_version" ∈ versionEnds ∧ ∀ suffix ∈ versionEnds, suffix ∈ accessorEnds := by
  decide

/-- The ends of the accessors of a field. -/
def fieldEnds (field : Token) : List String :=
  if field.signal = .opens .field then "_id" :: (versionEnds ++ ["_meta_attribute"]) else versionEnds

/-- The ends of the accessors that a text of characters has on top of the others. -/
def textEnds (encoding : Token) : List String :=
  if encoding.primitive = some .char ∧ encoding.arrayLength.any (1 < ·) then ["_character_encoding"] else []

theorem names_versionAccessors (property : String) (t : Token) :
    (versionAccessors property t).map Method.name = versionEnds.map (property ++ ·) :=
  rfl

theorem names_fieldAccessors (property : String) (field : Token) :
    (fieldAccessors property field).map Method.name = (fieldEnds field).map (property ++ ·) := by
  rw [fieldAccessors, fieldEnds]
  split <;> rfl

theorem names_textAccessors {property : String} {type : Primitive} {encoding : Token} {notes : List Note}
    {methods : List Method} (htype : encoding.primitive = some type)
    (h : (textAccessors type property encoding).Yields notes methods) :
    methods.map Method.name = (textEnds encoding).map (property ++ ·) := by
  rw [textAccessors] at h
  rw [textEnds, htype]
  split at h
  · rename_i hchar
    obtain ⟨count, hcount, h⟩ := yields_bind.mp h
    rw [yields_countOf.mp hcount]
    split at h
    · rename_i hlong
      obtain ⟨_, -, h⟩ := yields_bind.mp h
      obtain rfl := yields_pure.mp h
      simp [hchar, hlong, characterEncodingAccessor, Method.static]
    · rename_i hshort
      obtain rfl := yields_pure.mp h
      simp [hshort]
  · rename_i hother
    obtain rfl := yields_pure.mp h
    simp [hother]

theorem names_primitiveBodies {owner : String} {field encoding : Token} {notes : List Note} {b : Bodies}
    (h : (primitiveBodies owner field encoding).Yields notes b) :
    b.accessors.map Method.name = (fieldEnds field ++ ["_min_value", "_max_value", "_null_value"] ++
      textEnds encoding).map (Identifier.propertyName field.name ++ ·) := by
  rw [primitiveBodies] at h
  obtain ⟨_, -, h⟩ := yields_bind.mp h
  obtain ⟨type, htype, h⟩ := yields_bind.mp h
  obtain ⟨bounds, -, h⟩ := yields_bind.mp h
  obtain ⟨_, -, h⟩ := yields_bind.mp h
  obtain ⟨texts, htexts, h⟩ := yields_bind.mp h
  obtain ⟨inner, -, h⟩ := yields_ite_bind.mp h
  obtain rfl := yields_pure.mp h
  simp only [List.map_append, names_fieldAccessors, names_textAccessors (yields_ofOption.mp htype) htexts]
  rfl

end Codec

namespace Step

/-- The ends of the accessors that a step adds. -/
def ends : Step → List String
  | .primitive field encoding =>
    Codec.fieldEnds field ++ ["_min_value", "_max_value", "_null_value"] ++ Codec.textEnds encoding
  | .typed _ _ field _ _ => Codec.fieldEnds field
  | .group .. => "_id" :: Codec.versionEnds
  | .varData .. =>
    "_id" :: (Codec.versionEnds ++ ["_meta_attribute", "_character_encoding", "_header_length"])
  | _ => []

/-- The member that a step is about. -/
def member? (s : Step) : Option Member :=
  s.attribute?.map fun property => { own := [property], property, ends := s.ends }

/-- The accessors that a step adds are those of its member. -/
theorem names_bodies {s : Step} {owner : String} {isExtensible : Bool} {notes : List Note} {b : Bodies}
    (h : (s.bodies owner isExtensible).Yields notes b) :
    b.accessors.map Method.name = (s.member?.map Member.accessors).getD [] := by
  cases s with
  | gap size since trailing =>
    obtain ⟨-, rfl | ⟨-, rfl⟩⟩ := Codec.yields_gapBodies h <;> rfl
  | primitive field encoding => exact Codec.names_primitiveBodies h
  | typed construct typeName field type nested =>
    obtain ⟨_, _, -, -, rfl⟩ := Codec.yields_typedBodies h
    exact Codec.names_fieldAccessors ..
  | extensionSkip known =>
    obtain ⟨-, ⟨_, rfl⟩ | ⟨_, _, rfl⟩⟩ := Codec.yields_skipBodies h <;> rfl
  | group token blockLength numInGroup element =>
    obtain ⟨_, _, _, -, -, -, hb⟩ := Codec.yields_groupBodies h
    rw [hb.accessors]
    rfl
  | varData token length data =>
    obtain ⟨_, _, _, -, -, -, hb⟩ := Codec.yields_varDataBodies h
    rw [hb.accessors]
    rfl
  | encodeValidation =>
    rw [← yields_pure.mp h]
    rfl
  | decodeValidation =>
    rw [← yields_pure.mp h]
    rfl

theorem names_flatMap_bodies {owner : String} {isExtensible : Bool} {notes : List Note} {steps : List Step}
    {bodies : List Bodies}
    (h : List.Forall₂ (fun s b => (s.bodies owner isExtensible).Yields notes b) steps bodies) :
    (bodies.flatMap Bodies.accessors).map Method.name = (steps.filterMap member?).flatMap Member.accessors := by
  induction h with
  | nil => rfl
  | @cons s b steps bodies hb _ ih =>
    rw [List.flatMap_cons, List.map_append, names_bodies hb, ih, List.filterMap_cons]
    cases s.member? <;> rfl

/-- A step about an attribute has the accessors that all have and none but known ones. -/
theorem ends_regular (s : Step) (h : s.attribute?.isSome = true) :
    "_since_version" ∈ s.ends ∧ ∀ suffix ∈ s.ends, suffix ∈ Codec.accessorEnds := by
  have hfield (field : Token) : "_since_version" ∈ Codec.fieldEnds field ∧
      ∀ suffix ∈ Codec.fieldEnds field, suffix ∈ Codec.accessorEnds := by
    rw [Codec.fieldEnds]
    split <;> decide
  have htext (encoding : Token) : ∀ suffix ∈ Codec.textEnds encoding, suffix ∈ Codec.accessorEnds := by
    rw [Codec.textEnds]
    split <;> decide
  cases s with
  | primitive field encoding =>
    refine ⟨List.mem_append_left _ (List.mem_append_left _ (hfield field).1), ?_⟩
    exact List.forall_mem_append.mpr ⟨List.forall_mem_append.mpr ⟨(hfield field).2, by decide⟩, htext encoding⟩
  | typed construct typeName field type nested => exact hfield field
  | group token blockLength numInGroup element =>
    rw [ends]
    decide
  | varData token length data =>
    rw [ends]
    decide
  | _ => cases h

theorem exists_name_of_attribute? {s : Step} {property : String} (h : s.attribute? = some property) :
    ∃ name, property = Identifier.propertyName name := by
  cases s with
  | primitive field encoding => exact ⟨field.name, (Option.some.inj h).symm⟩
  | typed construct typeName field type nested => exact ⟨field.name, (Option.some.inj h).symm⟩
  | group token blockLength numInGroup element => exact ⟨token.name, (Option.some.inj h).symm⟩
  | varData token length data => exact ⟨token.name, (Option.some.inj h).symm⟩
  | _ => cases h

theorem own_of_member? {s : Step} {m : Member} (h : s.member? = some m) :
    m.own = [m.property] ∧ s.attribute? = some m.property ∧ m.ends = s.ends := by
  obtain ⟨property, hproperty, rfl⟩ := Option.map_eq_some_iff.mp h
  exact ⟨rfl, hproperty, rfl⟩

theorem regular_of_member? {s : Step} {m : Member} (h : s.member? = some m) : m.Regular := by
  obtain ⟨hown, hproperty, hends⟩ := own_of_member? h
  obtain ⟨name, hname⟩ := exists_name_of_attribute? hproperty
  have hregular := s.ends_regular (by rw [hproperty]; rfl)
  rw [← hends] at hregular
  refine ⟨⟨name, hname, fun x hx => .inl ?_⟩, hregular.1, hregular.2⟩
  rw [hown] at hx
  exact (List.mem_singleton.mp hx).trans hname

end Step

namespace Plan

/-- The members of the class of a plan. -/
def members (p : Plan) : List Member :=
  p.steps.filterMap Step.member?

/-- The names that the class of a plan relies on. -/
def reserved (p : Plan) : List String :=
  ["__init__", "__eq__", "__repr__", "encode", "decode", "range_check", "init", "encoded_length"] ++
    if p.kind = .message then
      ["sbe_block_length", "sbe_template_id", "sbe_schema_id", "sbe_schema_version", "sbe_semantic_type"]
    else if p.kind = .group then ["sbe_block_length", "sbe_schema_version"]
    else []

theorem regular_of_mem_members {p : Plan} : ∀ m ∈ p.members, m.Regular := by
  intro m hm
  obtain ⟨s, -, hs⟩ := List.mem_filterMap.mp hm
  exact Step.regular_of_member? hs

theorem own_of_mem_members {p : Plan} : ∀ m ∈ p.members, m.own = [m.property] := by
  intro m hm
  obtain ⟨s, -, hs⟩ := List.mem_filterMap.mp hm
  exact (Step.own_of_member? hs).1

/-- The attributes of a plan are those of its members. -/
theorem attributes_eq (p : Plan) : Step.attributes p.steps = p.members.map Member.property := by
  rw [Step.attributes, members, List.map_filterMap]
  refine List.filterMap_congr fun s _ => ?_
  rw [Step.member?, Option.map_map]
  exact Option.map_id'.symm

variable {e : Edition} {notes : List Note} {p : Plan} {c : ClassDef} {bodies : List Bodies}

theorem numberMethods_names {numbers : List Method} (h : p.numberMethods e = some numbers) :
    ["__init__", "__eq__", "__repr__", "encode", "decode", "range_check", "init", "encoded_length"] ++
      numbers.map Method.name = p.reserved := by
  rw [numberMethods.eq_def] at h
  dsimp only at h
  split at h
  · rename_i hkind
    obtain ⟨token, -, h⟩ := Option.bind_eq_some_iff.mp h
    obtain rfl := Option.some.inj h
    rw [reserved, if_pos hkind]
    rfl
  · rename_i hkind
    obtain rfl := Option.some.inj h
    rw [reserved, if_neg (by simp [hkind]), if_pos hkind]
    rfl
  · rename_i hmessage hgroup
    obtain rfl := Option.some.inj h
    rw [reserved, if_neg hmessage, if_neg hgroup]
    rfl

/-- What the class of a plan binds: what it relies on, and the accessors of its members. -/
theorem Emitted.bound_eq (h : p.Emitted e notes c bodies) :
    c.bound = p.reserved ++ p.members.flatMap Member.accessors := by
  have hclass := h.classOf
  rw [Plan.classOf] at hclass
  obtain ⟨doc, -, hclass⟩ := Option.bind_eq_some_iff.mp hclass
  obtain ⟨numbers, hnumbers, hclass⟩ := Option.bind_eq_some_iff.mp hclass
  obtain rfl := Option.some.inj hclass
  rw [← numberMethods_names hnumbers, members, ← Step.names_flatMap_bodies h.steps, ← Bodies.accessors_join]
  simp [ClassDef.bound, objectMethods, Method.static]

/-- One method reads, and it does what the steps add to it. -/
theorem Emitted.decode_iff (h : p.Emitted e notes c bodies) (body : List Stmt) :
    (∃ m ∈ c.methods, m.name = "decode" ∧ m.body = body) ↔ body = (Bodies.join bodies).decode := by
  have haccessors : ∀ m ∈ (Bodies.join bodies).accessors, m.name ≠ "decode" := by
    rw [Bodies.accessors_join]
    intro m hm
    obtain ⟨property, hproperty⟩ := h.isAccessorOf m hm
    exact hproperty.name_ne (by decide)
  have hclass := h.classOf
  rw [Plan.classOf] at hclass
  obtain ⟨doc, -, hclass⟩ := Option.bind_eq_some_iff.mp hclass
  obtain ⟨numbers, hnumbers, hclass⟩ := Option.bind_eq_some_iff.mp hclass
  obtain rfl := Option.some.inj hclass
  have hnumbers : ∀ m ∈ numbers, m.name ≠ "decode" := numberMethods_name_ne hnumbers (by decide)
  constructor
  · rintro ⟨m, hm, hname, rfl⟩
    simp only [objectMethods, List.mem_append, List.mem_cons, List.not_mem_nil, or_false] at hm
    -- Neither the numbers of an entity nor the accessors of its members have a method of this name.
    rcases hm with (hfront | hm) | hm
    · rcases hfront with (rfl | rfl | rfl) | rfl | rfl | rfl | rfl | rfl
      all_goals first
        | rfl
        | simp [Method.static] at hname
    · exact absurd hname (hnumbers m hm)
    · exact absurd hname (haccessors m hm)
  · rintro rfl
    exact ⟨_, List.mem_append_left _ (List.mem_append_left _ (List.mem_append_right _
      (List.mem_cons_of_mem _ (List.mem_cons_self ..)))), rfl, rfl⟩

/-- **The names of the class of a plan** are those that it relies on and those of its members. -/
theorem Emitted.hasNames (h : p.Emitted e notes c bodies) (hsteps : ∀ s ∈ p.steps, s.Recorded) :
    c.HasNames p.reserved p.members := by
  -- All attributes are set on each way through the method that reads, so it tells which ones objects have.
  have hsets := (Step.lockStepWith_join hsteps h.steps).decode
  rw [attributes_eq] at hsets
  have hdecode (name : String) : (∃ m ∈ c.methods, m.name = "decode" ∧ ∃ sequence ∈ Stmt.setsAll m.body,
      name ∈ sequence) ↔ ∃ m ∈ p.members, name ∈ m.own := by
    constructor
    · rintro ⟨m, hm, hname, sequence, hsequence, hmem⟩
      rw [(h.decode_iff m.body).mp ⟨m, hm, hname, rfl⟩] at hsequence
      rw [(hsets sequence).mp hsequence] at hmem
      obtain ⟨m, hm, rfl⟩ := List.mem_map.mp hmem
      exact ⟨m, hm, by simp [own_of_mem_members m hm]⟩
    · rintro ⟨member, hmember, hname⟩
      rw [own_of_mem_members member hmember, List.mem_singleton] at hname
      obtain ⟨m, hm, hread, hbody⟩ := (h.decode_iff _).mpr rfl
      refine ⟨m, hm, hread, _, hbody ▸ (hsets _).mpr rfl, ?_⟩
      rw [hname]
      exact List.mem_map_of_mem hmember
  intro name
  rw [ClassDef.Has, h.bound_eq, hdecode, List.mem_append, List.mem_flatMap, or_assoc, Member.mem_names_iff]
  exact or_congr_right or_comm

/-- The names that classes of plans rely on which end like accessors are two numbers of messages. -/
theorem eq_id_of_suffix_reserved {name suffix : String} (hname : name ∈ p.reserved)
    (hsuffix : suffix ∈ Codec.accessorEnds) (h : suffix.toList <:+ name.toList) :
    p.kind = .message ∧ suffix = "_id" ∧ name ∈ ["sbe_template_id", "sbe_schema_id"] := by
  have hcommon : ∀ suffix ∈ Codec.accessorEnds, ∀ name ∈ ["__init__", "__eq__", "__repr__", "encode", "decode",
      "range_check", "init", "encoded_length", "sbe_block_length", "sbe_schema_version", "sbe_semantic_type"],
      ¬ suffix.toList <:+ name.toList := by
    decide +kernel
  have hnumber : ∀ suffix ∈ Codec.accessorEnds, ∀ name ∈ ["sbe_template_id", "sbe_schema_id"],
      suffix.toList <:+ name.toList → suffix = "_id" := by
    decide +kernel
  have hcases : name ∈ ["__init__", "__eq__", "__repr__", "encode", "decode", "range_check", "init",
        "encoded_length", "sbe_block_length", "sbe_schema_version", "sbe_semantic_type"] ∨
      p.kind = .message ∧ name ∈ ["sbe_template_id", "sbe_schema_id"] := by
    rw [reserved] at hname
    split_ifs at hname
    all_goals
      simp only [List.mem_append, List.mem_cons, List.not_mem_nil, or_false] at hname ⊢
      tauto
  rcases hcases with hname | ⟨hkind, hname⟩
  · exact absurd h (hcommon suffix hsuffix name hname)
  · exact ⟨hkind, hnumber suffix hsuffix name hname h, hname⟩

/-- An accessor is called like a name that the class relies on only if it tells the number of an attribute of a
message that is called like one of two numbers of messages. -/
theorem append_mem_reserved_iff {property suffix : String} (h : suffix ∈ Codec.accessorEnds) :
    property ++ suffix ∈ p.reserved ↔
      p.kind = .message ∧ suffix = "_id" ∧ property ∈ ["sbe_template", "sbe_schema"] := by
  constructor
  · intro hname
    have hends : suffix.toList <:+ (property ++ suffix).toList := by
      rw [String.toList_append]
      exact List.suffix_append ..
    obtain ⟨hkind, rfl, hname⟩ := eq_id_of_suffix_reserved hname h hends
    refine ⟨hkind, rfl, ?_⟩
    have hsplit (word : String) (hword : property ++ "_id" = word ++ "_id") : property = word :=
      (Codec.append_accessorEnd_inj h h hword).1
    simp only [List.mem_cons, List.not_mem_nil, or_false] at hname ⊢
    rcases hname with hname | hname
    · exact .inl (hsplit "sbe_template" hname)
    · exact .inr (hsplit "sbe_schema" hname)
  · rintro ⟨hkind, rfl, hproperty⟩
    rw [reserved, hkind]
    simp only [List.mem_cons, List.not_mem_nil, or_false] at hproperty
    rcases hproperty with rfl | rfl <;> decide

/-- Whether no accessor tells the number of an attribute under the name of a number of messages. -/
def NumbersApart (p : Plan) : Prop :=
  p.kind = .message → ∀ m ∈ p.members, "_id" ∈ m.ends → m.property ∉ ["sbe_template", "sbe_schema"]

instance (p : Plan) : Decidable p.NumbersApart :=
  inferInstanceAs (Decidable (_ → _))

/-- Whether the attributes of a plan keep away from each other, from accessors, and from the names that the
class relies on, and the accessors from those names too. -/
structure NamesApart (p : Plan) : Prop where
  properties : Member.PropertiesApart p.members
  reserved : ∀ m ∈ p.members, m.property ∉ p.reserved
  numbers : p.NumbersApart

instance (p : Plan) : Decidable p.NamesApart :=
  decidable_of_iff
    (Member.PropertiesApart p.members ∧ (∀ m ∈ p.members, m.property ∉ p.reserved) ∧ p.NumbersApart)
    ⟨fun ⟨hproperties, hreserved, hnumbers⟩ => ⟨hproperties, hreserved, hnumbers⟩,
      fun h => ⟨h.properties, h.reserved, h.numbers⟩⟩

theorem disjoint_accessors_reserved_iff (p : Plan) :
    (∀ m ∈ p.members, m.accessors.Disjoint p.reserved) ↔ p.NumbersApart := by
  constructor
  · intro hdisjoint hkind m hm hid hproperty
    exact hdisjoint m hm (List.mem_map_of_mem hid)
      ((append_mem_reserved_iff (by decide)).mpr ⟨hkind, rfl, hproperty⟩)
  · intro hnumbers m hm name haccessor hname
    obtain ⟨suffix, hsuffix, rfl⟩ := List.mem_map.mp haccessor
    obtain ⟨hkind, rfl, hproperty⟩ :=
      (append_mem_reserved_iff ((regular_of_mem_members m hm).known suffix hsuffix)).mp hname
    exact hnumbers hkind m hm hsuffix hproperty

theorem apart_iff (p : Plan) : Member.Apart p.reserved p.members ↔ p.NamesApart := by
  have hnames : (∀ m ∈ p.members, m.names.Disjoint p.reserved) ↔
      (∀ m ∈ p.members, m.property ∉ p.reserved) ∧ p.NumbersApart := by
    rw [← disjoint_accessors_reserved_iff]
    simp only [Member.names_disjoint_iff, ← forall₂_and]
    refine forall₂_congr fun m hm => ?_
    rw [own_of_mem_members m hm, List.singleton_disjoint]
  constructor
  · rintro ⟨hpairwise, hreserved⟩
    obtain ⟨hproperties, hnumbers⟩ := hnames.mp hreserved
    exact ⟨(Member.pairwise_iff regular_of_mem_members).mp hpairwise, hproperties, hnumbers⟩
  · rintro ⟨hproperties, hreserved, hnumbers⟩
    exact ⟨(Member.pairwise_iff regular_of_mem_members).mpr hproperties,
      hnames.mpr ⟨hreserved, hnumbers⟩⟩

end Plan

/-! ## Enumerations -/

namespace Enumeration

/-- The members of the class of an enumeration are its values. -/
def members (e : Enumeration) : List Member :=
  e.values.map fun v =>
    { own := [v.name], property := Identifier.propertyName v.token.name, ends := Codec.versionEnds }

/-- The names that the class of an enumeration relies on. -/
def reserved : List String :=
  ["__slots__", "__repr__", "encode", "decode", "range_check", "encoded_length", "NULL_VALUE", "_NAMES"]

/-- A value is called like the constant of its name. -/
theorem Describes.name_eq {tokens : List Token} {e : Enumeration} (h : Describes tokens e) :
    ∀ v ∈ e.values, v.name = Identifier.constantName v.token.name := by
  intro v hv
  obtain ⟨t, -, hvalue⟩ := exists_of_mem_mapM h.values hv
  obtain ⟨rfl, hname⟩ := of_enumerator hvalue
  exact hname

theorem Describes.regular {tokens : List Token} {e : Enumeration} (h : Describes tokens e) :
    ∀ m ∈ e.members, m.Regular := by
  intro m hm
  obtain ⟨v, hv, rfl⟩ := List.mem_map.mp hm
  exact ⟨⟨v.token.name, rfl, by simp [h.name_eq v hv]⟩, Codec.versionEnds_regular.1,
    Codec.versionEnds_regular.2⟩

/-- What the class of an enumeration binds: what it relies on, and the accessors and constants of its values. -/
theorem mem_bound_iff (e : Enumeration) (name : String) :
    name ∈ e.toClass.bound ↔ name ∈ reserved ∨ ∃ m ∈ e.members, name ∈ m.names := by
  have hbound : e.toClass.bound =
      ["__slots__"] ++ (["__repr__", "encode", "decode", "range_check", "encoded_length"] ++
        e.members.flatMap Member.accessors) ++ (e.values.map Enumerator.name ++ ["NULL_VALUE", "_NAMES"]) := by
    simp [ClassDef.bound, toClass, setMember, names, Stmt.bound?, Stmt.boundIn?, members, Member.accessors,
      Method.static, showMethod, encodeMethod, decodeMethod, rangeCheckMethod, List.flatMap_map, List.map_flatMap,
      Codec.names_versionAccessors, Function.comp_def]
  have hown : name ∈ e.values.map Enumerator.name ↔ ∃ m ∈ e.members, name ∈ m.own := by
    simp [members, eq_comm]
  have hreserved : reserved = ["__slots__"] ++ ["__repr__", "encode", "decode", "range_check",
    "encoded_length"] ++ ["NULL_VALUE", "_NAMES"] := rfl
  rw [hbound, Member.mem_names_iff, hreserved]
  simp only [List.mem_append, hown, List.mem_flatMap, or_assoc, or_comm, or_left_comm]

/-- Reading a value sets no attribute: it makes a new one. -/
theorem setsAll_decode (e : Enumeration) :
    ∀ m ∈ e.toClass.methods, m.name = "decode" → Stmt.setsAll m.body = [[]] := by
  intro m hm hname
  rcases List.mem_append.mp hm with hm | hm
  · simp only [List.mem_cons, List.not_mem_nil, or_false] at hm
    rcases hm with rfl | rfl | rfl | rfl | rfl
    · exact absurd (show "__repr__" = "decode" from hname) (by decide)
    · exact absurd (show "encode" = "decode" from hname) (by decide)
    · rfl
    · exact absurd (show "range_check" = "decode" from hname) (by decide)
    · exact absurd (show "encoded_length" = "decode" from hname) (by decide)
  · obtain ⟨v, -, hm⟩ := List.mem_flatMap.mp hm
    exact absurd hname ((Codec.isAccessorOf_versionAccessors _ _ m hm).name_ne (by decide))

/-- **The names of the class of an enumeration** are those that it relies on and those of its values. -/
theorem hasNames (e : Enumeration) : e.toClass.HasNames reserved e.members := by
  intro name
  rw [ClassDef.Has, mem_bound_iff, or_iff_left]
  rintro ⟨m, hm, hname, sequence, hsequence, hmem⟩
  rw [setsAll_decode e m hm hname, List.mem_singleton] at hsequence
  rw [hsequence] at hmem
  cases hmem

/-- A value keeps away from the names of the class if its constant is neither of two. -/
theorem Describes.apart_iff {tokens : List Token} {e : Enumeration} (h : Describes tokens e) :
    Member.Apart reserved e.members ↔
      Member.PropertiesApart e.members ∧ ∀ v ∈ e.values, v.name ∉ ["NULL_VALUE", "_NAMES"] := by
  rw [Member.apart_iff h.regular (by decide +kernel)]
  refine and_congr_right fun _ => ?_
  rw [members, List.forall_mem_map]
  refine forall₂_congr fun v hv => ?_
  rw [List.singleton_disjoint, h.name_eq v hv, Identifier.constantName_mem_iff]
  rfl

end Enumeration

/-! ## Choice sets -/

namespace ChoiceSet

/-- The members of the class of a set are its choices. -/
def members (s : ChoiceSet) : List Member :=
  s.choices.map fun c => { own := [c.property, c.constant], property := c.property, ends := Codec.versionEnds }

/-- The names that the class of a set relies on. -/
def reserved : List String :=
  ["_CHOICES", "__init__", "__eq__", "__repr__", "encode", "decode", "encoded_length", "bits"]

theorem names_of_choice {set : String} {width : Int} {t : Token} {c : Choice} (h : choice set width t = .ok c) :
    c.property = Identifier.propertyName t.name ∧ c.constant = Identifier.constantName t.name := by
  rw [choice] at h
  obtain ⟨bit, -, h⟩ := except_bind_ok h
  split at h
  · obtain rfl := Except.ok.inj h
    exact ⟨rfl, rfl⟩
  · cases h

theorem Describes.regular {tokens : List Token} {s : ChoiceSet} (h : Describes tokens s) :
    ∀ m ∈ s.members, m.Regular := by
  intro m hm
  obtain ⟨c, hc, rfl⟩ := List.mem_map.mp hm
  obtain ⟨t, ht⟩ := h.choices c hc
  obtain ⟨hproperty, hconstant⟩ := names_of_choice ht
  exact ⟨⟨t.name, hproperty, by simp [hproperty, hconstant]⟩, Codec.versionEnds_regular.1,
    Codec.versionEnds_regular.2⟩

/-- What the class of a set binds, and the bits that its objects have: what it relies on, and the attributes,
constants and accessors of its choices. -/
theorem mem_bound_iff (s : ChoiceSet) (name : String) :
    name ∈ s.toClass.bound ∨ name = "bits" ↔ name ∈ reserved ∨ ∃ m ∈ s.members, name ∈ m.names := by
  have hbound : s.toClass.bound = s.choices.map Choice.constant ++ ["_CHOICES"] ++
      (["__init__", "__eq__", "__repr__", "encode", "decode", "encoded_length"] ++
        s.choices.flatMap fun c => [c.property, c.property] ++ Codec.versionEnds.map (c.property ++ ·)) := by
    simp [ClassDef.bound, toClass, Stmt.bound?, Method.static, initMethod, equalMethod, showMethod, encodeMethod,
      decodeMethod, choiceMethods, List.map_flatMap, Codec.names_versionAccessors, Function.comp_def,
      List.filterMap_append, List.filterMap_map]
  have hnames : (∃ m ∈ s.members, name ∈ m.names) ↔ name ∈ s.choices.map Choice.constant ∨
      name ∈ s.choices.flatMap fun c => [c.property, c.property] ++ Codec.versionEnds.map (c.property ++ ·) := by
    simp only [members, List.mem_map, exists_exists_and_eq_and, Member.names, Member.accessors, List.mem_flatMap,
      List.mem_append, List.mem_cons, List.not_mem_nil, or_false, or_self, ← exists_or, ← and_or_left]
    refine exists_congr fun c => and_congr_right fun _ => ?_
    rw [or_comm (a := name = c.property), or_assoc, eq_comm (a := name) (b := c.constant)]
  have hreserved : reserved = ["_CHOICES"] ++ ["__init__", "__eq__", "__repr__", "encode", "decode",
    "encoded_length"] ++ ["bits"] := rfl
  rw [hbound, hnames, hreserved, ← List.mem_singleton (a := name)]
  simp only [List.mem_append, or_assoc, or_comm, or_left_comm]

/-- Reading a set sets its bits, and no choice that is called like the method that reads sets anything. -/
theorem setsAll_decode (s : ChoiceSet) (name : String) :
    (∃ m ∈ s.toClass.methods, m.name = "decode" ∧ ∃ sequence ∈ Stmt.setsAll m.body, name ∈ sequence) ↔
      name = "bits" := by
  have hbits : Stmt.setsAll s.decodeMethod.body = [["bits"]] := rfl
  constructor
  · rintro ⟨m, hm, hname, sequence, hsequence, hmem⟩
    rcases List.mem_append.mp hm with hm | hm
    · simp only [List.mem_cons, List.not_mem_nil, or_false] at hm
      rcases hm with rfl | rfl | rfl | rfl | rfl | rfl
      · exact absurd (show "__init__" = "decode" from hname) (by decide)
      · exact absurd (show "__eq__" = "decode" from hname) (by decide)
      · exact absurd (show "__repr__" = "decode" from hname) (by decide)
      · exact absurd (show "encode" = "decode" from hname) (by decide)
      · rw [hbits, List.mem_singleton] at hsequence
        rw [hsequence] at hmem
        exact List.mem_singleton.mp hmem
      · exact absurd (show "encoded_length" = "decode" from hname) (by decide)
    · obtain ⟨c, -, hm⟩ := List.mem_flatMap.mp hm
      -- The setter of a choice sets an item of the bits, which is no attribute.
      have hnothing : ∀ m ∈ choiceMethods c, Stmt.setsAll m.body = [[]] := by
        intro m hm
        simp only [choiceMethods, Codec.versionAccessors, List.mem_append, List.mem_cons, List.not_mem_nil,
          or_false] at hm
        rcases hm with (rfl | rfl) | rfl | rfl | rfl <;> rfl
      rw [hnothing m hm, List.mem_singleton] at hsequence
      rw [hsequence] at hmem
      cases hmem
  · rintro rfl
    exact ⟨s.decodeMethod, by simp [toClass], rfl, _, hbits ▸ List.mem_singleton_self _, by simp⟩

/-- **The names of the class of a set** are those that it relies on and those of its choices. -/
theorem hasNames (s : ChoiceSet) : s.toClass.HasNames reserved s.members := by
  intro name
  rw [ClassDef.Has, setsAll_decode, mem_bound_iff]

/-- A choice keeps away from the names of the class if its attribute is none of them and its constant is not the
list of choices. -/
theorem Describes.apart_iff {tokens : List Token} {s : ChoiceSet} (h : Describes tokens s) :
    Member.Apart reserved s.members ↔ Member.PropertiesApart s.members ∧ ∀ c ∈ s.choices,
      c.property ∉ ["__init__", "__eq__", "__repr__", "encode", "decode", "encoded_length", "bits"] ∧
        c.constant ≠ "_CHOICES" := by
  rw [Member.apart_iff h.regular (by decide +kernel)]
  refine and_congr_right fun _ => ?_
  rw [members, List.forall_mem_map]
  refine forall₂_congr fun c hc => ?_
  obtain ⟨t, ht⟩ := h.choices c hc
  obtain ⟨hproperty, hconstant⟩ := names_of_choice ht
  have hlower : reserved.filter (fun s => Identifier.lower s == s) =
      ["__init__", "__eq__", "__repr__", "encode", "decode", "encoded_length", "bits"] := by decide +kernel
  have hupper : reserved.filter (fun s => !s.toList.any Char.isLower) = ["_CHOICES"] := by decide +kernel
  rw [List.disjoint_cons_left, List.singleton_disjoint, hproperty, hconstant, Identifier.propertyName_mem_iff,
    Identifier.constantName_mem_iff, hlower, hupper, List.mem_singleton]

end ChoiceSet

/-! ## All classes -/

/-- **When the members of a class are apart.** For each class of a message or a composite, of an enumeration and of
a set, the names are those that it relies on and those of its members, and these are apart exactly under
conditions on attributes alone: no two are alike, none is called like an accessor, and none is a name of the
class. -/
theorem members_apart_iff (tokens : List Token) :
    (∀ (e : Edition) (name : String) (p : Plan) (cs : List ClassDef),
      Plan.ofMessage name tokens = .ok p ∨ Plan.ofComposite name tokens = .ok p →
      (p.classes e).outcome = .ok cs →
      List.Forall₂ (fun q c => c.HasNames q.reserved q.members ∧
        (Member.Apart q.reserved q.members ↔ q.NamesApart)) p.plans cs) ∧
    (∀ e : Enumeration, (Enumeration.ofTokens tokens).outcome = .ok e →
      e.toClass.HasNames Enumeration.reserved e.members ∧ (Member.Apart Enumeration.reserved e.members ↔
        Member.PropertiesApart e.members ∧ ∀ v ∈ e.values, v.name ∉ ["NULL_VALUE", "_NAMES"])) ∧
    (∀ s : ChoiceSet, (ChoiceSet.ofTokens tokens).outcome = .ok s →
      s.toClass.HasNames ChoiceSet.reserved s.members ∧ (Member.Apart ChoiceSet.reserved s.members ↔
        Member.PropertiesApart s.members ∧ ∀ c ∈ s.choices,
          c.property ∉ ["__init__", "__eq__", "__repr__", "encode", "decode", "encoded_length", "bits"] ∧
            c.constant ≠ "_CHOICES")) := by
  refine ⟨fun e name p cs hp hcs => ?_, fun e he => ?_, fun s hs => ?_⟩
  · have hwalked : p.Walked := hp.elim Plan.walked_ofMessage Plan.walked_ofComposite
    have hemitted := Plan.emitted_classes (yields_self hcs)
    refine List.forall₂_iff_get.mpr ⟨hemitted.length_eq, fun i hi hc => ?_⟩
    obtain ⟨bodies, hbodies⟩ := hemitted.get hi hc
    have hrecorded := (hwalked.plans _ (List.get_mem p.plans ⟨i, hi⟩)).recorded
    exact ⟨hbodies.hasNames hrecorded, Plan.apart_iff _⟩
  · exact ⟨e.hasNames, (Enumeration.describes_of_ofTokens he).apart_iff⟩
  · exact ⟨s.hasNames, (ChoiceSet.describes_of_ofTokens hs).apart_iff⟩

/-- The members of a report and of its legs are apart, and so are the sides of an order and its conditions. -/
theorem reportPlan_members_apart :
    (∃ p cs, Plan.ofMessage "Report" reportTokens = .ok p ∧ (p.classes reportEdition).outcome = .ok cs ∧
      cs.length = 2 ∧ List.Forall₂ (fun q c => c.HasNames q.reserved q.members ∧
        Member.Apart q.reserved q.members) p.plans cs) ∧
    (∃ e, (Enumeration.ofTokens sideTokens).outcome = .ok e ∧ e.values.length = 1 ∧
      Member.Apart Enumeration.reserved e.members) ∧
    ∃ s, (ChoiceSet.ofTokens conditionTokens).outcome = .ok s ∧ s.choices.length = 1 ∧
      Member.Apart ChoiceSet.reserved s.members := by
  refine ⟨?_, ?_, ?_⟩
  · obtain ⟨p, cs, hp, hcs, hlength, -⟩ := exists_reportPlan
    -- The attributes are computed, and that they are apart; the rest is the theorem.
    have hall : ((Plan.ofMessage "Report" reportTokens).toOption.all fun p =>
        decide (∀ q ∈ p.plans, q.NamesApart)) = true := by
      decide +kernel
    rw [hp] at hall
    have hapart : ∀ q ∈ p.plans, q.NamesApart := of_decide_eq_true hall
    refine ⟨p, cs, hp, hcs, hlength, ?_⟩
    have hclasses := (members_apart_iff reportTokens).1 reportEdition "Report" p cs (.inl hp) hcs
    refine List.forall₂_iff_get.mpr ⟨hclasses.length_eq, fun i hi hc => ?_⟩
    obtain ⟨hnames, hiff⟩ := hclasses.get hi hc
    exact ⟨hnames, hiff.mpr (hapart _ (List.get_mem p.plans ⟨i, hi⟩))⟩
  · have hcomputed : ((Enumeration.ofTokens sideTokens).outcome.map fun e => (e.values.length,
        decide (Member.PropertiesApart e.members ∧ ∀ v ∈ e.values, v.name ∉ ["NULL_VALUE", "_NAMES"]))).toOption =
          some (1, true) := by
      decide +kernel
    obtain ⟨e, he, hvalues⟩ := exists_of_computed hcomputed
    simp only [Prod.mk.injEq, decide_eq_true_eq] at hvalues
    exact ⟨e, he, hvalues.1, ((members_apart_iff sideTokens).2.1 e he).2.mpr hvalues.2⟩
  · have hcomputed : ((ChoiceSet.ofTokens conditionTokens).outcome.map fun s => (s.choices.length,
        decide (Member.PropertiesApart s.members ∧ ∀ c ∈ s.choices,
          c.property ∉ ["__init__", "__eq__", "__repr__", "encode", "decode", "encoded_length", "bits"] ∧
            c.constant ≠ "_CHOICES"))).toOption = some (1, true) := by
      decide +kernel
    obtain ⟨s, hs, hchoices⟩ := exists_of_computed hcomputed
    simp only [Prod.mk.injEq, decide_eq_true_eq] at hchoices
    exact ⟨s, hs, hchoices.1, ((members_apart_iff conditionTokens).2.2 s hs).2.mpr hchoices.2⟩

/-- The tokens of a quote whose two prices have different names and one attribute. -/
def twinTokens : List Token := [
  { signal := .opens .message, name := "quote", encodedLength := some 2, tokenCount := some 8 },
  { signal := .opens .field, name := "lastPrice", tokenCount := some 3 },
  { signal := .encoding, name := "uint8", encodedLength := some 1
    encoding := { primitive := some .uint8 } },
  { signal := .closes .field, name := "lastPrice", tokenCount := some 3 },
  { signal := .opens .field, name := "last_price", tokenCount := some 3 },
  { signal := .encoding, name := "uint8", encodedLength := some 1
    encoding := { primitive := some .uint8 } },
  { signal := .closes .field, name := "last_price", tokenCount := some 3 },
  { signal := .closes .message, name := "quote", tokenCount := some 8 }]

/-- The tokens of a set with a choice that is called like the list of its bits. -/
def bitsTokens : List Token := [
  { signal := .opens .choiceSet, name := "mask", encodedLength := some 1
    encoding := { primitive := some .uint8 } },
  { signal := .choice, name := "bits", encoding := { constValue := some "0" } },
  { signal := .closes .choiceSet, name := "mask" }]

/-- The quote and the set become classes, but the prices of the quote share all their names, and the choice of
the set takes the name of its bits. -/
theorem twinTokens_collide :
    (∃ p cs, Plan.ofMessage "Quote" twinTokens = .ok p ∧ (p.classes reportEdition).outcome = .ok cs ∧
      ((twinTokens.filter (·.signal = .opens .field)).map Token.name).Nodup ∧
      p.members.map Member.property = ["last_price", "last_price"] ∧ ¬ Member.Apart p.reserved p.members) ∧
    ∃ s, (ChoiceSet.ofTokens bitsTokens).outcome = .ok s ∧ s.choices.map Choice.property = ["bits"] ∧
      ¬ Member.Apart ChoiceSet.reserved s.members := by
  have hquote : ((Plan.ofMessage "Quote" twinTokens).map fun p => (p.members.map Member.property,
      ((p.classes reportEdition).outcome.map List.length).toOption)).toOption =
        some (["last_price", "last_price"], some 1) := by
    decide +kernel
  have hmask : ((ChoiceSet.ofTokens bitsTokens).outcome.map fun s => s.choices.map Choice.property).toOption =
      some ["bits"] := by
    decide +kernel
  obtain ⟨p, hp, hquote⟩ := exists_of_computed hquote
  obtain ⟨s, hs, hproperties⟩ := exists_of_computed hmask
  obtain ⟨hproperty, hclasses⟩ := Prod.mk.inj hquote
  obtain ⟨cs, hcs, -⟩ := exists_of_computed hclasses
  refine ⟨⟨p, cs, hp, hcs, by decide +kernel, hproperty, fun hapart => ?_⟩, s, hs, hproperties, fun hapart => ?_⟩
  · have hnodup := (p.apart_iff.mp hapart).properties.nodup
    rw [hproperty] at hnodup
    exact absurd hnodup (by decide)
  · have hchoices := ((ChoiceSet.describes_of_ofTokens hs).apart_iff.mp hapart).2
    have hbits : "bits" ∈ s.choices.map Choice.property := by
      rw [hproperties]
      exact List.mem_singleton_self _
    obtain ⟨c, hc, hproperty⟩ := List.mem_map.mp hbits
    exact (hchoices c hc).1 (by simp [hproperty])

end SimpleBinary

import SimpleBinary.Codec.ChoiceSet
import SimpleBinary.Codec.Enumeration
import SimpleBinary.Proofs.Class.Reading
import SimpleBinary.Proofs.Class.Sizes

/-!
What the rendered source of a composite reads.

`decode` asks the accessors of its class which members are there in the acting version, and takes bytes from
the reader: it reads values, throws gaps away, and lets objects read themselves. `Stmt.readsBy?` runs these
statements and counts the bytes; tests are decided by the methods that the class has in the end
(`ClassDef.holdsAt?`). So run, the class of a composite reads step by step what its plan says
(`Plan.classes_decode`), and altogether what the walk has counted for it exactly if no part of it is newer
than what holds it (`Plan.composite_balances`).
-/

set_option autoImplicit false

namespace SimpleBinary

open Code Emission

/-! ## Running statements that read -/

namespace Code

/-- The number of bytes that an expression takes from the reader by itself; an object that reads itself takes
a given number. -/
def Expr.takes (object : Int) : Expr → Int
  | .call function (.name argument :: rest) =>
    if argument = "reader" then
      match function, rest with
      | .name function, [.int (some size)] =>
        if function = Helper.readExact.name ∨ function = Helper.discard.name then size else 0
      | .member _ method, _ => if method = "decode" then object else 0
      | _, _ => 0
    else 0
  | _ => 0

/-- The number of bytes that all parts of a statement take from the reader. -/
def Stmt.takes (object : Int) (s : Stmt) : Int :=
  ((s.parts Expr.never).map (Expr.takes object)).sum

mutual

/-- The number of bytes that a statement reads, given which tests hold. -/
def Stmt.reads? (holds : Expr → Option Bool) (object : Int) : Stmt → Option Int
  | .branch test yes no => do
    if ← holds test then readsBy? holds object yes else readsBy? holds object no
  | .run value => some ((Stmt.run value).takes object)
  | .assign target value => some ((Stmt.assign target value).takes object)
  | .unpack targets function arguments => some ((Stmt.unpack targets function arguments).takes object)
  | _ => none

/-- The number of bytes that several statements read. -/
def readsBy? (holds : Expr → Option Bool) (object : Int) : List Stmt → Option Int
  | [] => some 0
  | s :: rest => do
    return (← s.reads? holds object) + (← readsBy? holds object rest)

end

/-- The number that a method of a class gives. -/
def ClassDef.number? (c : ClassDef) (name : String) : Option Int :=
  match c.bodyOf name with
  | [.give (some (.int value))] => value
  | _ => none

/-- Whether a test of the acting version holds: a comparison with a number, or a method of the class that
compares with the number of another one. A method is not found where the object has an attribute of its
name. -/
def ClassDef.holdsAt? (c : ClassDef) (attributes : List String) (version : Int) : Expr → Option Bool
  | .binary .atLeast (.name "acting_version") (.int (some since)) => some (since ≤ version)
  | .call (.member (.name "self") name) [.name "acting_version"] =>
    if name ∈ attributes then none
    else
      match c.bodyOf name with
      | [.give (some (.binary .atLeast (.name "acting_version") (.call (.member (.name "cls") since) [])))] =>
        (c.number? since).map fun since => decide (since ≤ version)
      | _ => none
  | _ => none

section

variable {holds : Expr → Option Bool} {object : Int}

theorem readsBy?_singleton (s : Stmt) : readsBy? holds object [s] = s.reads? holds object := by
  rw [readsBy?]
  cases s.reads? holds object <;> simp [readsBy?]

theorem readsBy?_branch {test : Expr} {there : Bool} {yes no : List Stmt} (h : holds test = some there) :
    readsBy? holds object [.branch test yes no] =
      readsBy? holds object (if there then yes else no) := by
  rw [readsBy?_singleton, Stmt.reads?, h]
  cases there <;> rfl

/-- A member that is there reads its value, and otherwise gets one that is not read. -/
theorem readsBy?_whenPresent {property : String} {there : Bool} {yes no : List Stmt} {bytes : Int}
    (h : holds (Codec.isPresent property) = some there) (hyes : readsBy? holds object yes = some bytes)
    (hno : readsBy? holds object no = some 0) :
    readsBy? holds object [Codec.whenPresent property yes no] = some (if there then bytes else 0) := by
  rw [Codec.whenPresent, readsBy?_branch h]
  cases there with
  | true => exact hyes
  | false => exact hno

theorem readsBy?_assign (target value : Expr) :
    readsBy? holds object [.assign target value] = some ((Stmt.assign target value).takes object) := by
  rw [readsBy?_singleton, Stmt.reads?]

end

end Code

/-! ## What each member reads -/

namespace Codec

variable {notes : List Note} {owner property : String} {b : Bodies} {holds : Expr → Option Bool}
  {object : Int} {there : Bool}

/-- Bytes of a gap are thrown away from its version on. -/
theorem readsBy?_discardSince {c : ClassDef} {attributes : List String} {version : Int}
    (since : Option Int) (size : Int) :
    readsBy? (c.holdsAt? attributes version) object [discardSince since size] =
      some (if (since.filter (· != 0)).all (· ≤ version) then size else 0) := by
  have hdiscard : readsBy? (c.holdsAt? attributes version) object [discard (.count size)] = some size := by
    simp [readsBy?_singleton, discard, Stmt.reads?, Stmt.takes, Stmt.parts, Expr.apply, Expr.count,
      Expr.parts, Expr.partsAll, Expr.never, Expr.takes]
  rw [discardSince]
  split
  · rename_i u hu
    have htest : c.holdsAt? attributes version (isSince u) = some (decide (u ≤ version)) := rfl
    rw [readsBy?_branch htest, hu, Option.all_some]
    by_cases h : u ≤ version
    · simp [h, hdiscard]
    · simp [h, readsBy?]
  · rename_i hnone
    rw [hnone, hdiscard]
    rfl

/-- Bytes are only taken by calls that the reader is passed to. -/
theorem takes_eq_zero {e : Expr} (h : e.callsWith "reader" = false) : e.takes object = 0 := by
  unfold Expr.takes
  split
  · rename_i function argument rest
    rw [if_neg]
    rintro rfl
    have hcalls : (Expr.call function (.name "reader" :: rest)).callsWith "reader" = true := by
      cases function with
      | member value method => cases value <;> simp [Expr.callsWith, Expr.isName]
      | _ => simp [Expr.callsWith, Expr.isName]
    rw [hcalls] at h
    cases h
  · rfl

/-- A constant is not read. -/
theorem readsBy?_settingBodies {value : Expr}
    (hvalue : (value.parts Expr.never).countP (Expr.callsWith "reader") = 0) :
    readsBy? holds object (settingBodies property value).decode = some 0 := by
  have hsum : ((value.parts Expr.never).map (Expr.takes object)).sum = 0 := by
    refine List.sum_eq_zero fun n hn => ?_
    obtain ⟨e, he, rfl⟩ := List.mem_map.mp hn
    exact takes_eq_zero (Bool.eq_false_iff.mpr (List.countP_eq_zero.mp hvalue e he))
  rw [settingBodies, readsBy?_assign, Stmt.takes]
  simpa [Stmt.parts, Expr.targetParts, Expr.own, Expr.self, Expr.parts, Expr.never, Expr.takes] using hsum

/-- The bytes that are asked for are taken. -/
theorem sum_takes_readExact (size : Int) :
    (((Codec.readExact (.count size)).parts Expr.never).map (Expr.takes object)).sum = size := by
  simp [Codec.readExact, Expr.apply, Expr.count, Expr.parts, Expr.partsAll, Expr.never, Expr.takes]

/-- The values of a field are read where the field is there. -/
theorem ValueBodies.readsBy? {type : Primitive} {count : Int}
    (h : ValueBodies notes owner property type count b) (object : Int) (hcount : 1 ≤ count)
    (hthere : holds (isPresent property) = some there) :
    Code.readsBy? holds object b.decode = some (if there then (type.size : Int) * count else 0) := by
  rw [h.decode]
  refine readsBy?_whenPresent hthere ?_ ?_
  · rw [readsBy?_singleton]
    rcases extent_cases type hcount with ⟨hextent, rfl⟩ | ⟨hextent, -⟩ | ⟨hextent, -, rfl⟩
    · have hone : (Primitive.char.size : Int) * count = count := one_mul count
      rw [hextent, hone]
      simp [Extent.read, Stmt.reads?, Stmt.takes, Stmt.parts, Expr.targetParts, Expr.own, Expr.self,
        Expr.parts, Expr.never, Expr.takes, sum_takes_readExact]
    · rw [hextent]
      simp [Extent.read, Stmt.reads?, Stmt.takes, Stmt.parts, Expr.targetParts, Expr.own, Expr.self,
        Expr.apply, Expr.parts, Expr.partsAll, Expr.never, Expr.takes, unpack, packedArguments, ordered,
        sum_takes_readExact]
    · rw [hextent]
      simp [Extent.read, Stmt.reads?, Stmt.takes, Stmt.parts, Expr.targetParts, Expr.own, Expr.self,
        Expr.parts, Expr.partsAll, Expr.never, Expr.takes, unpack, packedArguments, ordered,
        sum_takes_readExact]
  · rw [readsBy?_assign]
    cases Extent.of type count <;> simp [Extent.absent, Stmt.takes, Stmt.parts, Expr.targetParts, Expr.own,
      Expr.self, Expr.apply, Expr.count, Expr.parts, Expr.partsAll, Expr.never, Expr.takes]

/-- A member of an enumeration is read where the field is there. -/
theorem readsBy?_enumerationBodies (type : String) (hthere : holds (isPresent property) = some there) :
    readsBy? holds object (enumerationBodies type property).decode = some (if there then object else 0) := by
  refine readsBy?_whenPresent hthere ?_ ?_
  · rw [readsBy?_assign]
    simp [Stmt.takes, Stmt.parts, Expr.targetParts, Expr.own, Expr.self, Expr.send, Expr.parts,
      Expr.partsAll, Expr.never, Expr.takes]
  · rw [readsBy?_assign]
    simp [Stmt.takes, Stmt.parts, Expr.targetParts, Expr.own, Expr.self, Expr.parts,
      Expr.never, Expr.takes]

/-- An object reads itself where the field is there. -/
theorem readsBy?_objectBodies (type : String) (hthere : holds (isPresent property) = some there) :
    readsBy? holds object (objectBodies type property).decode = some (if there then object else 0) := by
  refine readsBy?_whenPresent hthere ?_ ?_
  · rw [readsBy?_singleton]
    simp [Stmt.reads?, Stmt.takes, Stmt.parts, Expr.own, Expr.self, Expr.send, Expr.parts,
      Expr.partsAll, Expr.never, Expr.takes]
  · rw [readsBy?_assign]
    simp [Stmt.takes, Stmt.parts, Expr.targetParts, Expr.own, Expr.self, Expr.apply, Expr.parts,
      Expr.partsAll, Expr.never, Expr.takes]

end Codec

/-! ## Accessors that the class has in the end -/

/-- Methods that come last are found under their names. -/
theorem Code.ClassDef.bodyOf_of_last {c : ClassDef} {front last : List Method} {name : String}
    {body : List Stmt} (hmethods : c.methods = front ++ last) (hsome : ∃ m ∈ last, m.name = name)
    (hall : ∀ m ∈ last, m.name = name → m.body = body) : c.bodyOf name = body := by
  obtain ⟨m, hm, hname⟩ := hsome
  have hfind : (last.reverse.find? fun m => m.name == name).isSome := by
    rw [List.find?_isSome]
    exact ⟨m, List.mem_reverse.mpr hm, by simp [hname]⟩
  obtain ⟨found, hfound⟩ := Option.isSome_iff_exists.mp hfind
  have hbody := hall found (List.mem_reverse.mp (List.mem_of_find?_eq_some hfound))
    (by simpa using List.find?_some hfound)
  rw [ClassDef.bodyOf, hmethods, List.reverse_append, List.find?_append, hfound]
  simpa using hbody

/-- Whether a method tells the version of an attribute, and compares with it, where it has the names of the
accessors that do. -/
structure Code.Method.Tells (property : String) (version : Option Int) (m : Method) : Prop where
  since : m.name = property ++ "_since_version" → m.body = [.give (some (.int version))]
  acting : m.name = property ++ "_in_acting_version" → m.body = [.give (some
    (.binary .atLeast (.name "acting_version") (.send (.name "cls") (property ++ "_since_version") [])))]

namespace Codec

variable {property : String}

/-- Other accessors do not have these names. -/
theorem tells_of_end {suffix : String} {version : Option Int} {m : Method} (hsuffix : suffix ∈ accessorEnds)
    (hsince : suffix ≠ "_since_version") (hacting : suffix ≠ "_in_acting_version")
    (hm : m.name = property ++ suffix) : m.Tells property version where
  since h := absurd (append_accessorEnd_inj hsuffix (by decide) (hm.symm.trans h)).2 hsince
  acting h := absurd (append_accessorEnd_inj hsuffix (by decide) (hm.symm.trans h)).2 hacting

theorem tells_versionAccessors (property : String) (field : Token) :
    ∀ m ∈ versionAccessors property field, m.Tells property field.version := by
  rw [versionAccessors]
  simp only [List.forall_mem_cons, List.not_mem_nil, false_imp_iff, implies_true, and_true]
  refine ⟨⟨fun _ => rfl, fun h => ?_⟩, ⟨fun h => ?_, fun _ => rfl⟩, tells_of_end (by decide) (by decide)
    (by decide) rfl⟩
  · exact absurd (append_accessorEnd_inj (by decide) (by decide) h).2 (by decide)
  · exact absurd (append_accessorEnd_inj (by decide) (by decide) h).2 (by decide)

theorem tells_fieldAccessors (property : String) (field : Token) :
    ∀ m ∈ fieldAccessors property field, m.Tells property field.version := by
  rw [fieldAccessors]
  split
  · refine List.forall_mem_cons.mpr ⟨tells_of_end (by decide) (by decide) (by decide) rfl,
      List.forall_mem_append.mpr ⟨tells_versionAccessors _ _, ?_⟩⟩
    exact List.forall_mem_singleton.mpr (tells_of_end (by decide) (by decide) (by decide) rfl)
  · exact tells_versionAccessors _ _

theorem tells_boundAccessors (version : Option Int) (bounds : Bounds) :
    ∀ m ∈ boundAccessors property bounds, m.Tells property version := by
  rw [boundAccessors]
  simp only [List.forall_mem_cons, List.not_mem_nil, false_imp_iff, implies_true, and_true]
  exact ⟨tells_of_end (by decide) (by decide) (by decide) rfl,
    tells_of_end (by decide) (by decide) (by decide) rfl,
    tells_of_end (by decide) (by decide) (by decide) rfl⟩

/-- A field has the accessors that tell its version and compare with it. -/
theorem mem_fieldAccessors (property : String) (field : Token) {m : Method}
    (hm : m ∈ versionAccessors property field) : m ∈ fieldAccessors property field := by
  rw [fieldAccessors]
  split
  · exact List.mem_cons_of_mem _ (List.mem_append_left _ hm)
  · exact hm

end Codec

namespace Step

variable {s : Step} {owner : String} {isExtensible : Bool} {notes : List Note} {b : Bodies}
  {field type : Token}

theorem attribute?_of_fieldTokens? (h : s.fieldTokens? = some (field, type)) :
    s.attribute? = some (Identifier.propertyName field.name) := by
  cases s <;> simp_all [fieldTokens?, attribute?]

/-- The accessors that are written for a field tell its version. -/
theorem tells_bodies (h : (s.bodies owner isExtensible).Yields notes b)
    (htokens : s.fieldTokens? = some (field, type)) :
    (∀ m ∈ b.accessors, m.Tells (Identifier.propertyName field.name) field.version) ∧
      ∀ m ∈ Codec.versionAccessors (Identifier.propertyName field.name) field, m ∈ b.accessors := by
  cases s with
  | primitive own encoding =>
    cases htokens
    obtain ⟨_, bounds, texts, inner, -, -, -, htexts, rfl, -⟩ := Codec.yields_primitiveBodies h
    refine ⟨List.forall_mem_append.mpr ⟨List.forall_mem_append.mpr ⟨?_, ?_⟩, ?_⟩, fun m hm => ?_⟩
    · exact Codec.tells_fieldAccessors _ _
    · exact Codec.tells_boundAccessors _ _
    · rcases htexts with rfl | rfl
      · simp
      · exact List.forall_mem_singleton.mpr (Codec.tells_of_end (by decide) (by decide) (by decide) rfl)
    · exact List.mem_append_left _ (List.mem_append_left _ (Codec.mem_fieldAccessors _ _ hm))
  | typed construct typeName own other nested =>
    cases htokens
    obtain ⟨_, _, -, -, rfl⟩ := Codec.yields_typedBodies h
    exact ⟨Codec.tells_fieldAccessors _ _, fun m hm => Codec.mem_fieldAccessors _ _ hm⟩
  | _ => cases htokens

/-- Where no two steps share an attribute, an accessor of an attribute is written for its step. -/
theorem accessors_apart {steps : List Step} {bodies : List Bodies}
    (h : List.Forall₂ (fun s b => ∀ m ∈ b.accessors, ∃ property ∈ s.attribute?, m.IsAccessorOf property)
      steps bodies) (hdistinct : (attributes steps).Nodup) :
    List.Forall₂ (fun s b => ∀ property ∈ s.attribute?, property ∈ attributes steps ∧
      ∀ m ∈ bodies.flatMap Bodies.accessors, m.IsAccessorOf property → m ∈ b.accessors) steps bodies := by
  induction h with
  | nil => exact .nil
  | @cons s b steps bodies hb hrest ih =>
    have hattributes : attributes (s :: steps) = s.attribute?.toList ++ attributes steps := by
      cases hs : s.attribute? <;> simp [attributes, hs]
    rw [hattributes] at hdistinct ⊢
    obtain ⟨-, hsteps, hdisjoint⟩ := List.nodup_append'.mp hdistinct
    -- An accessor of one of the other steps is about one of the other attributes.
    have hothers : ∀ m ∈ bodies.flatMap Bodies.accessors, ∃ property ∈ attributes steps,
        m.IsAccessorOf property := by
      intro m hm
      obtain ⟨b', hb', hm⟩ := List.mem_flatMap.mp hm
      obtain ⟨s', hs', hs⟩ := exists_of_forall₂_right hrest hb'
      obtain ⟨property, hproperty, hm⟩ := hs m hm
      exact ⟨property, List.mem_filterMap.mpr ⟨s', hs', hproperty⟩, hm⟩
    have hsame {m : Method} {p q : String} (hp : m.IsAccessorOf p) (hq : m.IsAccessorOf q) : p = q := by
      obtain ⟨_, hends, hp⟩ := hp
      obtain ⟨_, hends', hq⟩ := hq
      exact (Codec.append_accessorEnd_inj hends hends' (hp.symm.trans hq)).1
    refine .cons ?_ ?_
    · intro property hproperty
      have hown : property ∈ s.attribute?.toList := by simpa using hproperty
      refine ⟨List.mem_append_left _ hown, fun m hm hof => ?_⟩
      rw [List.flatMap_cons] at hm
      rcases List.mem_append.mp hm with hm | hm
      · exact hm
      · obtain ⟨other, hother, hm⟩ := hothers m hm
        exact (hdisjoint hown (hsame hof hm ▸ hother)).elim
    · refine (ih hsteps).imp fun s' b' hs' property hproperty => ?_
      obtain ⟨hmem, hall⟩ := hs' property hproperty
      refine ⟨List.mem_append_right _ hmem, fun m hm hof => ?_⟩
      rw [List.flatMap_cons] at hm
      rcases List.mem_append.mp hm with hm | hm
      · obtain ⟨other, hother, hm⟩ := hb m hm
        have hown : other ∈ s.attribute?.toList := by simpa using hother
        exact (hdisjoint hown (hsame hof hm ▸ hmem)).elim
      · exact hall m hm hof

end Step

/-- Whether the test of a step, if it is a field with a version, tells whether the field is there. -/
def Step.TestedBy (holds : Expr → Option Bool) (version : Int) (s : Step) : Prop :=
  ∀ field type, s.fieldTokens? = some (field, type) → field.version.isSome →
    holds (Codec.isPresent (Identifier.propertyName field.name)) = some (s.isThere version)

/-- A field is there from its version on. -/
theorem Step.isThere_eq {s : Step} {field type : Token} {since version : Int}
    (htokens : s.fieldTokens? = some (field, type)) (hsince : field.version = some since) :
    s.isThere version = decide (since ≤ version) := by
  cases s <;> simp_all [isThere, fieldTokens?]

namespace Plan

variable {e : Edition} {notes : List Note} {p : Plan} {c : ClassDef} {bodies : List Bodies}

/-- **The test of a member compares with its version**: the class has no other method under the names that
it is made of. -/
theorem Emitted.testedBy (h : p.Emitted e notes c bodies) (version : Int) (hconsistent : p.IsConsistent) :
    List.Forall₂ (fun s b => (s.bodies p.typeName p.isExtensible).Yields notes b ∧
      s.TestedBy (c.holdsAt? (Step.attributes p.steps) version) version) p.steps bodies := by
  obtain ⟨front, hmethods⟩ := h.methods_eq
  have hapart := Step.accessors_apart (h.steps.imp fun s b hb => Step.isAccessorOf_bodies hb)
    hconsistent.distinct
  refine List.forall₂_iff_get.mpr ⟨h.steps.length_eq, fun k hk hb => ?_⟩
  have hbodies := h.steps.get hk hb
  have hown := hapart.get hk hb
  refine ⟨hbodies, fun field type htokens hsome => ?_⟩
  obtain ⟨since, hsince⟩ := Option.isSome_iff_exists.mp hsome
  rw [Step.isThere_eq htokens hsince]
  obtain ⟨hmem, hall⟩ := hown _ (Step.attribute?_of_fieldTokens? htokens)
  obtain ⟨htells, hversions⟩ := Step.tells_bodies hbodies htokens
  have hhas {m : Method} (hm : m ∈ Codec.versionAccessors (Identifier.propertyName field.name) field) :
      m ∈ bodies.flatMap Bodies.accessors :=
    List.mem_flatMap.mpr ⟨_, List.get_mem bodies ⟨k, hb⟩, hversions m hm⟩
  -- Of several methods with one name the last counts, but they all are this accessor.
  have hbody (suffix : String) (hsuffix : suffix ∈ Codec.accessorEnds) {body : List Stmt}
      (hsome : ∃ m ∈ Codec.versionAccessors (Identifier.propertyName field.name) field,
        m.name = Identifier.propertyName field.name ++ suffix)
      (hbody : ∀ m : Method, m.Tells (Identifier.propertyName field.name) field.version →
        m.name = Identifier.propertyName field.name ++ suffix → m.body = body) :
      c.bodyOf (Identifier.propertyName field.name ++ suffix) = body := by
    obtain ⟨m, hm, hname⟩ := hsome
    refine ClassDef.bodyOf_of_last hmethods ⟨m, hhas hm, hname⟩ fun m hm hname => ?_
    exact hbody m (htells m (hall m hm ⟨suffix, hsuffix, hname⟩)) hname
  have hnumber := hbody "_since_version" (by decide)
    ⟨_, List.mem_cons_self .., rfl⟩ fun m hm => hm.since
  have hacting := hbody "_in_acting_version" (by decide)
    ⟨_, List.mem_cons_of_mem _ (List.mem_cons_self ..), rfl⟩ fun m hm => hm.acting
  have hfree := hconsistent.free _ hmem
  show (if Identifier.propertyName field.name ++ "_in_acting_version" ∈ Step.attributes p.steps then none
    else _) = _
  rw [if_neg hfree, hacting]
  show (c.number? (Identifier.propertyName field.name ++ "_since_version")).map _ = _
  rw [ClassDef.number?, hnumber, hsince]
  rfl

end Plan

/-! ## What a composite reads -/

/-- The padding of a composite is thrown away when it is read. -/
theorem Codec.decode_gapBodies {notes : List Note} {b : Bodies} {size : Int} {since : Option Int}
    {trailing : Bool} (h : (gapBodies false size since trailing).Yields notes b) :
    b.decode = [discardSince since size] := by
  rw [gapBodies] at h
  obtain ⟨_, -, h⟩ := yields_bind.mp h
  obtain ⟨_, -, h⟩ := yields_bind.mp h
  rw [Bool.and_false, if_neg (by simp)] at h
  obtain ⟨_, -, h⟩ := yields_bind.mp h
  obtain ⟨_, -, h⟩ := yields_bind.mp h
  rw [← yields_pure.mp h]

namespace Step

variable {s : Step} {p : Plan} {owner : String} {notes : List Note} {b : Bodies} {c : ClassDef}
  {attributes : List String} {version : Int}

/-- The value of a field of an enumeration, a set or a composite is read where the field is there; a constant
of an enumeration is not read. -/
theorem readsBy?_valueOfType {construct : Construct} {typeName : Datum} {field type : Token}
    {nested : Option Plan} {name : String} (hrecorded : (typed construct typeName field type nested).Recorded)
    (holds : Expr → Option Bool) (object : Int) (there : Bool)
    (hthere : (construct = .enumeration → field.isConstant = false) →
      holds (Codec.isPresent (Identifier.propertyName field.name)) = some there)
    (h : Codec.valueOfTypeBodies construct name (Identifier.propertyName field.name) field = .ok b) :
    readsBy? holds object b.decode = some
      (if construct = .enumeration ∧ field.isConstant = true then 0 else if there then object else 0) := by
  rcases cases_valueOfType hrecorded h with ⟨rfl, hfield, value, hvalue, rfl⟩ | ⟨rfl, hfield, rfl⟩ |
    ⟨hobject, -, hdecode⟩
  · rw [if_pos ⟨rfl, hfield⟩]
    exact Codec.readsBy?_settingBodies (Codec.callsWith_enumerationConstant hvalue)
  · rw [if_neg (by simp [hfield])]
    exact Codec.readsBy?_enumerationBodies name (hthere fun _ => hfield)
  · rw [if_neg (by simp [hobject]), hdecode]
    exact Codec.readsBy?_objectBodies name (hthere fun henumeration => absurd henumeration hobject)

/-- The bodies of a field of a primitive type read its values where the field is there. -/
theorem readsBy?_primitive {field encoding : Token} {holds : Expr → Option Bool}
    (hrecorded : (primitive field encoding).Recorded) (hconsistent : (primitive field encoding).IsConsistent)
    (htested : (primitive field encoding).TestedBy holds version)
    (h : ((primitive field encoding).bodies owner false).Yields notes b) :
    readsBy? holds ((primitive field encoding).valueAt version) b.decode =
      some ((primitive field encoding).readAt version) := by
  obtain ⟨type, bounds, texts, inner, htype, -, -, -, rfl, hinner⟩ := Codec.yields_primitiveBodies h
  rw [hrecorded.isConstant_eq] at hinner
  cases hc : Walk.isConstant field encoding with
  | true =>
    rw [hc, if_pos rfl] at hinner
    obtain ⟨value, hvalue, -, rfl⟩ := Codec.yields_constantBodies hinner
    have hzero : (primitive field encoding).readAt version = 0 := by simp [readAt, valueAt, hc]
    rw [hzero]
    exact Codec.readsBy?_settingBodies (Codec.callsWith_constantValue hvalue)
  | false =>
    rw [hc, if_neg (by simp)] at hinner
    obtain ⟨hsome, type', htype', count, hcount, hpos, -⟩ := hconsistent hc
    obtain rfl := Option.some.inj (htype.symm.trans htype')
    obtain ⟨count', hcount', hvalues⟩ := Codec.yields_valueBodies hinner
    obtain rfl := Option.some.inj (hcount.symm.trans hcount')
    have hvalue : (primitive field encoding).valueAt version = type.size * count := by
      simp [valueAt, hc, htype, Option.mem_def.mp hcount]
    rw [readAt, hvalue]
    exact hvalues.readsBy? _ hpos (htested field encoding rfl hsome)

/-- The bodies of a field of an enumeration, a set or a composite read its value where the field is there. -/
theorem readsBy?_typed {construct : Construct} {typeName : Datum} {field type : Token} {nested : Option Plan}
    {w : Walker} {holds : Expr → Option Bool}
    (hrecords : w.Records field type (typed construct typeName field type nested))
    (hrecorded : (typed construct typeName field type nested).Recorded)
    (hconsistent : (typed construct typeName field type nested).IsConsistent)
    (htested : (typed construct typeName field type nested).TestedBy holds version)
    (h : ((typed construct typeName field type nested).bodies owner false).Yields notes b) :
    readsBy? holds ((typed construct typeName field type nested).valueAt version) b.decode =
      some ((typed construct typeName field type nested).readAt version) := by
  obtain ⟨name, inner, -, hinner, rfl⟩ := Codec.yields_typedBodies h
  -- A constant is one of an enumeration and takes no bytes; any other field asks whether it is there.
  have hsame := isConstant_of_typed hrecords
  obtain ⟨-, hconstant⟩ := hconsistent
  cases hc : Walk.isConstant field type with
  | true =>
    rw [hc, if_pos rfl] at hconstant
    obtain rfl : nested = none := by
      cases nested with
      | none => rfl
      | some plan =>
        rw [hrecorded.1] at hconstant
        cases hconstant
    subst hconstant
    have hfield : field.isConstant = true := hsame ▸ hc
    have hzero : (typed .enumeration typeName field type none).readAt version = 0 := by
      simp [readAt, valueAt, hfield]
    have hread := readsBy?_valueOfType hrecorded holds
      ((typed .enumeration typeName field type none).valueAt version) false (fun hno => by rw [hno rfl] at hfield; cases hfield) hinner
    rw [hzero]
    rwa [if_pos ⟨rfl, hfield⟩] at hread
  | false =>
    rw [hc, if_neg (by simp)] at hconstant
    have hfield : field.isConstant = false := hsame ▸ hc
    have hread := readsBy?_valueOfType hrecorded holds
      ((typed construct typeName field type nested).valueAt version) _
      (fun _ => htested field type rfl hconstant.1) hinner
    rwa [if_neg (by simp [hfield])] at hread

/-- **A step of a composite reads what its plan says**, if its test tells whether the field is there. -/
theorem readsBy?_bodies (hwalked : p.Walked) (hs : s ∈ p.steps) (hconsistent : s.IsConsistent)
    (htested : s.TestedBy (c.holdsAt? attributes version) version)
    (h : (s.bodies owner false).Yields notes b) :
    readsBy? (c.holdsAt? attributes version) (s.valueAt version) b.decode = some (s.readAt version) := by
  have hrecorded := hwalked.recorded s hs
  cases s with
  | gap size since trailing =>
    rw [Codec.decode_gapBodies h, Codec.readsBy?_discardSince]
    rfl
  | primitive field encoding => exact readsBy?_primitive hrecorded hconsistent htested h
  | typed construct typeName field type nested =>
    obtain ⟨w, hrecords⟩ := hwalked.exists_records hs rfl
    exact readsBy?_typed hrecords hrecorded hconsistent htested h
  | _ => exact hconsistent.elim

end Step

/-! ## What an object reads by itself -/

section

variable {object : Int}

/-- The number of bytes that all statements of a method take from the reader. -/
def Code.Method.takes (object : Int) (m : Method) : Int :=
  (m.body.map (Stmt.takes object)).sum

/-- A member of an enumeration reads the bytes that its token tells. -/
theorem Enumeration.takes_decodeMethod (e : Enumeration) :
    e.decodeMethod.takes object = e.token.encodedLength.getD 0 := by
  cases h : e.token.encodedLength <;>
    simp [Method.takes, decodeMethod, Codec.packedOf, Codec.readExact, Codec.unpack, Codec.ordered, h,
      Stmt.takes, Stmt.parts, Expr.targetParts, Expr.apply, Expr.parts, Expr.partsAll, Expr.never, Expr.takes]

/-- A set reads the bytes that its token tells. -/
theorem ChoiceSet.takes_decodeMethod (s : ChoiceSet) :
    s.decodeMethod.takes object = s.token.encodedLength.getD 0 := by
  cases h : s.token.encodedLength <;>
    simp [Method.takes, decodeMethod, bits, wireValue, Codec.packedOf, Codec.readExact, Codec.unpack,
      Codec.ordered, h, Stmt.takes, Stmt.parts, Expr.targetParts, Expr.own, Expr.self, Expr.count, Expr.apply,
      Expr.parts, Expr.partsAll, Expr.never, Expr.takes]

end

/-! ## What the class of a composite reads -/

/-- Whether what reads itself for a step takes as many bytes as the value of the step has: a member of an
enumeration and a set, if their class is that of the token of the step, and a member composite as its own
plan says. -/
def Step.ReadsItself (version : Int) : Step → Prop
  | .typed construct name field type (some nested) =>
    (Step.typed construct name field type (some nested)).valueAt version = nested.readAt version
  | .typed .enumeration name field type none => field.isConstant = false → ∀ e : Enumeration, e.token = type →
    ∀ object, e.decodeMethod.takes object = (Step.typed .enumeration name field type none).valueAt version
  | .typed .choiceSet name field type none => ∀ c : ChoiceSet, c.token = type →
    ∀ object, c.decodeMethod.takes object = (Step.typed .choiceSet name field type none).valueAt version
  | _ => True

theorem Step.readsItself (version : Int) (s : Step) : s.ReadsItself version := by
  unfold ReadsItself
  split
  case h_1 construct _ _ _ nested => cases construct <;> rfl
  case h_2 =>
    rintro hfield e rfl object
    rw [e.takes_decodeMethod, valueAt, if_neg (by simp [hfield])]
  case h_3 =>
    rintro c rfl object
    rw [c.takes_decodeMethod]
    rfl
  case h_4 => trivial

namespace Plan

variable {version : Int} {p q : Plan}

/-- Whether a class reads step by step what a plan says in a version: its own tests decide which members are
there, and what reads itself takes the bytes that are counted for it. -/
def IsReadBy (version : Int) (p : Plan) (c : ClassDef) : Prop :=
  ∃ bodies, Written c bodies ∧ List.Forall₂ (fun s b =>
    readsBy? (c.holdsAt? (Step.attributes p.steps) version) (s.valueAt version) b.decode =
      some (s.readAt version) ∧ s.ReadsItself version) p.steps bodies

/-- The plan of a member composite is not extensible, and that of a group is. -/
theorem Walked.extensible (h : p.Walked) : ∀ s ∈ p.steps, ∀ q ∈ s.inner?, q.isExtensible = s.isGroup := by
  obtain ⟨blank, ts, hblank, hwalk⟩ := h
  exact fun s hs q hq => (ofTokens_holds hblank hwalk s hs q hq).extensible

/-- No plan inside a consistent composite is extensible. -/
theorem isExtensible_eq_false (hwalked : p.Walked) (hextensible : p.isExtensible = false)
    (hconsistent : ∀ q ∈ p.plans, q.IsConsistent) : ∀ q ∈ p.plans, q.isExtensible = false := by
  suffices hall : ∀ q ∈ p.plans, q ∈ p.plans ∧ q.isExtensible = false from fun q hq => (hall q hq).2
  refine plans_induction ?_ ⟨self_mem_plans p, hextensible⟩
  rintro q ⟨hq, -⟩ s hs r hr
  refine ⟨inner_mem_plans hq s hs r hr, ?_⟩
  rw [(hwalked.plans q hq).extensible s hs r hr]
  have hmember := (hconsistent q hq).members s hs
  cases s with
  | group => exact hmember.elim
  | _ => rfl

/-- **The classes of a consistent composite read what their plans say**, in every version. -/
theorem classes_decode {e : Edition} {cs : List ClassDef} (hwalked : p.Walked)
    (hextensible : p.isExtensible = false) (hconsistent : ∀ q ∈ p.plans, q.IsConsistent)
    (h : (p.classes e).outcome = .ok cs) (version : Int) :
    List.Forall₂ (IsReadBy version) p.plans cs := by
  have hemitted := emitted_classes (yields_self h)
  refine List.forall₂_iff_get.mpr ⟨hemitted.length_eq, fun i hi hc => ?_⟩
  obtain ⟨bodies, hbodies⟩ := hemitted.get hi hc
  have hq := List.get_mem p.plans ⟨i, hi⟩
  have hsteps := hbodies.testedBy version (hconsistent _ hq)
  refine ⟨bodies, hbodies.written, List.forall₂_iff_get.mpr ⟨hsteps.length_eq, fun k hk hb => ?_⟩⟩
  obtain ⟨hyields, htested⟩ := hsteps.get hk hb
  rw [isExtensible_eq_false hwalked hextensible hconsistent _ hq] at hyields
  have hs := List.get_mem (p.plans.get ⟨i, hi⟩).steps ⟨k, hk⟩
  exact ⟨Step.readsBy?_bodies (hwalked.plans _ hq) hs ((hconsistent _ hq).members _ hs) htested hyields,
    Step.readsItself version _⟩

/-- Whether a plan is that of the composite that a step refers to: it is inside the step, or it is the plan of
tokens that begin with the type of the step. -/
def IsComposite (nested : Option Plan) (type : Token) (q : Plan) : Prop :=
  nested = some q ∨ nested = none ∧ ∃ typeName rest, ofComposite typeName (type :: rest) = .ok q

/-- A composite has the length that its first token tells, and no newer schema extends its block. -/
theorem IsComposite.attributes (hwalked : p.Walked) {name : Datum} {field type : Token} {nested : Option Plan}
    (hs : .typed .composite name field type nested ∈ p.steps) (h : IsComposite nested type q) :
    q.Walked ∧ q.blockLength = type.encodedLength ∧ q.isExtensible = false := by
  rcases h with rfl | ⟨-, typeName, rest, hq⟩
  · exact ⟨walked_of_inner? (hwalked.recorded _ hs) rfl, hwalked.announced _ hs q rfl,
      hwalked.extensible _ hs q rfl⟩
  · exact ⟨walked_ofComposite hq, ofTokens_attributes hq⟩

/-- **A composite and what holds it.** A walk passes over a field of a composite by the length of the
composite, which is noted for the version of the field. If all members are consistent, the classes of the
composite read in every version what their plans say; and this is the length that the walk has counted, in
all versions of the field, exactly if no part of the composite is newer than the field. -/
theorem composite_balances {e : Edition} {blank : Plan} {ts : List Token} {name : Datum} {field type : Token}
    {nested : Option Plan} {cs : List ClassDef} (hblank : blank.steps = [])
    (hwalk : blank.ofTokens ts = .ok p) (hs : .typed .composite name field type nested ∈ p.steps)
    (hc : Walk.isConstant field type = false) (hq : IsComposite nested type q)
    (hconsistent : ∀ r ∈ q.plans, r.IsConsistent) (hclasses : (q.classes e).outcome = .ok cs) :
    ∃ length, type.encodedLength = some length ∧
      Walk.PassesOver blank ts field type (.typed .composite name field type nested) length ∧
      (∀ version, List.Forall₂ (IsReadBy version) q.plans cs) ∧
      ∀ since ∈ field.version,
        ((∀ version, since ≤ version → q.readAt version = length) ↔ q.IsThere since) := by
  obtain ⟨length, hlength, hpasses⟩ := ofTokens_passesOver hblank hwalk hs rfl hc
  obtain ⟨hwalked, hblock, hextensible⟩ := hq.attributes ⟨blank, ts, hblank, hwalk⟩ hs
  exact ⟨length, hlength, hpasses, classes_decode hwalked hextensible hconsistent hclasses,
    fun _ _ => readAt_from_eq_iff hwalked hconsistent (hblock.trans hlength)⟩

/-- The tokens of a price, whose exponent is in a composite of its own and came with a given version. -/
def priceTokens (newest : Int) : List Token := [
  { signal := .opens .composite, name := "Price", encodedLength := some 9, tokenCount := some 6 },
  { signal := .encoding, name := "mantissa", encodedLength := some 8
    encoding := { primitive := some .int64 } },
  { signal := .opens .composite, name := "scale", encodedLength := some 1, tokenCount := some 3 },
  { signal := .encoding, name := "exponent", encodedLength := some 1, version := some newest
    encoding := { primitive := some .int8 } },
  { signal := .closes .composite, name := "scale", tokenCount := some 3 },
  { signal := .closes .composite, name := "Price", tokenCount := some 6 }]

/-- The tokens of a ticket, whose only field is such a price. -/
def ticketTokens (newest : Int) : List Token :=
  { signal := .opens .message, name := "Ticket", encodedLength := some 9, tokenCount := some 10 } ::
  { signal := .opens .field, name := "price", tokenCount := some 8 } :: priceTokens newest ++ [
  { signal := .closes .field, name := "price", tokenCount := some 8 },
  { signal := .closes .message, name := "Ticket", tokenCount := some 10 }]

/-- A price without parts that are newer than the field of a ticket is read as the ticket counts it. -/
theorem ticketPlan_balances : ∃ p q cs name field type, ofMessage "Ticket" (ticketTokens 0) = .ok p ∧
    .typed .composite name field type none ∈ p.steps ∧ IsComposite none type q ∧ field.version = some 0 ∧
    (q.classes reportEdition).outcome = .ok cs ∧ ∃ length blank, type.encodedLength = some length ∧
      Walk.PassesOver blank (ticketTokens 0) field type (.typed .composite name field type none) length ∧
      (∀ version, List.Forall₂ (IsReadBy version) q.plans cs) ∧
      ∀ version, 0 ≤ version → q.readAt version = length := by
  have h : ∃ p q name field type, ofMessage "Ticket" (ticketTokens 0) = .ok p ∧
      ofComposite "Price" (priceTokens 0) = .ok q ∧ .typed .composite name field type none ∈ p.steps ∧
      (∃ rest, priceTokens 0 = type :: rest) ∧ Walk.isConstant field type = false ∧
      field.version = some 0 ∧ (∀ r ∈ q.plans, r.IsConsistent) ∧ q.IsThere 0 ∧
      ((q.classes reportEdition).outcome.map List.length).toOption = some 2 := by
    -- The walks compute the plans, and what is asked of them is then decided.
    refine ⟨?p, ?q, .text "Price", { signal := .opens .field, name := "price", tokenCount := some 8 }, _,
      ?walk, ?composite, ?holds, ⟨_, rfl⟩, rfl, rfl, ?consistent, ?there, ?classes⟩
    case walk =>
      cbv
      rfl
    case composite =>
      cbv
      rfl
    case holds =>
      refine List.mem_of_getElem? (i := 1) ?_
      cbv
    case there =>
      unfold IsThere
      decide +kernel
    all_goals decide +kernel
  obtain ⟨p, q, name, field, type, hp, hcomposite, hs, ⟨rest, hrest⟩, hc, hsince, hconsistent, hthere,
    hcs⟩ := h
  obtain ⟨cs, hcs, -⟩ := exists_of_computed hcs
  have hq : IsComposite none type q := .inr ⟨rfl, "Price", rest, hrest ▸ hcomposite⟩
  obtain ⟨length, hlength, hpasses, hread, hbalances⟩ :=
    composite_balances rfl hp hs hc hq hconsistent hcs
  exact ⟨p, q, cs, name, field, type, hp, hs, hq, hsince, hcs, length, _, hlength, hpasses, hread,
    (hbalances 0 hsince).mpr hthere⟩

/-- **A newer part is not read where its holder is.** The exponent of a price came with version 1, and the
price itself is in tickets of version 0. The walk counts nine bytes for it in version 0, but the class of the
scale with the exponent reads nothing then, so that the class of the price reads eight bytes. -/
theorem ticketPlan_reads_less : ∃ p q cs, ofMessage "Ticket" (ticketTokens 1) = .ok p ∧
    .extensionSkip [(0, 9)] ∈ p.steps ∧ ofComposite "Price" (priceTokens 1) = .ok q ∧
    (∀ r ∈ q.plans, r.IsConsistent) ∧ (q.classes reportEdition).outcome = .ok cs ∧
    List.zipWith (fun r c => readsBy? (c.holdsAt? (Step.attributes r.steps) 0) 0 (c.bodyOf "decode"))
      q.plans cs = [some 8, some 0] := by
  have h : ∃ p q, ofMessage "Ticket" (ticketTokens 1) = .ok p ∧ .extensionSkip [(0, 9)] ∈ p.steps ∧
      ofComposite "Price" (priceTokens 1) = .ok q ∧ (∀ r ∈ q.plans, r.IsConsistent) ∧
      ((q.classes reportEdition).outcome.map fun cs =>
        List.zipWith (fun r c => readsBy? (c.holdsAt? (Step.attributes r.steps) 0) 0 (c.bodyOf "decode"))
          q.plans cs).toOption = some [some 8, some 0] := by
    refine ⟨?p, ?q, ?walk, ?skip, ?composite, ?consistent, ?reads⟩
    case walk =>
      cbv
      rfl
    case composite =>
      cbv
      rfl
    case skip =>
      refine List.mem_of_getElem? (i := 2) ?_
      cbv
    all_goals decide +kernel
  obtain ⟨p, q, hp, hskip, hq, hconsistent, hreads⟩ := h
  obtain ⟨cs, hcs, hreads⟩ := exists_of_computed hreads
  exact ⟨p, q, cs, hp, hskip, hq, hconsistent, hcs, hreads⟩

end Plan

end SimpleBinary

import SimpleBinary.Proofs.Forest.Whole
import SimpleBinary.Proofs.Walk.Faults

/-!
How a schema cannot be generated.

A document is checked when it is read, but not for all that is read of it later: a list of types may be empty,
an encoding may have no primitive type, and the composite of a group or of variable data may have too few
members. Whoever writes the package finds out at the place where such a part is needed, and fails there with
what is said of the part and not of the schema. Apart from these gaps (`Schema.Complete`) a schema that is read
is generated, or refused for a value that is wrong (`Schema.fault_of_ofDatum`).
-/

set_option autoImplicit false

namespace SimpleBinary

namespace Schema

/-- The token lists of a schema. -/
def lists (s : Schema) : List (List Token) :=
  s.header.tokens :: (s.types ++ s.messages)

theorem IsRendered.mem_lists {s : Schema} {ts : List Token} (h : s.IsRendered ts) : ts ∈ s.lists := by
  cases h with
  | header => exact List.mem_cons_self ..
  | type hts => exact List.mem_cons_of_mem _ (List.mem_append_left _ hts)
  | message hts => exact List.mem_cons_of_mem _ (List.mem_append_right _ hts)

/-- Whether a schema has all that is needed of it without a check. -/
structure Complete (s : Schema) : Prop where
  /-- A type has tokens. -/
  types : [] ∉ s.types
  /-- An encoding has a primitive type. -/
  typed : ∀ ts, s.IsRendered ts → ∀ t ∈ ts, t.signal = .encoding → t.primitive.isSome = true
  /-- The composite of a group or of variable data begins with two encodings. -/
  dimensions : ∀ ts, s.IsRendered ts → HasDimensions ts
  /-- Variable data at the end of a composite is not empty. -/
  ended : ∀ first rest, s.IsRendered (first :: rest) → first.signal = .opens .composite →
    ∀ token closing, [token, closing] <:+ first :: rest → token.signal ≠ .opens .varData

end Schema

section

variable {lacking : Prop} {e : Edition} {α : Type} {wanted : α → Prop}

/-! ## Entities -/

/-- The header lacks what its composite lacks, and what is past its end is past that of other tokens. -/
theorem Entity.failsWithin_ofHeader
    (h : FailsWithin lacking (planClasses e (Plan.ofComposite headerType e.header.tokens)).outcome) :
    FailsWithin lacking (ofHeader e).classes.outcome := by
  obtain ⟨hplan, hclasses⟩ := Walk.failsWithin_planClasses.mp h
  rw [ofHeader]
  cases hcase : Plan.ofComposite headerType e.header.tokens with
  | ok p => exact hclasses p hcase
  | error fault =>
    have hfault := hplan fault hcase
    refine failsWithin_error.mpr ?_
    cases fault <;> exact hfault

/-- A type lacks nothing that is needed to tell what it is, if it has tokens. -/
theorem Entity.failsWithin_ofType {ts : List Token} (hread : ∀ t ∈ ts, t.IsRead)
    (hne : lacking ∨ ts ≠ []) : FailsWithin lacking (ofType e ts) := by
  cases ts with
  | nil =>
    obtain hlacking | hne := hne
    · exact failsWithin_error.mpr (.inr ⟨hlacking, rfl⟩)
    · exact absurd rfl hne
  | cons first rest =>
    rw [ofType]
    refine (Codec.failsWithin_definedName (hread first (List.mem_cons_self ..)).names).bind fun _ _ => ?_
    split
    · exact failsWithin_ok _
    · exact failsWithin_ok _
    · split
      · exact failsWithin_ok _
      · exact failsWithin_ok _
    · exact failsWithin_wrong rfl

/-- The classes of a type lack nothing that the tokens of a composite do not lack. -/
theorem Entity.failsWithin_type {entity : Entity} {first : Token} {rest : List Token}
    (hread : ∀ t ∈ first :: rest, t.IsRead) (hentity : ofType e (first :: rest) = .ok (.inl entity))
    (hcomplete : first.signal = .opens .composite → lacking ∨ Token.Complete rest.dropLast) :
    FailsWithin lacking entity.classes.outcome := by
  have hfirst := hread first (List.mem_cons_self ..)
  rw [ofType] at hentity
  obtain ⟨typeName, -, hentity⟩ := except_bind_ok hentity
  split at hentity
  · obtain rfl := Sum.inl.inj (Except.ok.inj hentity)
    exact Emission.failsWithin_bind (Enumeration.failsWithin_ofTokens hfirst) fun _ _ => failsWithin_ok _
  · obtain rfl := Sum.inl.inj (Except.ok.inj hentity)
    exact Emission.failsWithin_bind (ChoiceSet.failsWithin_ofTokens hfirst) fun _ _ => failsWithin_ok _
  · rename_i hs
    split at hentity
    · cases hentity
    · obtain rfl := Sum.inl.inj (Except.ok.inj hentity)
      exact Plan.failsWithin_ofComposite typeName hread (hcomplete hs)
  · cases hentity

namespace Generation

/-! ## The generation of a package -/

theorem runsWithin_record (events : List Event) :
    RunsWithin lacking (fun _ => True) (record events) fun _ => True :=
  runsWithin_modify fun _ _ => trivial

theorem runsWithin_ofExcept {x : Except Fault α} (hx : FailsWithin lacking x)
    (hwanted : ∀ a, x = .ok a → wanted a) : RunsWithin lacking (fun _ => True) (ofExcept x) wanted := by
  cases x with
  | ok a => exact runsWithin_pure (hwanted a rfl)
  | error fault => exact runsWithin_throw (hx fault rfl)

/-- An entity is written where its classes can be, unless its name is taken. -/
theorem runsWithin_add {entity : Entity} (h : FailsWithin lacking entity.classes.outcome) :
    RunsWithin lacking (fun _ => True) (add entity) fun _ => True := by
  rw [add]
  have hemit : RunsWithin lacking (fun _ => True) (emit entity.classes) fun _ => True :=
    (runsWithin_record _).bind fun _ _ => runsWithin_ofExcept h fun _ _ => trivial
  refine hemit.bind fun classes _ => ?_
  refine runsWithin_get.bind fun p _ => ?_
  split
  · exact runsWithin_throw (.inl rfl)
  · exact RunsWithin.bind (runsWithin_modify fun _ _ => trivial) fun _ _ => runsWithin_record _

theorem runsWithin_forM {β : Type} {f : β → Generation Unit} {bs : List β}
    (h : ∀ b ∈ bs, RunsWithin lacking (fun _ => True) (f b) fun _ => True) :
    RunsWithin lacking (fun _ => True) (bs.forM f) fun _ => True := by
  induction bs with
  | nil => exact runsWithin_pure trivial
  | cons b rest ih =>
    obtain ⟨hb, hrest⟩ := List.forall_mem_cons.mp h
    exact hb.bind fun _ _ => ih hrest

theorem runsWithin_addType {ts : List Token} (hread : ∀ t ∈ ts, t.IsRead) (hne : lacking ∨ ts ≠ [])
    (hentity : ∀ entity, Entity.ofType e ts = .ok (.inl entity) →
      FailsWithin lacking entity.classes.outcome) :
    RunsWithin lacking (fun _ => True) (addType e ts) fun _ => True := by
  rw [addType]
  refine (runsWithin_ofExcept (Entity.failsWithin_ofType hread hne) fun _ h => h).bind ?_
  rintro (entity | typeName) h
  · exact runsWithin_add (hentity entity h)
  · exact runsWithin_record _

end Generation

end

namespace Schema

variable {lacking : Prop} {package : Option String} {d : Datum} {s : Schema} {ts rest : List Token}
  {first : Token}

/-! ## Complete schemas -/

theorem Complete.token (h : s.Complete) (hts : s.IsRendered ts) (hbracketed : Bracketed (ts.map Token.signal)) :
    Token.Complete ts :=
  ⟨h.typed ts hts, Led.of_bracketed hbracketed (h.dimensions ts hts)⟩

theorem Complete.composite (h : s.Complete) (hts : s.IsRendered (first :: rest))
    (hbracketed : Bracketed ((first :: rest).map Token.signal)) (hfirst : first.signal = .opens .composite) :
    Token.Complete rest.dropLast :=
  ⟨fun t ht => h.typed _ hts t (List.mem_cons_of_mem _ (List.mem_of_mem_dropLast ht)),
    Led.composite hbracketed (h.dimensions _ hts) (h.ended first rest hts hfirst)⟩

/-- The four types of a header are those of its encodings. -/
theorem isSome_headerTypes {header : Header} (h : Header.ofTokens ts = .ok header)
    (htyped : ∀ t ∈ ts, t.signal = .encoding → t.primitive.isSome = true) :
    (Plan.headerTypes header).isSome = true := by
  have hmember {name : String} {t : Token} (ht : Header.member? ts name = some t) :
      ∃ type, t.primitive = some type := by
    have hsignal := List.find?_some ht
    have hmem := List.mem_reverse.mp (List.mem_of_find?_eq_some ht)
    exact Option.isSome_iff_exists.mp (htyped t hmem (eq_of_beq (Bool.and_eq_true_iff.mp hsignal).1))
  unfold Header.ofTokens at h
  split at h
  · split at h
    · rename_i hblock htemplate hschema hversion
      obtain rfl := Except.ok.inj h
      obtain ⟨_, hblock⟩ := hmember hblock
      obtain ⟨_, htemplate⟩ := hmember htemplate
      obtain ⟨_, hschema⟩ := hmember hschema
      obtain ⟨_, hversion⟩ := hmember hversion
      simp [Plan.headerTypes, hblock, htemplate, hschema, hversion]
    · cases h
  · cases h

/-! ## Schemas that are read -/

section

variable (h : ofDatum package d = .ok s) (hread : ∀ ts ∈ s.lists, ∀ t ∈ ts, t.IsRead)
  (hcomplete : lacking ∨ s.Complete)

include h hread hcomplete

theorem failsWithin_header : FailsWithin lacking (Entity.ofHeader s.toEdition).classes.outcome := by
  obtain ⟨⟨list, hlist⟩, hheader, -, -⟩ := ofDatum_ok h
  obtain ⟨-, first, hfirst, hopens⟩ := opens_of_header hheader
  obtain ⟨rest, htokens⟩ := List.head?_eq_some_iff.mp hfirst
  have hread := hread s.header.tokens (List.mem_cons_self ..)
  have hrendered : s.IsRendered s.header.tokens := .header
  refine Entity.failsWithin_ofHeader ?_
  rw [htokens] at hlist hread hrendered ⊢
  refine Plan.failsWithin_ofComposite headerType hread (hcomplete.imp_right fun hc => ?_)
  exact hc.composite hrendered (Token.bracketed_of_listOfDatum hlist) hopens

theorem failsWithin_type (hts : ts ∈ s.types) {entity : Entity}
    (hentity : Entity.ofType s.toEdition ts = .ok (.inl entity)) :
    FailsWithin lacking entity.classes.outcome := by
  obtain ⟨-, -, htypes, -⟩ := ofDatum_ok h
  obtain ⟨list, hlist⟩ := htypes ts hts
  have hread := hread ts (List.mem_cons_of_mem _ (List.mem_append_left _ hts))
  have hrendered : s.IsRendered ts := .type hts hentity
  cases ts with
  | nil => cases hentity
  | cons first rest =>
    refine Entity.failsWithin_type hread hentity fun hopens => hcomplete.imp_right fun hc => ?_
    exact hc.composite hrendered (Token.bracketed_of_listOfDatum hlist) hopens

theorem failsWithin_message (hts : ts ∈ s.messages) :
    ∃ entity, Entity.ofMessage s.toEdition ts = .ok entity ∧
      FailsWithin lacking entity.classes.outcome := by
  obtain ⟨-, hheader, -, hmessages⟩ := ofDatum_ok h
  obtain ⟨hbegins, list, hlist⟩ := hmessages ts hts
  have hread := hread ts (List.mem_cons_of_mem _ (List.mem_append_right _ hts))
  have hheaderTypes : lacking ∨ (Plan.headerTypes s.toEdition.header).isSome = true :=
    hcomplete.imp_right fun hc => isSome_headerTypes hheader (hc.typed _ .header)
  have htokens : lacking ∨ Token.Complete ts := hcomplete.imp_right fun hc =>
    hc.token (.message hts) (Token.bracketed_of_listOfDatum hlist)
  cases ts with
  | nil => cases hbegins
  | cons first rest => exact ⟨_, rfl, Plan.failsWithin_ofMessage _ hread htokens hheaderTypes⟩

/-- The generation of a schema that is read fails only for a value that is wrong, unless something is
lacking. -/
theorem runsWithin_addSchema :
    RunsWithin lacking (fun _ => True) (Generation.addSchema s) fun _ => True := by
  rw [Generation.addSchema]
  refine (Generation.runsWithin_record _).bind fun _ _ => ?_
  refine (Generation.runsWithin_add (failsWithin_header h hread hcomplete)).bind fun _ _ => ?_
  refine (Generation.runsWithin_forM fun ts hts => ?type).bind fun _ _ => ?_
  case type =>
    have hread' := hread ts (List.mem_cons_of_mem _ (List.mem_append_left _ hts))
    refine Generation.runsWithin_addType hread' (hcomplete.imp_right fun hc => ?_) fun entity hentity =>
      failsWithin_type h hread hcomplete hts hentity
    rintro rfl
    exact hc.types hts
  refine (Generation.runsWithin_forM fun ts hts => ?message).bind fun _ _ => ?_
  case message =>
    obtain ⟨entity, hentity, hclasses⟩ := failsWithin_message h hread hcomplete hts
    rw [Generation.addMessage, hentity]
    exact Generation.runsWithin_add hclasses
  split
  · exact runsWithin_get.bind fun _ _ => Generation.runsWithin_record _
  · exact runsWithin_throw (.inl rfl)

end

/-- **How the generation of a schema fails.** A schema that is read from a document, in which no number is
missing and what names something is text, is refused for a value that is wrong, or for something that is
missing; the latter only where the schema is not complete. -/
theorem fault_of_ofDatum (h : ofDatum package d = .ok s) (hread : ∀ ts ∈ s.lists, ∀ t ∈ ts, t.IsRead)
    {p : Package} {fault : Fault} (hrun : Package.after {} (Generation.addSchema s) = (p, some fault)) :
    fault.isWrong = true ∨ ¬ s.Complete ∧ fault.isMissing = true := by
  have hruns : RunsWithin (¬ s.Complete) (fun _ => True) (Generation.addSchema s) fun _ => True :=
    runsWithin_addSchema h hread (em s.Complete).symm
  unfold Package.after EStateM.run at hrun
  cases hcase : Generation.addSchema s {} with
  | ok _ q =>
    rw [hcase] at hrun
    cases hrun
  | error found q =>
    rw [hcase] at hrun
    obtain ⟨rfl, hfound⟩ := Prod.mk.inj hrun
    obtain rfl := Option.some.inj hfound
    exact hruns.fault trivial hcase

end Schema

/-! ## Samples -/

/-- Whether a token is read can be computed. -/
instance (t : Token) : Decidable t.IsRead :=
  decidable_of_iff
    ((t.id.isSome ∧ t.version.isSome ∧ t.deprecated.isSome ∧ t.encodedLength.isSome ∧
        t.arrayLength.isSome ∧ t.tokenCount.isSome) ∧
      t.referencedName.isTextOrNull = true ∧ t.encoding.characterEncoding.isTextOrNull = true)
    ⟨fun ⟨⟨h₁, h₂, h₃, h₄, h₅, h₆⟩, h₇, h₈⟩ => ⟨⟨h₁, h₂, h₃, h₄, h₅, h₆⟩, h₇, h₈⟩,
      fun ⟨⟨h₁, h₂, h₃, h₄, h₅, h₆⟩, h₇, h₈⟩ => ⟨⟨h₁, h₂, h₃, h₄, h₅, h₆⟩, h₇, h₈⟩⟩

namespace Schema

/-- Whether all tokens of a document are read, and of what kind the fault is that its generation ends with. -/
def faultKind (d : Datum) : Option (Bool × Option (Bool × Bool)) :=
  ((ofDatum none d).map fun s =>
    (decide (∀ ts ∈ s.lists, ∀ t ∈ ts, t.IsRead),
      (Package.after {} (Generation.addSchema s)).2.map fun fault =>
        (fault.isWrong, fault.isMissing))).toOption

theorem exists_fault {d : Datum} {wrong missing : Bool} (h : faultKind d = some (true, some (wrong, missing))) :
    ∃ s p fault, ofDatum none d = .ok s ∧ (∀ ts ∈ s.lists, ∀ t ∈ ts, t.IsRead) ∧
      Package.after {} (Generation.addSchema s) = (p, some fault) ∧ fault.isWrong = wrong ∧
      fault.isMissing = missing := by
  obtain ⟨s, hs, hf⟩ := exists_of_computed h
  obtain ⟨hread, hf⟩ := Prod.mk.inj hf
  obtain ⟨fault, hfault, hf⟩ := Option.map_eq_some_iff.mp hf
  obtain ⟨hwrong, hmissing⟩ := Prod.mk.inj hf
  exact ⟨s, _, fault, hs, of_decide_eq_true hread, Prod.ext rfl hfault, hwrong, hmissing⟩

/-- A schema without types and with nothing that is read ahead is complete if its encodings have types. -/
theorem complete_of_plain {s : Schema} (htypes : s.types = [])
    (hplain : ∀ ts ∈ s.lists, ∀ t ∈ ts, (t.signal = .encoding → t.primitive.isSome = true) ∧
      t.signal ≠ .opens .group ∧ t.signal ≠ .opens .varData) : s.Complete where
  types := by simp [htypes]
  typed ts hts t ht := (hplain ts hts.mem_lists t ht).1
  dimensions ts hts token opening rest hsuffix htoken := by
    obtain ⟨-, hgroup, hvarData⟩ := hplain ts hts.mem_lists token (hsuffix.subset (List.mem_cons_self ..))
    exact absurd htoken (not_or.mpr ⟨hgroup, hvarData⟩)
  ended first rest hts _ token closing hsuffix :=
    (hplain _ hts.mem_lists token (hsuffix.subset (List.mem_cons_self ..))).2.2

/-- Two messages of one name are refused, and the document lacks nothing. -/
theorem ordersDocument_refused : ∃ s p fault,
    ofDatum none (ordersDocument [orderItems, orderItems]) = .ok s ∧
      (∀ ts ∈ s.lists, ∀ t ∈ ts, t.IsRead) ∧ s.Complete ∧
      Package.after {} (Generation.addSchema s) = (p, some fault) ∧ fault.isWrong = true := by
  have hkind : faultKind (ordersDocument [orderItems, orderItems]) = some (true, some (true, false)) := by
    decide +kernel
  have hcomputed : ((ofDatum none (ordersDocument [orderItems, orderItems])).map fun s =>
      s.types.isEmpty && decide (∀ ts ∈ s.lists, ∀ t ∈ ts,
        (t.signal = .encoding → t.primitive.isSome = true) ∧ t.signal ≠ .opens .group ∧
          t.signal ≠ .opens .varData)).toOption = some true := by
    decide +kernel
  obtain ⟨s, p, fault, hs, hread, hrun, -⟩ := exists_fault hkind
  obtain ⟨s', hs', hf⟩ := exists_of_computed hcomputed
  obtain rfl := Except.ok.inj (hs.symm.trans hs')
  obtain ⟨htypes, hplain⟩ := Bool.and_eq_true_iff.mp hf
  have hcomplete := complete_of_plain (List.isEmpty_iff.mp htypes) (of_decide_eq_true hplain)
  have hfault := fault_of_ofDatum hs hread hrun
  exact ⟨s, p, fault, hs, hread, hcomplete, hrun, hfault.resolve_right fun h => h.1 hcomplete⟩

/-- The items of a message with a reason that has no type. -/
def untypedItems : List Datum := [
  .item (.opens .message) "Cancel" none (some 1) none,
  .item (.opens .field) "reason" none none none,
  .item .encoding "uint8" none (some 1) none,
  .item (.closes .field) "reason" none none none,
  .item (.closes .message) "Cancel" none none none]

/-- A document with types in addition. -/
def withTypes (types : List (List Datum)) : Datum → Datum
  | .map entries => .map (entries ++ [(.text "types", .list (types.map .list))])
  | d => d

/-- **What a document lacks is found out where it is needed**: neither a type without tokens nor a field without
a primitive type is refused for a value. -/
theorem ordersDocument_lacks :
    (∃ s p fault, ofDatum none (withTypes [[]] (ordersDocument [orderItems])) = .ok s ∧
      (∀ ts ∈ s.lists, ∀ t ∈ ts, t.IsRead) ∧ Package.after {} (Generation.addSchema s) = (p, some fault) ∧
      fault.isWrong = false ∧ fault.isMissing = true) ∧
    ∃ s p fault, ofDatum none (ordersDocument [untypedItems]) = .ok s ∧
      (∀ ts ∈ s.lists, ∀ t ∈ ts, t.IsRead) ∧ Package.after {} (Generation.addSchema s) = (p, some fault) ∧
      fault.isWrong = false ∧ fault.isMissing = true :=
  ⟨exists_fault (by decide +kernel), exists_fault (by decide +kernel)⟩

end Schema

end SimpleBinary

import SimpleBinary.Proofs.Class.OnLine
import SimpleBinary.Proofs.Class.Plans

/-!
How classes cannot be written.

A schema can be wrong, or it can lack something that is read without a check: a primitive type, or a token
behind another one. The faults of the two kinds are told apart here (`Fault.isWrong`, `Fault.isMissing`),
and each function that renders something fails in the first way only, unless something is lacking
(`FailsWithin`). Each of them has one lemma; that of a class asks no more of the steps of its plan than the
same of each (`Plan.failsWithin_classes`).
-/

set_option autoImplicit false

namespace SimpleBinary

namespace Fault

/-- Whether a fault is that a value is wrong: it does not agree with others, or stands for nothing that it
should. -/
def isWrong : Fault → Bool
  | .inconsistent _ | .notInteger .. | .longNumeral _ | .longInteger | .notReal _ | .partOfNaN
  | .notCharacter false | .notMoment _ | .notJson _ | .notEncodable _ | .nulInPath => true
  | _ => false

/-- Whether a fault is that something is missing: a part of a value, or what comes after the last one. -/
def isMissing : Fault → Bool
  | .noPart .. | .pastEnd _ => true
  | _ => false

/-- Whether a fault may come up: a wrong value in any case, and something that is missing only where something
is lacking. -/
def MayArise (lacking : Prop) (fault : Fault) : Prop :=
  fault.isWrong = true ∨ lacking ∧ fault.isMissing = true

end Fault

/-- Whether a result fails only with faults that may come up. -/
def FailsWithin {α : Type} (lacking : Prop) (outcome : Except Fault α) : Prop :=
  ∀ fault, outcome = .error fault → fault.MayArise lacking

section

variable {lacking : Prop} {α β : Type}

/-! ## Results -/

theorem failsWithin_ok (a : α) : FailsWithin lacking (.ok a) := by
  intro fault h
  cases h

theorem failsWithin_error {fault : Fault} :
    FailsWithin lacking (.error fault : Except Fault α) ↔ fault.MayArise lacking := by
  constructor
  · intro h
    exact h fault rfl
  · intro h fault' heq
    obtain rfl := Except.error.inj heq
    exact h

theorem failsWithin_wrong {fault : Fault} (h : fault.isWrong = true) :
    FailsWithin lacking (.error fault : Except Fault α) :=
  failsWithin_error.mpr (.inl h)

theorem FailsWithin.bind {x : Except Fault α} {f : α → Except Fault β} (hx : FailsWithin lacking x)
    (hf : ∀ a, x = .ok a → FailsWithin lacking (f a)) : FailsWithin lacking (x >>= f) := by
  cases x with
  | ok a => exact hf a rfl
  | error fault => exact failsWithin_error.mpr (hx fault rfl)

theorem FailsWithin.map {x : Except Fault α} (hx : FailsWithin lacking x) (f : α → β) :
    FailsWithin lacking (x.map f) := by
  cases x with
  | ok a => exact failsWithin_ok _
  | error fault => exact failsWithin_error.mpr (hx fault rfl)

/-- A problem of another kind that is told as a wrong value. -/
theorem failsWithin_mapError {ε : Type} (x : Except ε α) {f : ε → Fault} (hf : ∀ e, (f e).isWrong = true) :
    FailsWithin lacking (x.mapError f) := by
  cases x with
  | ok a => exact failsWithin_ok a
  | error e => exact failsWithin_wrong (hf e)

theorem failsWithin_mapM {f : α → Except Fault β} {as : List α}
    (h : ∀ a ∈ as, FailsWithin lacking (f a)) : FailsWithin lacking (as.mapM f) := by
  induction as with
  | nil => exact failsWithin_ok []
  | cons a as ih =>
    obtain ⟨ha, has⟩ := List.forall_mem_cons.mp h
    rw [List.mapM_cons]
    exact ha.bind fun _ _ => (ih has).bind fun _ _ => failsWithin_ok _

/-! ## Values -/

theorem Fault.isWrong_ofNumeral (base : Nat) (spelling : String) (problem : Numeral.Problem) :
    (Fault.ofNumeral base spelling problem).isWrong = true := by
  cases problem <;> rfl

theorem failsWithin_integerValue (t : Text) : FailsWithin lacking (integerValue t) :=
  failsWithin_mapError _ (Fault.isWrong_ofNumeral 0 (Text.quoted t))

theorem failsWithin_realValue (t : Text) : FailsWithin lacking (realValue t) := by
  rw [realValue]
  split
  · exact failsWithin_ok _
  · split
    · exact failsWithin_ok _
    · exact failsWithin_wrong rfl

theorem failsWithin_parse (p : Primitive) (t : Text) : FailsWithin lacking (p.parse t) := by
  rw [Primitive.parse]
  split
  · exact (failsWithin_realValue _).map _
  · split
    · split
      · exact failsWithin_ok _
      · exact (failsWithin_integerValue _).map _
    · exact (failsWithin_integerValue _).map _

theorem failsWithin_checked (n : Number) : FailsWithin lacking n.checked := by
  rw [Number.checked]
  split
  · exact failsWithin_ok n
  · exact failsWithin_wrong rfl

theorem failsWithin_override (p : Primitive) (default : Number) (text : Option Text) :
    FailsWithin lacking (Bounds.override p default text) := by
  cases text with
  | none => exact failsWithin_ok default
  | some t => exact failsWithin_parse p t

theorem failsWithin_resolve (p : Primitive) (e : Encoding) : FailsWithin lacking (Bounds.resolve p e) := by
  rw [Bounds.resolve]
  refine (failsWithin_override p _ _).bind fun min _ => ?_
  refine (failsWithin_override p _ _).bind fun max _ => ?_
  refine (failsWithin_override p _ _).bind fun null _ => ?_
  refine (failsWithin_checked min).bind fun _ _ => ?_
  refine (failsWithin_checked max).bind fun _ _ => ?_
  exact (failsWithin_checked null).bind fun _ _ => failsWithin_ok _

/-! ## Computations with a state -/

/-- Whether a computation with a state fails only with faults that may come up, if it begins in a state that
is in order, and otherwise gives what is wanted and leaves a state that is in order. -/
structure RunsWithin {σ : Type} (lacking : Prop) (inOrder : σ → Prop) (x : EStateM Fault σ α)
    (wanted : α → Prop) : Prop where
  result : ∀ {s t a}, inOrder s → x s = .ok a t → inOrder t ∧ wanted a
  fault : ∀ {s t fault}, inOrder s → x s = .error fault t → fault.MayArise lacking

section

variable {σ : Type} {inOrder : σ → Prop} {wanted : α → Prop} {others : β → Prop}

theorem runsWithin_pure {a : α} (h : wanted a) : RunsWithin lacking inOrder (pure a) wanted where
  result hs hrun := by
    obtain ⟨rfl, rfl⟩ := state_pure_ok.mp hrun
    exact ⟨hs, h⟩
  fault _ hrun := by cases hrun

theorem runsWithin_throw {fault : Fault} (h : fault.MayArise lacking) :
    RunsWithin lacking inOrder (throw fault) wanted where
  result _ hrun := by cases hrun
  fault _ hrun := by
    obtain ⟨rfl, -⟩ := EStateM.Result.error.inj hrun
    exact h

theorem runsWithin_get : RunsWithin lacking inOrder get inOrder where
  result hs hrun := by
    obtain ⟨rfl, rfl⟩ := state_get_ok.mp hrun
    exact ⟨hs, hs⟩
  fault _ hrun := by cases hrun

theorem runsWithin_modify {f : σ → σ} (h : ∀ s, inOrder s → inOrder (f s)) :
    RunsWithin lacking inOrder (modify f) fun _ => True where
  result hs hrun := by
    obtain rfl := state_modify_ok.mp hrun
    exact ⟨h _ hs, trivial⟩
  fault _ hrun := by cases hrun

theorem RunsWithin.bind {x : EStateM Fault σ α} {f : α → EStateM Fault σ β}
    (hx : RunsWithin lacking inOrder x wanted)
    (hf : ∀ a, wanted a → RunsWithin lacking inOrder (f a) others) :
    RunsWithin lacking inOrder (x >>= f) others where
  result hs hrun := by
    obtain ⟨a, u, hrunx, hrunf⟩ := state_bind_ok.mp hrun
    obtain ⟨hu, ha⟩ := hx.result hs hrunx
    exact (hf a ha).result hu hrunf
  fault hs hrun := by
    obtain hrunx | ⟨a, u, hrunx, hrunf⟩ := state_bind_error.mp hrun
    · exact hx.fault hs hrunx
    · obtain ⟨hu, ha⟩ := hx.result hs hrunx
      exact (hf a ha).fault hu hrunf

end

namespace Emission

/-! ## Emissions -/

theorem failsWithin_bind {x : Emission α} {f : α → Emission β} (hx : FailsWithin lacking x.outcome)
    (hf : ∀ a, x.outcome = .ok a → FailsWithin lacking (f a).outcome) :
    FailsWithin lacking (x >>= f).outcome := by
  cases h : x.outcome with
  | ok a =>
    rw [bind_of_ok f h]
    exact hf a h
  | error fault =>
    rw [bind_of_error f h]
    exact failsWithin_error.mpr (hx fault h)

theorem failsWithin_pure (a : α) : FailsWithin lacking (pure a : Emission α).outcome :=
  failsWithin_ok a

theorem failsWithin_note (n : Note) : FailsWithin lacking (note n).outcome :=
  failsWithin_ok ()

/-- An integer that is too long to be written is a wrong value. -/
theorem failsWithin_demand (areWritable : Bool) : FailsWithin lacking (demand areWritable).outcome := by
  cases areWritable with
  | true => exact failsWithin_ok ()
  | false => exact failsWithin_wrong rfl

theorem failsWithin_ofOption {o : Option α} (part : String) (h : lacking ∨ o.isSome = true) :
    FailsWithin lacking (ofOption part o).outcome := by
  cases o with
  | some a => exact failsWithin_ok a
  | none =>
    obtain hlacking | hsome := h
    · exact failsWithin_error.mpr (.inr ⟨hlacking, rfl⟩)
    · cases hsome

theorem failsWithin_bounds (type : Primitive) (e : Encoding) :
    FailsWithin lacking (bounds type e).outcome := by
  rw [bounds]
  refine failsWithin_bind (failsWithin_resolve type e) fun b _ => ?_
  dsimp only
  split
  · exact failsWithin_bind (failsWithin_note _) fun _ _ => failsWithin_pure _
  · exact failsWithin_pure _

theorem failsWithin_mapM {f : α → Emission β} {as : List α}
    (h : ∀ a ∈ as, FailsWithin lacking (f a).outcome) : FailsWithin lacking (as.mapM f).outcome := by
  induction as with
  | nil => exact failsWithin_pure []
  | cons a as ih =>
    obtain ⟨ha, has⟩ := List.forall_mem_cons.mp h
    rw [List.mapM_cons]
    refine failsWithin_bind ha fun _ _ => ?_
    exact failsWithin_bind (ih has) fun _ _ => failsWithin_pure _

/-- An emission that is made under a condition. -/
theorem failsWithin_when {c : Prop} [Decidable c] {x : Emission Unit} {f : Unit → Emission α}
    (hx : FailsWithin lacking x.outcome) (hf : FailsWithin lacking (f ()).outcome) :
    FailsWithin lacking (if c then x >>= f else f ()).outcome := by
  split
  · exact failsWithin_bind hx fun _ _ => hf
  · exact hf

/-- One of two emissions, whichever a condition says. -/
theorem failsWithin_ite_bind {c : Prop} [Decidable c] {x y : Emission α} {f : α → Emission β}
    (hx : FailsWithin lacking x.outcome) (hy : FailsWithin lacking y.outcome)
    (hf : ∀ a, FailsWithin lacking (f a).outcome) :
    FailsWithin lacking (if c then x >>= f else y >>= f).outcome := by
  split
  · exact failsWithin_bind hx fun a _ => hf a
  · exact failsWithin_bind hy fun a _ => hf a

end Emission

open Code Emission

/-! ## Steps -/

/-- Whether a value is a text, unless it is not given. -/
def Datum.isTextOrNull : Datum → Bool
  | .null | .text _ => true
  | _ => false

/-- Whether the values by which a token names something are texts where they are given. -/
structure Token.NamesAsText (t : Token) : Prop where
  referencedName : t.referencedName.isTextOrNull = true
  characterEncoding : t.encoding.characterEncoding.isTextOrNull = true

/-- Whether a token has what its attributes are there for: no number of it is missing, and what names
something is a text. -/
structure Token.IsRead (t : Token) : Prop where
  numbered : t.Numbered
  names : t.NamesAsText

theorem Datum.eq_of_isTextOrNull {d : Datum} (h : d.isTextOrNull = true) : d = .null ∨ ∃ t, d = .text t := by
  cases d with
  | null => exact .inl rfl
  | text t => exact .inr ⟨t, rfl⟩
  | _ => cases h

/-- The name of a type is a text. -/
theorem Token.NamesAsText.typeName {t : Token} (h : t.NamesAsText) : ∃ name, t.typeName = .text name := by
  rw [Token.typeName]
  split
  · rename_i hgiven
    obtain hnull | hname := Datum.eq_of_isTextOrNull h.referencedName
    · rw [hnull] at hgiven
      cases hgiven
    · exact hname
  · exact ⟨t.name, rfl⟩

namespace Codec

variable {owner property : String}

theorem failsWithin_validatorStmts {t : Token} (h : t.NamesAsText) :
    FailsWithin lacking (validatorStmts owner property t.encoding.characterEncoding).outcome := by
  have hvalidator : FailsWithin lacking (Helper.validator? t.encoding.characterEncoding) := by
    obtain hnull | ⟨name, hname⟩ := Datum.eq_of_isTextOrNull h.characterEncoding
    · rw [hnull]
      exact failsWithin_ok none
    · rw [hname, Helper.validator?]
      split
      · exact failsWithin_ok _
      · exact failsWithin_ok none
  rw [validatorStmts]
  refine failsWithin_bind hvalidator fun found _ => ?_
  cases found with
  | some validator => exact failsWithin_bind (failsWithin_note _) fun _ _ => failsWithin_pure _
  | none => exact failsWithin_pure []

theorem failsWithin_countOf {encoding : Token} (h : encoding.Numbered) (fault : Fault) :
    FailsWithin lacking (countOf encoding fault).outcome := by
  obtain ⟨count, hcount⟩ := Option.isSome_iff_exists.mp h.arrayLength
  rw [countOf, hcount]
  exact failsWithin_pure count

theorem failsWithin_textAccessors (type : Primitive) {encoding : Token} (h : encoding.Numbered) :
    FailsWithin lacking (textAccessors type property encoding).outcome := by
  rw [textAccessors]
  split
  · refine failsWithin_bind (failsWithin_countOf h _) fun count _ => ?_
    split
    · exact failsWithin_bind (failsWithin_demand _) fun _ _ => failsWithin_pure _
    · exact failsWithin_pure []
  · exact failsWithin_pure []

theorem failsWithin_constantBodies (type : Primitive) (field encoding : Token) :
    FailsWithin lacking (constantBodies property type field encoding).outcome := by
  have hvalue (text : Text) : FailsWithin lacking (constantValue type text) := by
    rw [constantValue]
    split
    · exact FailsWithin.map (failsWithin_mapError _ fun _ => rfl) _
    · refine (failsWithin_parse type text).bind fun n _ => ?_
      exact (failsWithin_checked n).bind fun _ _ => failsWithin_ok _
  rw [constantBodies]
  refine failsWithin_bind (hvalue _) fun value _ => ?_
  exact failsWithin_bind (failsWithin_ok ()) fun _ _ => failsWithin_pure _

theorem failsWithin_valueBodies (type : Primitive) {encoding : Token} (h : encoding.IsRead) :
    FailsWithin lacking (valueBodies owner property type encoding).outcome := by
  rw [valueBodies]
  refine failsWithin_bind (failsWithin_note _) fun _ _ => ?_
  refine failsWithin_bind (failsWithin_note _) fun _ _ => ?_
  refine failsWithin_bind (failsWithin_note _) fun _ _ => ?_
  refine failsWithin_bind (failsWithin_countOf h.numbered _) fun count _ => ?_
  refine failsWithin_bind (failsWithin_demand _) fun _ _ => ?_
  refine failsWithin_when (failsWithin_note _) ?_
  refine failsWithin_ite_bind ?_ (failsWithin_pure []) fun _ => failsWithin_pure _
  exact failsWithin_validatorStmts h.names

/-- A field of a primitive type lacks nothing but the type. -/
theorem failsWithin_primitiveBodies (field : Token) {encoding : Token} (h : encoding.IsRead)
    (htyped : lacking ∨ encoding.primitive.isSome = true) :
    FailsWithin lacking (primitiveBodies owner field encoding).outcome := by
  rw [primitiveBodies]
  refine failsWithin_bind (failsWithin_demand _) fun _ _ => ?_
  refine failsWithin_bind (failsWithin_ofOption _ htyped) fun type _ => ?_
  refine failsWithin_bind (failsWithin_bounds _ _) fun b _ => ?_
  refine failsWithin_bind (failsWithin_ok ()) fun _ _ => ?_
  refine failsWithin_bind (failsWithin_textAccessors type h.numbered) fun texts _ => ?_
  refine failsWithin_ite_bind ?_ ?_ fun _ => failsWithin_pure _
  · exact failsWithin_constantBodies type field encoding
  · exact failsWithin_valueBodies type h

theorem failsWithin_enumerationConstant (type : String) (field : Token) :
    FailsWithin lacking (enumerationConstant type field) := by
  rw [enumerationConstant]
  split
  · exact failsWithin_ok _
  · split
    · exact failsWithin_ok _
    · split
      · refine FailsWithin.bind (failsWithin_mapError _ ?_) fun _ _ => failsWithin_ok _
        exact Fault.isWrong_ofNumeral 10 _
      · exact failsWithin_ok _

theorem failsWithin_valueOfTypeBodies (construct : Construct) (type : String) (field : Token) :
    FailsWithin lacking (valueOfTypeBodies construct type property field) := by
  rw [valueOfTypeBodies.eq_def]
  split
  · split
    · exact (failsWithin_enumerationConstant type field).bind fun _ _ => failsWithin_ok _
    · exact failsWithin_ok _
  · exact failsWithin_ok _
  · exact failsWithin_ok _

/-- A field with a class lacks nothing: the class is named by a text. -/
theorem failsWithin_typedBodies (construct : Construct) {typeName : Datum} (field : Token)
    (nested : Option String) (hname : ∃ name, typeName = .text name) :
    FailsWithin lacking (typedBodies construct typeName field nested).outcome := by
  have htype : FailsWithin lacking (typeOf typeName nested).outcome := by
    obtain ⟨name, rfl⟩ := hname
    cases nested with
    | some type => exact failsWithin_pure type
    | none => exact failsWithin_bind (failsWithin_note _) fun _ _ => failsWithin_pure _
  rw [typedBodies]
  refine failsWithin_bind htype fun type _ => ?_
  refine failsWithin_bind (failsWithin_demand _) fun _ _ => ?_
  exact failsWithin_bind (failsWithin_valueOfTypeBodies construct type field) fun _ _ =>
    failsWithin_pure _

/-- A group lacks nothing but the types of its dimensions. -/
theorem failsWithin_groupBodies (token : Token) {blockLength numInGroup : Token} (element : String)
    (hblock : lacking ∨ blockLength.primitive.isSome = true)
    (hnum : lacking ∨ numInGroup.primitive.isSome = true) :
    FailsWithin lacking (groupBodies owner token blockLength numInGroup element).outcome := by
  rw [groupBodies]
  refine failsWithin_bind (failsWithin_ofOption _ hblock) fun _ _ => ?_
  refine failsWithin_bind (failsWithin_ofOption _ hnum) fun _ _ => ?_
  refine failsWithin_bind (failsWithin_note _) fun _ _ => ?_
  refine failsWithin_bind (failsWithin_note _) fun _ _ => ?_
  refine failsWithin_bind (failsWithin_demand _) fun _ _ => ?_
  refine failsWithin_bind (failsWithin_bounds _ _) fun _ _ => ?_
  exact failsWithin_bind (failsWithin_note _) fun _ _ => failsWithin_pure _

/-- Variable data lacks nothing but the types of its length and of the data. -/
theorem failsWithin_varDataBodies (token : Token) {length data : Token} (hdata : data.NamesAsText)
    (hlength : lacking ∨ length.primitive.isSome = true)
    (htyped : lacking ∨ data.primitive.isSome = true) :
    FailsWithin lacking (varDataBodies owner token length data).outcome := by
  rw [varDataBodies]
  refine failsWithin_bind (failsWithin_ofOption _ hlength) fun _ _ => ?_
  refine failsWithin_bind (failsWithin_note _) fun _ _ => ?_
  refine failsWithin_bind (failsWithin_note _) fun _ _ => ?_
  refine failsWithin_bind (failsWithin_demand _) fun _ _ => ?_
  refine failsWithin_bind (failsWithin_ofOption _ htyped) fun _ _ => ?_
  refine failsWithin_bind (failsWithin_bounds _ _) fun _ _ => ?_
  refine failsWithin_bind (failsWithin_note _) fun _ _ => ?_
  refine failsWithin_ite_bind ?_ (failsWithin_pure []) fun _ => failsWithin_pure _
  exact failsWithin_validatorStmts hdata

theorem failsWithin_gapBodies (isExtensible : Bool) (size : Int) (since : Option Int) (trailing : Bool) :
    FailsWithin lacking (gapBodies isExtensible size since trailing).outcome := by
  rw [gapBodies]
  refine failsWithin_bind (failsWithin_note _) fun _ _ => ?_
  refine failsWithin_bind (failsWithin_demand _) fun _ _ => ?_
  dsimp only
  split
  · exact failsWithin_pure _
  · refine failsWithin_bind (failsWithin_note _) fun _ _ => ?_
    exact failsWithin_bind (failsWithin_demand _) fun _ _ => failsWithin_pure _

/-- The extension skip lacks nothing where a version is known. -/
theorem failsWithin_skipBodies {known : List (Int × Int)} (h : known ≠ []) :
    FailsWithin lacking (skipBodies known).outcome := by
  rw [skipBodies.eq_def]
  refine failsWithin_bind (failsWithin_note _) fun _ _ => ?_
  refine failsWithin_bind (failsWithin_demand _) fun _ _ => ?_
  split
  · exact absurd rfl h
  · exact failsWithin_pure _
  · exact failsWithin_bind (failsWithin_demand _) fun _ _ => failsWithin_pure _

end Codec

/-- Whether a step fails only within what may come up: what it adds to a class, and the classes of the plan
that it holds. -/
structure Step.FailsWithin (lacking : Prop) (e : Edition) (s : Step) : Prop where
  bodies : ∀ owner isExtensible, SimpleBinary.FailsWithin lacking (s.bodies owner isExtensible).outcome
  classes : ∀ q ∈ s.inner?, SimpleBinary.FailsWithin lacking (q.classes e).outcome

namespace Plan

variable {e : Edition}

theorem failsWithin_innerClasses {steps : List Step} (h : ∀ s ∈ steps, s.FailsWithin lacking e) :
    FailsWithin lacking (innerClasses e steps).outcome := by
  induction steps with
  | nil => exact failsWithin_pure []
  | cons s rest ih =>
    obtain ⟨hs, hrest⟩ := List.forall_mem_cons.mp h
    have hothers := ih hrest
    -- A step without a plan adds no classes, and one with a plan has those of the plan in front.
    cases s with
    | group token blockLength numInGroup element =>
      refine failsWithin_bind (hs.classes element rfl) fun own _ => ?_
      exact failsWithin_bind hothers fun _ _ => failsWithin_pure _
    | typed construct typeName field type nested =>
      cases nested with
      | some nested =>
        refine failsWithin_bind (hs.classes nested rfl) fun own _ => ?_
        exact failsWithin_bind hothers fun _ _ => failsWithin_pure _
      | none => exact hothers
    | _ => exact hothers

/-- What a class says about itself is there where the token of the entity is, and the types of the header
where it is a message. -/
theorem isSome_classOf {p : Plan} (htoken : p.token.isSome = true)
    (hheader : p.kind = .message → (headerTypes e.header).isSome = true) (b : Bodies) :
    (classOf e p b).isSome = true := by
  obtain ⟨token, htoken⟩ := Option.isSome_iff_exists.mp htoken
  cases hkind : p.kind with
  | message =>
    obtain ⟨types, htypes⟩ := Option.isSome_iff_exists.mp (hheader hkind)
    simp [classOf, sentence, numberMethods, hkind, htoken, htypes]
  | _ => simp [classOf, sentence, numberMethods, hkind, htoken]

theorem failsWithin_demandClass {p : Plan} (htoken : p.token.isSome = true)
    (hheader : p.kind = .message → lacking ∨ (headerTypes e.header).isSome = true) :
    FailsWithin lacking (demandClass e p).outcome := by
  rw [demandClass]
  split
  · rename_i hkind
    refine failsWithin_bind (failsWithin_ofOption _ (.inr htoken)) fun token _ => ?_
    refine failsWithin_bind (failsWithin_demand _) fun _ _ => ?_
    refine failsWithin_bind ?_ fun _ _ => failsWithin_demand _
    exact failsWithin_bind (failsWithin_ofOption _ (hheader hkind)) fun _ _ => failsWithin_pure _
  · refine failsWithin_bind ?_ fun _ _ => failsWithin_demand _
    exact failsWithin_bind (failsWithin_ofOption _ (.inr htoken)) fun _ _ => failsWithin_pure _
  · exact failsWithin_demand _

/-- **The classes of a plan lack nothing that its steps do not lack**, the types of the header of a message
apart. -/
theorem failsWithin_classes {p : Plan} (hsteps : ∀ s ∈ p.steps, s.FailsWithin lacking e)
    (htoken : p.token.isSome = true)
    (hheader : p.kind = .message → lacking ∨ (headerTypes e.header).isSome = true) :
    FailsWithin lacking (p.classes e).outcome := by
  obtain ⟨typeName, kind, blockLength, isExtensible, token, steps, consumed⟩ := p
  have hbodies : FailsWithin lacking (steps.mapM (Step.bodies typeName isExtensible)).outcome :=
    Emission.failsWithin_mapM fun s hs => (hsteps s hs).bodies typeName isExtensible
  have hclass (b : Bodies) : lacking ∨
      (classOf e ⟨typeName, kind, blockLength, isExtensible, token, steps, consumed⟩ b).isSome = true := by
    by_cases hkind : kind = .message
    · obtain hlacking | htypes := hheader hkind
      · exact .inl hlacking
      · exact .inr (isSome_classOf htoken (fun _ => htypes) b)
    · exact .inr (isSome_classOf htoken (fun h => absurd h hkind) b)
  rw [classes]
  refine failsWithin_bind (failsWithin_note _) fun _ _ => ?_
  refine failsWithin_bind hbodies fun bodies _ => ?_
  refine failsWithin_bind (failsWithin_demandClass htoken hheader) fun _ _ => ?_
  refine failsWithin_bind (failsWithin_ofOption _ (hclass _)) fun own _ => ?_
  exact failsWithin_bind (failsWithin_innerClasses hsteps) fun _ _ => failsWithin_pure _

end Plan

/-! ## Enumerations and choice sets -/

section

variable {first : Token} {rest : List Token}

theorem Codec.failsWithin_opening (construct : Construct) (first : Token) (rest : List Token) :
    FailsWithin lacking (opening construct (first :: rest)) := by
  rw [opening]
  split
  · exact failsWithin_ok first
  · exact failsWithin_wrong rfl

theorem Codec.failsWithin_definedName {t : Token} (h : t.NamesAsText) :
    FailsWithin lacking (definedName t) := by
  obtain ⟨name, hname⟩ := h.typeName
  rw [definedName, hname]
  exact failsWithin_ok _

theorem Codec.failsWithin_integerType (t : Token) : FailsWithin lacking (integerType t) := by
  rw [integerType]
  split
  · split
    · exact failsWithin_ok _
    · exact failsWithin_wrong rfl
  · split
    · exact failsWithin_ok _
    · exact failsWithin_wrong rfl

/-- An enumeration lacks nothing: without a type it has bytes. -/
theorem Enumeration.failsWithin_ofTokens (h : first.IsRead) :
    FailsWithin lacking (ofTokens (first :: rest)).outcome := by
  have henumerator (type : Primitive) (t : Token) : FailsWithin lacking (enumerator type t) := by
    rw [enumerator]
    refine (failsWithin_parse type _).bind fun n _ => ?_
    exact (failsWithin_checked n).bind fun _ _ => failsWithin_ok _
  rw [ofTokens]
  refine failsWithin_bind (Codec.failsWithin_opening _ first rest)
    fun token (htoken : Codec.opening _ (first :: rest) = .ok token) => ?_
  obtain rfl : first = token := Option.some.inj (Codec.head?_of_opening htoken)
  refine failsWithin_bind (Codec.failsWithin_definedName h.names) fun name _ => ?_
  dsimp only
  refine failsWithin_bind (Codec.failsWithin_integerType first) fun wire _ => ?_
  refine failsWithin_bind (failsWithin_override _ _ _) fun null _ => ?_
  refine failsWithin_bind (failsWithin_note _) fun _ _ => ?_
  refine failsWithin_bind (failsWithin_note _) fun _ _ => ?_
  refine failsWithin_bind (failsWithin_note _) fun _ _ => ?_
  refine failsWithin_bind (failsWithin_note _) fun _ _ => ?_
  refine failsWithin_bind (SimpleBinary.failsWithin_mapM fun t _ => henumerator _ t) fun values _ => ?_
  refine failsWithin_bind (failsWithin_checked null) fun _ _ => ?_
  exact failsWithin_bind (failsWithin_demand _) fun _ _ => failsWithin_pure _

/-- A choice set lacks nothing: without a type it has an unsigned integer of its length. -/
theorem ChoiceSet.failsWithin_ofTokens (h : first.IsRead) :
    FailsWithin lacking (ofTokens (first :: rest)).outcome := by
  have hwidth : FailsWithin lacking (widthOf first) := by
    obtain ⟨length, hlength⟩ := Option.isSome_iff_exists.mp h.numbered.encodedLength
    rw [widthOf, hlength]
    exact failsWithin_ok _
  have hchoice (set : String) (width : Int) (t : Token) : FailsWithin lacking (choice set width t) := by
    rw [choice]
    refine (failsWithin_integerValue _).bind fun bit _ => ?_
    split
    · exact failsWithin_ok _
    · exact failsWithin_wrong rfl
  rw [ofTokens]
  refine failsWithin_bind (Codec.failsWithin_opening _ first rest)
    fun token (htoken : Codec.opening _ (first :: rest) = .ok token) => ?_
  obtain rfl : first = token := Option.some.inj (Codec.head?_of_opening htoken)
  refine failsWithin_bind (Codec.failsWithin_definedName h.names) fun name _ => ?_
  refine failsWithin_bind (Codec.failsWithin_integerType first) fun wire _ => ?_
  refine failsWithin_bind hwidth fun width _ => ?_
  refine failsWithin_bind (SimpleBinary.failsWithin_mapM fun t _ => hchoice name width t) fun _ _ => ?_
  refine failsWithin_bind (failsWithin_note _) fun _ _ => ?_
  refine failsWithin_bind (failsWithin_note _) fun _ _ => ?_
  refine failsWithin_bind (failsWithin_note _) fun _ _ => ?_
  exact failsWithin_bind (failsWithin_demand _) fun _ _ => failsWithin_pure _

end

end

end SimpleBinary

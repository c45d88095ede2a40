import SimpleBinary.Proofs.Block.Basic

/-!
The block that a walk lays.

Where the fields among the tokens come before what closes the block, a walker holds an open block
until it is closed, and from then on a block, the steps that close it and steps beyond it. Both are
kept by every turn, so a plan has the same parts (`ofTokens_parts`).
-/

set_option autoImplicit false

namespace SimpleBinary

/-- Whether a walk meets a field. -/
def Stop.isField : Stop → Bool
  | .field .. => true
  | .close => false

/-- The version of a field that is on the wire. -/
def Stop.since? : Stop → Option Int
  | .field own type => if Walk.isConstant own type then none else own.version
  | .close => none

namespace Walk

/-- Whether all fields of the fixed block come before what closes it. -/
def FieldsFirst (ts : List Token) : Prop :=
  (stops ts).Pairwise fun earlier later => later.isField = true → earlier.isField = true

/-- The versions of the fields that are on the wire, in the order of the tokens. -/
def sinceVersions (ts : List Token) : List Int :=
  (stops ts).filterMap Stop.since?

theorem stops_cons (token : Token) (rest : List Token) :
    stops (token :: rest) = (stopAt token rest).toList ++ stops (after token rest) := by
  rw [stops]

/-- A field is met at its own token. -/
theorem field_eq_of_stopAt {token field type : Token} {rest : List Token}
    (h : stopAt token rest = some (.field field type)) : field = token := by
  unfold stopAt at h
  split at h
  case h_1 =>
    obtain ⟨_, -, hstop⟩ := Option.map_eq_some_iff.mp h
    cases hstop
    rfl
  all_goals
    cases h
    try rfl

/-- The type of a field is among the tokens. -/
theorem type_mem_of_stopAt {token field type : Token} {rest : List Token}
    (h : stopAt token rest = some (.field field type)) : type ∈ token :: rest := by
  unfold stopAt at h
  split at h
  case h_1 =>
    obtain ⟨_, hhead, hstop⟩ := Option.map_eq_some_iff.mp h
    cases hstop
    exact List.mem_cons_of_mem _ (List.mem_of_mem_head? hhead)
  all_goals
    cases h
    try exact List.mem_cons_self ..

section

variable {token : Token} {rest : List Token}

theorem FieldsFirst.after (h : FieldsFirst (token :: rest)) : FieldsFirst (after token rest) := by
  rw [FieldsFirst, stops_cons] at h
  exact (List.pairwise_append.mp h).2.1

/-- No field follows what closes the block. -/
theorem FieldsFirst.of_close (h : FieldsFirst (token :: rest))
    (hstop : stopAt token rest = some .close) :
    ∀ s ∈ stops (Walk.after token rest), s.isField = false := by
  intro s hs
  rw [FieldsFirst, stops_cons, hstop] at h
  have := (List.pairwise_append.mp h).2.2 .close (by simp) s hs
  simpa [Stop.isField] using this

end

end Walk

/-- A walker whose block is closed: the block, what closes it, and steps beyond it. -/
def Walker.Shut (w : Walker) : Prop :=
  ∃ block tail length known, w.plan.blockLength = some length ∧
    (w.plan.isExtensible = true → w.ends.knownLengths = .ok known) ∧
    Block block w.offset w.ends ∧
    w.plan.steps = block ++ closing w.plan.isExtensible w.offset length known ++ tail ∧
    ∀ s ∈ tail, s.isBeyond = true

/-- How far a walker is with the block of the entity, with the tokens that are left. -/
structure Walker.Laying (ts : List Token) (w : Walker) : Prop where
  fieldsFirst : Walk.FieldsFirst ts
  nonneg : ∀ t ∈ ts, ∀ length, t.encodedLength = some length → 0 ≤ length
  opened : w.isClosed = false → Block w.plan.steps w.offset w.ends
  shut : w.isClosed = true → w.Shut ∧ ∀ s ∈ Walk.stops ts, s.isField = false

namespace Walker

variable {w u : Walker} {ts rest : List Token} {token : Token}

theorem Shut.extend {steps : List Step} (h : w.Shut) (hbeyond : ∀ s ∈ steps, s.isBeyond = true) :
    (w.extend steps).Shut := by
  obtain ⟨block, tail, length, known, hlength, hknown, hblock, hsteps, htail⟩ := h
  refine ⟨block, tail ++ steps, length, known, hlength, hknown, hblock, ?_, ?_⟩
  · rw [extend_steps, hsteps, List.append_assoc]
    rfl
  · intro s hs
    rcases List.mem_append.mp hs with hs | hs
    · exact htail s hs
    · exact hbeyond s hs

/-- Closing the block shuts it. -/
theorem Laying.closes (h : w.Laying ts) (hcloses : w.Closes u) : u.Shut := by
  cases hcloses with
  | already hclosed => exact (h.shut hclosed).1
  | @now length known hopen hlength hknown =>
    exact ⟨w.plan.steps, [], length, known, hlength, hknown, h.opened hopen, (List.append_nil _).symm,
      by simp⟩

/-- The step that a field leaves has the tokens of the field. -/
theorem Records.fieldTokens?_eq {field type : Token} {step : Step} (h : w.Records field type step) :
    step.fieldTokens? = some (field, type) := by
  cases h <;> rfl

/-- A field leaves an open block open, and a closed one closed. -/
theorem Places.isClosed_eq {field type : Token} {step : Step} (h : w.Places field type step u) :
    u.isClosed = w.isClosed := by
  cases h with
  | constant => rfl
  | onWire _ hpads => cases hpads <;> rfl

/-- A field lengthens the block. -/
theorem Places.block {field type : Token} {step : Step} (hplaces : w.Places field type step u)
    (hblock : Block w.plan.steps w.offset w.ends)
    (hnonneg : ∀ length, type.encodedLength = some length → 0 ≤ length)
    (hrecords : w.Records field type step) : Block u.plan.steps u.offset u.ends := by
  have htokens := hrecords.fieldTokens?_eq
  cases hplaces with
  | constant hc => exact hblock.constant htokens hc
  | @onWire size length v hc hpads hlength =>
    have hwire := Step.wire?_of_not_constant htokens hc
    cases hpads with
    | undeclared hd => simpa using hblock.field hwire hlength (hnonneg length hlength) (by simp [hd])
    | reached hd => simpa using hblock.field hwire hlength (hnonneg length hlength) (by simp [hd])
    | gap hsize hd =>
      simpa [Int.add_assoc] using hblock.padded hwire hlength (hnonneg length hlength) hsize hd

/-- A field lengthens the open block. -/
theorem Laying.places {field type : Token} {step : Step} (h : w.Laying ts)
    (hopen : w.isClosed = false) (htype : type ∈ ts) (hrecords : w.Records field type step)
    (hplaces : w.Places field type step u) :
    u.isClosed = false ∧ Block u.plan.steps u.offset u.ends :=
  ⟨hplaces.isClosed_eq.trans hopen, hplaces.block (h.opened hopen) (h.nonneg type htype) hrecords⟩

/-- **Every turn keeps on laying the block.** -/
theorem Laying.turn (h : w.Laying (token :: rest)) (hturn : w.Turn token rest u) :
    u.Laying (Walk.after token rest) := by
  have hfirst := h.fieldsFirst.after
  have hnonneg : ∀ t ∈ Walk.after token rest, ∀ length, t.encodedLength = some length → 0 ≤ length :=
    fun t ht => h.nonneg t ((Walk.after_suffix token rest).mem ht)
  have hrest : ∀ s ∈ Walk.stops (Walk.after token rest), s ∈ Walk.stops (token :: rest) := by
    intro s hs
    rw [Walk.stops_cons]
    exact List.mem_append_right _ hs
  -- Behind what closes the block there are no fields, and the walker is shut.
  have hclosed {v : Walker} (hshut : v.Shut) (hv : v.isClosed = true)
      (hstop : Walk.stopAt token rest = some .close) : v.Laying (Walk.after token rest) :=
    ⟨hfirst, hnonneg, fun hopen => by simp [hv] at hopen,
      fun _ => ⟨hshut, h.fieldsFirst.of_close hstop⟩⟩
  cases hturn with
  | messageOpens hs =>
    refine ⟨hfirst, hnonneg, fun hopen => (h.opened hopen).validation, fun hclosed => ?_⟩
    obtain ⟨hshut, hstops⟩ := h.shut hclosed
    exact ⟨hshut.extend (by simp [Step.isBeyond]), fun s hs => hstops s (hrest s hs)⟩
  | messageCloses hs hcloses =>
    exact hclosed ((h.closes hcloses).extend (by simp [Step.isBeyond])) hcloses.isClosed
      (by rw [Walk.stopAt, hs])
  | groupCloses hs hcloses =>
    exact hclosed (h.closes hcloses) hcloses.isClosed (by rw [Walk.stopAt, hs])
  | group hs hcloses =>
    exact hclosed ((h.closes hcloses).extend (by simp [Step.isBeyond])) hcloses.isClosed
      (by rw [Walk.stopAt, hs])
  | varData hs hcloses =>
    exact hclosed ((h.closes hcloses).extend (by simp [Step.isBeyond])) hcloses.isClosed
      (by rw [Walk.stopAt, hs])
  | passes =>
    refine ⟨hfirst, hnonneg, h.opened, fun hclosed => ?_⟩
    obtain ⟨hshut, hstops⟩ := h.shut hclosed
    exact ⟨hshut, fun s hs => hstops s (hrest s hs)⟩
  | @field own type step _ hstop hrecords hplaces =>
    have hopen : w.isClosed = false := by
      -- A closed walker has no field ahead, and here is one.
      refine Bool.eq_false_iff.mpr fun hclosed => ?_
      have := (h.shut hclosed).2 (.field own type) (by simp [Walk.stops_cons, hstop])
      simp [Stop.isField] at this
    obtain ⟨hstill, hblock⟩ :=
      h.places hopen (Walk.type_mem_of_stopAt hstop) hrecords hplaces
    exact ⟨hfirst, hnonneg, fun _ => hblock, fun hclosed => by simp [hstill] at hclosed⟩

end Walker

/-! ## Plans -/

/-- The parts of a plan: an open block, what closes it, and steps beyond it. -/
structure Plan.Parts (p : Plan) (block : List Step) (length : Int) (known : List (Int × Int))
    (ends : FieldEnds) (tail : List Step) : Prop where
  declares : p.blockLength = some length
  knows : p.isExtensible = true → ends.knownLengths = .ok known
  lays : Block block p.consumed ends
  steps_eq : p.steps = block ++ closing p.isExtensible p.consumed length known ++ tail
  tail_beyond : ∀ s ∈ tail, s.isBeyond = true

/-- **A plan whose fields come first has the parts of a block.** The consumed length is the offset that
the block reaches. -/
theorem Plan.ofTokens_parts {blank plan : Plan} {ts : List Token} (hblank : blank.steps = [])
    (h : blank.ofTokens ts = .ok plan) (hfirst : Walk.FieldsFirst ts)
    (hnonneg : ∀ t ∈ ts, ∀ length, t.encodedLength = some length → 0 ≤ length) :
    ∃ block length known ends tail, plan.Parts block length known ends tail := by
  obtain ⟨u, v, hwalk, hcloses, rfl⟩ := Walk.fresh_ok h
  have hstart : ({ plan := blank } : Walker).Laying ts :=
    ⟨hfirst, hnonneg, fun _ => by rw [hblank]; exact .empty, fun hclosed => by cases hclosed⟩
  have hend : u.Laying [] :=
    Walk.tokens_induction (P := fun ts w => w.Laying ts) Walker.Laying.turn hstart hwalk
  obtain ⟨block, tail, length, known, hlength, hknown, hblock, hsteps, htail⟩ := hend.closes hcloses
  exact ⟨block, length, known, v.ends, tail, hlength, hknown, hblock, hsteps, htail⟩

/-- A walk leaves the attributes of the plan that it began with. -/
theorem Plan.ofTokens_attributes {blank plan : Plan} {ts : List Token}
    (h : blank.ofTokens ts = .ok plan) :
    plan.blockLength = blank.blockLength ∧ plan.isExtensible = blank.isExtensible := by
  obtain ⟨u, v, hwalk, hcloses, rfl⟩ := Walk.fresh_ok h
  obtain ⟨more, hmore⟩ := Walk.tokens_extends hwalk
  have hu : u.plan.blockLength = blank.blockLength ∧ u.plan.isExtensible = blank.isExtensible := by
    rw [hmore]
    exact ⟨rfl, rfl⟩
  cases hcloses with
  | already => exact hu
  | now => exact hu

/-! ## A sample -/

/-- The tokens of an order: an identifier, a constant, and a price that came with the first version and
stands behind four bytes of padding. -/
def orderTokens : List Token := [
  { signal := .opens .message, name := "Order", encodedLength := some 20 },
  { signal := .opens .field, name := "id", tokenCount := some 3, offset := some 0 },
  { signal := .encoding, name := "uint32", encodedLength := some 4 },
  { signal := .closes .field, name := "id" },
  { signal := .opens .field, name := "kind", tokenCount := some 3 },
  { signal := .encoding, name := "uint8", encodedLength := some 1
    encoding := { presence := some .constant } },
  { signal := .closes .field, name := "kind" },
  { signal := .opens .field, name := "price", tokenCount := some 3, offset := some 8
    version := some 1 },
  { signal := .encoding, name := "double", encodedLength := some 8 },
  { signal := .closes .field, name := "price" },
  { signal := .closes .message, name := "Order" }]

/-- The plan of an order of twenty bytes. -/
def orderPlan : Except Fault Plan :=
  Plan.ofTokens {
    typeName := "Order"
    kind := .message
    blockLength := some 20
    isExtensible := true
    token := none } orderTokens

theorem orderTokens_fieldsFirst : Walk.FieldsFirst orderTokens := by
  unfold Walk.FieldsFirst
  cbv
  decide

theorem orderTokens_nonneg :
    ∀ t ∈ orderTokens, ∀ length, t.encodedLength = some length → 0 ≤ length := by
  simp [orderTokens]

theorem exists_orderPlan : ∃ plan, orderPlan = .ok plan ∧ plan.consumed = 16 := by
  have h : orderPlan.map Plan.consumed = .ok 16 := by cbv
  cases hplan : orderPlan with
  | ok plan =>
    rw [hplan] at h
    exact ⟨plan, rfl, Except.ok.inj h⟩
  | error fault =>
    rw [hplan] at h
    cases h

end SimpleBinary
